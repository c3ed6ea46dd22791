import Soprano.Error
import Soprano.Library.Loop
import Soprano.Library.Memory
import Soprano.Qt.Arg

/-! `Server::DataStream`: blocks of bytes that a device takes or gives in as many parts as it likes. -/

namespace Soprano

namespace Server

namespace ServerDataStream

open Loop Memory

/-- `QIODevice`. A `none` of `read` and `write` is the -1 of an error. -/
structure QIODevice (σ : Type) where
  read : Nat → σ → Option QByteArray × σ
  write : QByteArray → σ → Option Nat × σ
  waitForReadyRead : σ → Bool × σ
  errorString : σ → QString

/-- A device never gives or takes more than it is asked for, and after finitely many empty attempts it makes
progress or reports an error. -/
structure Contract {σ : Type} (device : QIODevice σ) : Prop where
  read_le : ∀ {m s chunk s'}, device.read m s = (some chunk, s') → chunk.length ≤ m
  write_le : ∀ {chunk s r s'}, device.write chunk s = (some r, s') → r ≤ chunk.length
  read_again : ∀ {m} s, 0 < m → Acc (fun s' s => ∃ middle, device.read m s = (some [], middle) ∧
    device.waitForReadyRead middle = (true, s')) s
  write_again : ∀ {chunk} s, chunk ≠ [] → Acc (fun s' s => device.write chunk s = (some 0, s')) s

/-- The arithmetic of `qint64` and of `quint32`. -/
def qint64 (n : Int) : Int := n.bmod (2 ^ 64)

def quint32 (n : Int) : Nat := (n % 2 ^ 32).toNat

/-- Why a transfer ends early. -/
inductive Failure where
  | device
  | wait
deriving DecidableEq

/-- A transfer that goes on: the counter, the memory at `data`, what the device has given or taken, and the
device. -/
structure Transfer (σ : Type) where
  cnt : Int
  data : QByteArray
  moved : QByteArray
  state : σ

/-- A transfer that has ended: what is returned, and the error that is set. -/
structure Ended (σ : Type) where
  transfer : Transfer σ
  failure : Option Failure
  error : Option Error

/-- The value that is returned. -/
def Ended.result {σ : Type} (e : Ended σ) : Bool := e.failure.isNone

variable {σ : Type} (device : QIODevice σ)

/-- `setError` with one of the texts of the stream. -/
def fail (text : String) (size : Int) (t : Transfer σ) (failure : Failure) : Ended σ :=
  ⟨t, some failure, some (.ofMessage (QString.arg (QString.arg (QString.arg text.toList
    (QString.number t.cnt)) (QString.number size)) (device.errorString t.state))
    ErrorCode.errorUnknown.code)⟩

/-- A turn of the loop in `read`. -/
def readTurn (size : Int) (t : Transfer σ) : Transfer σ ⊕ Ended σ :=
  if t.cnt < size then
    let m := min (qint64 (size - t.cnt)) 1024
    match device.read m.toNat t.state with
    | (none, state) =>
      .inr (fail device "Failed to read after %1 of %2 bytes (%3)." size { t with state } .device)
    | (some chunk, state) =>
      let filled := { t with
        data := overwrite t.data t.cnt.toNat chunk, moved := t.moved ++ chunk, state }
      if chunk.length = 0 ∧ 0 < size then
        match device.waitForReadyRead state with
        | (false, state) =>
          .inr (fail device "Timeout when reading after %1 of %2 bytes (%3)." size { filled with state } .wait)
        | (true, state) => .inl { filled with state, cnt := qint64 (t.cnt + chunk.length) }
      else .inl { filled with cnt := qint64 (t.cnt + chunk.length) }
  else .inr ⟨t, none, none⟩

/-- `Server::DataStream::read`, in `fuel` turns. -/
def read (fuel : Nat) (size : Int) (data : QByteArray) (state : σ) : Option (Ended σ) :=
  run (readTurn device size) fuel ⟨0, data, [], state⟩

/-- A turn of the loop in `write`, whose counter is a `quint32`. -/
def writeTurn (len : Int) (t : Transfer σ) : Transfer σ ⊕ Ended σ :=
  if t.cnt < len then
    let x := min 1024 (qint64 (len - t.cnt))
    match device.write ((t.data.drop t.cnt.toNat).take x.toNat) t.state with
    | (none, state) =>
      .inr (fail device "Failed to write string after %1 of %2 bytes (%3)." len { t with state } .device)
    | (some r, state) =>
      .inl { t with
        cnt := quint32 (t.cnt + r)
        moved := t.moved ++ (t.data.drop t.cnt.toNat).take r
        state }
  else .inr ⟨t, none, none⟩

/-- `Server::DataStream::write`, in `fuel` turns. -/
def write (fuel : Nat) (len : Int) (data : QByteArray) (state : σ) : Option (Ended σ) :=
  run (writeTurn device len) fuel ⟨0, data, [], state⟩

/-! ### Counters -/

theorem qint64_of_lt {n : Int} (hn : 0 ≤ n) (h : n < 2 ^ 31) : qint64 n = n := by
  unfold qint64
  rw [Int.bmod_eq_of_le (by omega) (by omega)]

theorem quint32_of_lt {n : Int} (hn : 0 ≤ n) (h : n < 2 ^ 31) : (quint32 n : Int) = n := by
  unfold quint32
  rw [Int.emod_eq_of_lt hn (by omega), Int.toNat_of_nonneg hn]

/-! ### Reading -/

section Read

variable {device} {size : Int} {data : QByteArray}

/-- What holds when a turn of `read` begins: the counter counts what the device has given, and that is at the
beginning of the memory. -/
structure Filling (size : Int) (data : QByteArray) (t : Transfer σ) : Prop where
  cnt_eq : t.cnt = t.moved.length
  cnt_le : t.cnt ≤ size
  data_eq : t.data = t.moved ++ data.drop t.moved.length

/-- What `read` ends with. -/
structure Filled (device : QIODevice σ) (size : Int) (data : QByteArray) (e : Ended σ) : Prop where
  filling : Filling size data e.transfer
  ok_iff : e.result = true ↔ e.transfer.cnt = size
  error_iff : e.result = true ↔ e.error = none
  device_failed : e.failure = some .device → ∃ m s, device.read m s = (none, e.transfer.state)
  wait_failed : e.failure = some .wait → ∃ s, device.waitForReadyRead s = (false, e.transfer.state)

theorem Filling.chunk {t : Transfer σ} (h : Filling size data t) (hSize : size < 2 ^ 31)
    {chunk : QByteArray} (hChunk : (chunk.length : Int) ≤ size - t.cnt) (state : σ) :
    Filling size data { t with
      data := overwrite t.data t.cnt.toNat chunk
      moved := t.moved ++ chunk
      state
      cnt := qint64 (t.cnt + chunk.length) } := by
  have hCnt := h.cnt_eq
  have hNext : qint64 (t.cnt + chunk.length) = t.cnt + chunk.length := qint64_of_lt (by omega) (by omega)
  refine ⟨?_, ?_, ?_⟩
  · simp only [hNext, List.length_append]
    omega
  · simp only [hNext]
    omega
  · have hNat : t.cnt.toNat = t.moved.length := by omega
    simp only [hNat, h.data_eq, overwrite_append]

/-- The number of bytes that a turn of `read` asks for. -/
def readMost (size : Int) (t : Transfer σ) : Nat := (min (qint64 (size - t.cnt)) 1024).toNat

theorem Filling.readMost_eq {t : Transfer σ} (h : Filling size data t) (hSize : size < 2 ^ 31) :
    (readMost size t : Int) = min (size - t.cnt) 1024 := by
  have hCnt := h.cnt_eq
  have hLe := h.cnt_le
  rw [readMost, qint64_of_lt (by omega) (by omega)]
  omega

/-- `read` goes on after a chunk, and after an empty one if the device is ready again. -/
theorem readTurn_inl {t t' : Transfer σ} (hTurn : readTurn device size t = .inl t') :
    t.cnt < size ∧ ∃ chunk middle,
      device.read (readMost size t) t.state = (some chunk, middle) ∧
      (chunk.length = 0 → 0 < size → device.waitForReadyRead middle = (true, t'.state)) ∧
      t' = { t with
        data := overwrite t.data t.cnt.toNat chunk
        moved := t.moved ++ chunk
        state := t'.state
        cnt := qint64 (t.cnt + chunk.length) } := by
  unfold readTurn at hTurn
  split at hTurn
  case isFalse => cases hTurn
  case isTrue hLess =>
    refine ⟨hLess, ?_⟩
    dsimp only at hTurn
    split at hTurn
    case h_1 => cases hTurn
    case h_2 chunk middle hRead =>
      split at hTurn
      case isFalse hNonempty =>
        cases hTurn
        exact ⟨chunk, middle, hRead, fun hEmpty hSize => absurd ⟨hEmpty, hSize⟩ hNonempty, rfl⟩
      case isTrue =>
        split at hTurn
        case h_1 => cases hTurn
        case h_2 hWait =>
          cases hTurn
          exact ⟨chunk, middle, hRead, fun _ _ => hWait, rfl⟩

theorem Filling.chunk_le {t : Transfer σ} (h : Filling size data t) (hSize : size < 2 ^ 31)
    (hDevice : Contract device) {chunk : QByteArray} {middle : σ}
    (hRead : device.read (readMost size t) t.state = (some chunk, middle)) :
    (chunk.length : Int) ≤ size - t.cnt := by
  have hLe := hDevice.read_le hRead
  have hMost := h.readMost_eq hSize
  omega

theorem Filling.readTurn {t t' : Transfer σ} (h : Filling size data t) (hSize : size < 2 ^ 31)
    (hDevice : Contract device) (hTurn : readTurn device size t = .inl t') : Filling size data t' := by
  obtain ⟨-, chunk, middle, hRead, -, hNext⟩ := readTurn_inl hTurn
  rw [hNext]
  exact h.chunk hSize (h.chunk_le hSize hDevice hRead) t'.state

/-- `read` ends with all the bytes, or where the device fails to give some. -/
theorem Filling.filled {t : Transfer σ} {e : Ended σ} (h : Filling size data t)
    (hTurn : ServerDataStream.readTurn device size t = .inr e) :
    Filled device size data e := by
  have hLe := h.cnt_le
  unfold ServerDataStream.readTurn at hTurn
  split at hTurn
  case isFalse hDone =>
    cases hTurn
    refine ⟨h, ?_, ?_, nofun, nofun⟩
    · simp [Ended.result]
      omega
    · simp [Ended.result]
  case isTrue hLess =>
    dsimp only at hTurn
    split at hTurn
    case h_1 state hRead =>
      cases hTurn
      refine ⟨⟨h.cnt_eq, h.cnt_le, h.data_eq⟩, ?_, ?_, fun _ => ⟨_, _, hRead⟩, nofun⟩
      · simpa [Ended.result, fail] using hLess.ne
      · simp [Ended.result, fail]
    case h_2 chunk middle hRead =>
      split at hTurn
      case isFalse => cases hTurn
      case isTrue hEmpty =>
        split at hTurn
        case h_2 => cases hTurn
        case h_1 state hWait =>
          cases hTurn
          obtain rfl := List.length_eq_zero_iff.mp hEmpty.1
          refine ⟨⟨?_, h.cnt_le, ?_⟩, ?_, ?_, nofun, fun _ => ⟨_, hWait⟩⟩
          · simpa [fail] using h.cnt_eq
          · simpa [fail, overwrite] using h.data_eq
          · simpa [Ended.result, fail] using hLess.ne
          · simp [Ended.result, fail]

/-- An empty attempt of `read`, after which the device is said to be ready. -/
def ReadIdle (device : QIODevice σ) (size : Int) (t' t : Transfer σ) : Prop :=
  0 < readMost size t ∧ t'.cnt = t.cnt ∧
    ∃ middle, device.read (readMost size t) t.state = (some [], middle) ∧
      device.waitForReadyRead middle = (true, t'.state)

theorem acc_readIdle (hDevice : Contract device) (t : Transfer σ) : Acc (ReadIdle device size) t := by
  by_cases hMore : 0 < readMost size t
  case neg => exact .intro t fun t' hIdle => absurd hIdle.1 hMore
  have hAgain := hDevice.read_again t.state hMore
  -- An empty attempt leaves the counter alone, so the next one asks for as many bytes.
  generalize hMost : readMost size t = m at hAgain
  generalize hState : t.state = s at hAgain
  induction hAgain generalizing t with
  | intro s _ ih =>
    refine .intro t fun t' ⟨_, hCnt, middle, hRead, hWait⟩ => ?_
    have hMost' : readMost size t' = readMost size t := by rw [readMost, readMost, hCnt]
    refine ih t'.state ⟨middle, ?_, hWait⟩ t' (hMost' ▸ hMore) (hMost'.trans hMost) rfl
    rwa [hMost, hState] at hRead

/-- A turn of `read` that goes on has moved the counter, or was an empty attempt. -/
theorem Filling.progress {t t' : Transfer σ} (h : Filling size data t) (hSize : size < 2 ^ 31)
    (hDevice : Contract device) (hTurn : ServerDataStream.readTurn device size t = .inl t') :
    (size - t'.cnt).toNat < (size - t.cnt).toNat ∨
      (size - t'.cnt).toNat = (size - t.cnt).toNat ∧ ReadIdle device size t' t := by
  have hCnt := h.cnt_eq
  have hLe' := (h.readTurn hSize hDevice hTurn).cnt_le
  obtain ⟨hLess, chunk, middle, hRead, hWait, hNext⟩ := readTurn_inl hTurn
  have hChunk := h.chunk_le hSize hDevice hRead
  have hCnt' : t'.cnt = t.cnt + chunk.length := by
    rw [hNext]
    exact qint64_of_lt (by omega) (by omega)
  by_cases hEmpty : chunk.length = 0
  · have hSame : t'.cnt = t.cnt := by omega
    obtain rfl := List.length_eq_zero_iff.mp hEmpty
    have hMost := h.readMost_eq hSize
    exact .inr ⟨by rw [hSame], by omega, hSame, middle, hRead, hWait rfl (by omega)⟩
  · exact .inl (by omega)

theorem filling_start (hSize : 0 ≤ size) (state : σ) : Filling size data ⟨0, data, [], state⟩ :=
  ⟨rfl, hSize, rfl⟩

/-- `read` ends, and ends with all the bytes or where the device fails. -/
theorem exists_read (hDevice : Contract device) (h0 : 0 ≤ size) (hSize : size < 2 ^ 31) (state : σ) :
    ∃ n e, Filled device size data e ∧ ∀ fuel, n ≤ fuel → read device fuel size data state = some e := by
  have hStart : Filling size data ⟨0, data, [], state⟩ := filling_start h0 state
  have hAcc := acc_of_progress (fun h hTurn => ⟨h.readTurn hSize hDevice hTurn, h.progress hSize hDevice hTurn⟩)
    (acc_readIdle hDevice) hStart
  obtain ⟨n, e, hRun⟩ := exists_run hAcc
  exact ⟨n, e, of_run (fun h => h.readTurn hSize hDevice) (fun h => h.filled) hStart (hRun n le_rfl), hRun⟩

end Read

/-! ### Writing -/

section Write

variable {device} {len : Int} {data : QByteArray}

/-- What holds when a turn of `write` begins: the device has taken the beginning of the memory. -/
structure Draining (len : Int) (data : QByteArray) (t : Transfer σ) : Prop where
  cnt_eq : t.cnt = t.moved.length
  cnt_le : t.cnt ≤ len
  data_eq : t.data = data
  moved_eq : t.moved = data.take t.moved.length

/-- What `write` ends with. -/
structure Drained (device : QIODevice σ) (len : Int) (data : QByteArray) (e : Ended σ) : Prop where
  draining : Draining len data e.transfer
  ok_iff : e.result = true ↔ e.transfer.cnt = len
  error_iff : e.result = true ↔ e.error = none
  failed : e.result = false → ∃ chunk s, device.write chunk s = (none, e.transfer.state)

/-- The bytes that a turn of `write` offers. -/
def offered (len : Int) (t : Transfer σ) : QByteArray :=
  (t.data.drop t.cnt.toNat).take (min 1024 (qint64 (len - t.cnt))).toNat

theorem Draining.offered_le {t : Transfer σ} (h : Draining len data t) (hLen : len < 2 ^ 31) :
    ((offered len t).length : Int) ≤ len - t.cnt := by
  have hCnt := h.cnt_eq
  have hLe := h.cnt_le
  rw [offered, qint64_of_lt (by omega) (by omega), List.length_take]
  omega

/-- `write` goes on after the device has taken some of the bytes, or none. -/
theorem writeTurn_inl {t t' : Transfer σ} (hTurn : writeTurn device len t = .inl t') :
    t.cnt < len ∧ ∃ r, device.write (offered len t) t.state = (some r, t'.state) ∧
      t' = { t with
        cnt := quint32 (t.cnt + r)
        moved := t.moved ++ (t.data.drop t.cnt.toNat).take r
        state := t'.state } := by
  unfold writeTurn at hTurn
  split at hTurn
  case isFalse => cases hTurn
  case isTrue hLess =>
    dsimp only at hTurn
    split at hTurn
    case h_1 => cases hTurn
    case h_2 r state hWrite =>
      cases hTurn
      exact ⟨hLess, r, hWrite, rfl⟩

theorem Draining.writeTurn {t t' : Transfer σ} (h : Draining len data t) (hLen : len < 2 ^ 31)
    (hDevice : Contract device) (hTurn : writeTurn device len t = .inl t') : Draining len data t' := by
  obtain ⟨hLess, r, hWrite, hNext⟩ := writeTurn_inl hTurn
  have hCnt := h.cnt_eq
  have hTaken := hDevice.write_le hWrite
  have hOffered := h.offered_le hLen
  have hCnt' : (quint32 (t.cnt + r) : Int) = t.cnt + r := quint32_of_lt (by omega) (by omega)
  have hNat : t.cnt.toNat = t.moved.length := by omega
  have hLength : ((t.data.drop t.cnt.toNat).take r).length = r := by
    refine List.length_take_of_le (hTaken.trans ?_)
    rw [offered, List.length_take]
    exact Nat.min_le_right _ _
  rw [hNext]
  refine ⟨?_, ?_, h.data_eq, ?_⟩
  · simp only [hCnt', List.length_append, hLength]
    omega
  · simp only [hCnt']
    omega
  · simp only [List.length_append, hLength, List.take_add]
    rw [← h.moved_eq, hNat, h.data_eq]

/-- `write` ends with all the bytes, or where the device fails to take some. -/
theorem Draining.drained {t : Transfer σ} {e : Ended σ} (h : Draining len data t)
    (hTurn : ServerDataStream.writeTurn device len t = .inr e) : Drained device len data e := by
  have hLe := h.cnt_le
  unfold ServerDataStream.writeTurn at hTurn
  split at hTurn
  case isFalse hDone =>
    cases hTurn
    refine ⟨h, ?_, ?_, nofun⟩
    · simp [Ended.result]
      omega
    · simp [Ended.result]
  case isTrue hLess =>
    dsimp only at hTurn
    split at hTurn
    case h_2 => cases hTurn
    case h_1 state hWrite =>
      cases hTurn
      refine ⟨⟨h.cnt_eq, h.cnt_le, h.data_eq, h.moved_eq⟩, ?_, ?_, fun _ => ⟨_, _, hWrite⟩⟩
      · simpa [Ended.result, fail] using hLess.ne
      · simp [Ended.result, fail]

/-- An empty attempt of `write`. -/
def WriteIdle (device : QIODevice σ) (len : Int) (t' t : Transfer σ) : Prop :=
  offered len t ≠ [] ∧ t'.cnt = t.cnt ∧ t'.data = t.data ∧
    device.write (offered len t) t.state = (some 0, t'.state)

theorem acc_writeIdle (hDevice : Contract device) (t : Transfer σ) : Acc (WriteIdle device len) t := by
  by_cases hMore : offered len t = []
  case pos => exact .intro t fun t' hIdle => absurd hMore hIdle.1
  have hAgain := hDevice.write_again t.state hMore
  generalize hChunk : offered len t = chunk at hAgain
  generalize hState : t.state = s at hAgain
  induction hAgain generalizing t with
  | intro s _ ih =>
    refine .intro t fun t' ⟨_, hCnt, hData, hWrite⟩ => ?_
    have hChunk' : offered len t' = offered len t := by rw [offered, offered, hCnt, hData]
    refine ih t'.state ?_ t' (hChunk' ▸ hMore) (hChunk'.trans hChunk) rfl
    rwa [hChunk, hState] at hWrite

/-- A turn of `write` that goes on has moved the counter, or was an empty attempt. -/
theorem Draining.progress {t t' : Transfer σ} (h : Draining len data t) (hLen : len < 2 ^ 31)
    (hData : len ≤ data.length) (hDevice : Contract device)
    (hTurn : ServerDataStream.writeTurn device len t = .inl t') :
    (len - t'.cnt).toNat < (len - t.cnt).toNat ∨
      (len - t'.cnt).toNat = (len - t.cnt).toNat ∧ WriteIdle device len t' t := by
  have hCnt := h.cnt_eq
  obtain ⟨hLess, r, hWrite, hNext⟩ := writeTurn_inl hTurn
  have hTaken := hDevice.write_le hWrite
  have hOffered := h.offered_le hLen
  have hCnt' : t'.cnt = t.cnt + r := by
    rw [hNext]
    exact quint32_of_lt (by omega) (by omega)
  by_cases hEmpty : r = 0
  · subst hEmpty
    have hSame : t'.cnt = t.cnt := by omega
    have hMore : (offered len t).length ≠ 0 := by
      rw [offered, qint64_of_lt (by omega) (by omega), List.length_take, List.length_drop, h.data_eq]
      omega
    exact .inr ⟨by rw [hSame], mt List.length_eq_zero_iff.mpr hMore, hSame, by rw [hNext], hWrite⟩
  · exact .inl (by omega)

theorem draining_start (hLen : 0 ≤ len) (state : σ) : Draining len data ⟨0, data, [], state⟩ :=
  ⟨rfl, hLen, rfl, rfl⟩

/-- `write` ends, and ends with all the bytes or where the device fails. -/
theorem exists_write (hDevice : Contract device) (h0 : 0 ≤ len) (hLen : len < 2 ^ 31)
    (hData : len ≤ data.length) (state : σ) : ∃ n e, Drained device len data e ∧ ∀ fuel, n ≤ fuel → write device fuel len data state = some e := by
  have hStart : Draining len data ⟨0, data, [], state⟩ := draining_start h0 state
  have hAcc := acc_of_progress
    (fun h hTurn => ⟨h.writeTurn hLen hDevice hTurn, h.progress hLen hData hDevice hTurn⟩)
    (acc_writeIdle hDevice) hStart
  obtain ⟨n, e, hRun⟩ := exists_run hAcc
  exact ⟨n, e, of_run (fun h => h.writeTurn hLen hDevice) (fun h => h.drained) hStart (hRun n le_rfl), hRun⟩

end Write

/-! ### Transfers -/

section Example

/-- A device that moves two bytes at most, and only every other time. -/
structure Slow where
  ready : Bool
  incoming : QByteArray
  taken : QByteArray

def slow : QIODevice Slow where
  read m s :=
    if !s.ready then (some [], s)
    else if s.incoming = [] then (none, s)
    else (some (s.incoming.take (min m 2)), ⟨false, s.incoming.drop (min m 2), s.taken⟩)
  write chunk s :=
    if !s.ready then (some 0, ⟨true, s.incoming, s.taken⟩)
    else (some (min 2 chunk.length), ⟨false, s.incoming, s.taken ++ chunk.take 2⟩)
  waitForReadyRead s := (true, ⟨true, s.incoming, s.taken⟩)
  errorString _ := "Unknown error".toList

theorem slow_contract : Contract slow where
  read_le {m s chunk s'} h := by
    simp only [slow] at h
    split at h
    · cases h
      exact Nat.zero_le m
    · split at h <;> cases h
      exact (List.length_take_le _ _).trans (Nat.min_le_left _ _)
  write_le {chunk s r s'} h := by
    simp only [slow] at h
    split at h <;> cases h
    · exact Nat.zero_le _
    · exact Nat.min_le_right _ _
  read_again {m} s hMore := by
    have hReady : ∀ s : Slow, s.ready = true → Acc (fun s' s => ∃ middle, slow.read m s = (some [], middle) ∧
        slow.waitForReadyRead middle = (true, s')) s := by
      refine fun s hReady => .intro s fun s' ⟨middle, hRead, _⟩ => ?_
      simp only [slow, hReady, Bool.not_true, Bool.false_eq_true, if_false] at hRead
      split at hRead
      case isTrue => cases hRead
      case isFalse hIncoming =>
        simp [hIncoming] at hRead
        omega
    refine .intro s fun s' ⟨middle, _, hWait⟩ => hReady s' ?_
    cases hWait
    rfl
  write_again {chunk} s hMore := by
    have hReady : ∀ s : Slow, s.ready = true → Acc (fun s' s => slow.write chunk s = (some 0, s')) s := by
      refine fun s hReady => .intro s fun s' (hWrite : slow.write chunk s = (some 0, s')) => ?_
      simp [slow, hReady, hMore] at hWrite
    refine .intro s fun s' (hWrite : slow.write chunk s = (some 0, s')) => hReady s' ?_
    simp only [slow] at hWrite
    split at hWrite
    · cases hWrite
      rfl
    · simp [hMore] at hWrite

example : (read slow 9 3 [1, 2, 3] ⟨false, [4, 5, 6, 7], []⟩).map (fun e => (e.result, e.transfer.data)) =
    some (true, [4, 5, 6]) := by decide

end Example

end ServerDataStream

end Server

end Soprano
