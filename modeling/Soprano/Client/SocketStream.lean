import Soprano.Library.Runs
import Soprano.Server.ServerCore

/-! `Socket`, whose error cache tells `SocketStream` whether a transfer failed, and is cleared only by the
thread that opens the socket again. -/

namespace Soprano.Client.SocketStream

open Server

/-- What a call of `::read` or `::write` returns: a number of bytes, at most as many as it is asked for; or an
error, with its text. -/
inductive SystemCall where
  | bytes (count : Nat)
  | interrupted
  | failed (strerror : QString)

inductive Direction where
  | read
  | write
deriving DecidableEq

/-- `LocalSocket`: the handle, and the last error of each thread. -/
structure Socket where
  handle : Int
  errors : ErrorCache

namespace Socket

def init (fd : Int) : Socket := ⟨fd, []⟩

/-- `setError( const QString& )` -/
def setError (s : Socket) (thread : Nat) (message : QString) : Socket :=
  { s with errors := s.errors.setError thread (.ofMessage message ErrorCode.errorUnknown.code) }

/-- The text of an error of the system. -/
def failure (direction : Direction) (handle : Int) (strerror : QString) : QString :=
  let text := match direction with
    | .read => "Failed to read from fd %1 (%2)".toList
    | .write => "Failed to write fd %1 (%2)".toList
  QString.arg (QString.arg text (QString.number handle)) strerror

/-- The text where nothing more is transferred. -/
def timeout (direction : Direction) (total size : Nat) : QString :=
  let text := match direction with
    | .read => "Timeout after reading %1 of %2 bytes".toList
    | .write => "Timeout after writing %1 of %2 bytes".toList
  QString.arg (QString.arg text (QString.number total)) (QString.number (total + size))

/-- The loop of `Socket::read` and of `Socket::write`, with what the system calls of the thread return, and
with `size` bytes left. -/
def transfer (direction : Direction) (thread : Nat) :
    (calls : List SystemCall) → (size total : Nat) → (s : Socket) → Option (Int × Socket)
  | _, 0, total, s => some (total, s)
  | [], _ + 1, _, _ => none
  | .interrupted :: calls, size, total, s => transfer direction thread calls size total s
  | .failed strerror :: _, _, _, s => some (-1, s.setError thread (failure direction s.handle strerror))
  | .bytes 0 :: _, size, total, s => some (total, s.setError thread (timeout direction total size))
  | .bytes (count + 1) :: calls, size, total, s =>
    if count + 1 ≤ size then transfer direction thread calls (size - (count + 1)) (total + (count + 1)) s
    else none

/-- `Socket::close` -/
def close (s : Socket) : Socket := if 0 ≤ s.handle then { s with handle := -1 } else s

/-- What the calls of `LocalSocket::open` come to: a handle or an error for the socket, the encoded path, and an
error for the connection. -/
structure OpenCalls where
  socket : Except QString Nat
  path : QString
  encodedName : QByteArray
  connect : Option QString

/-- `LocalSocket::open` -/
def «open» (s : Socket) (thread : Nat) (calls : OpenCalls) : Socket :=
  let s := { s with errors := s.errors.clearError thread }
  match calls.socket with
  | .error strerror =>
    { s with handle := -1 }.setError thread
      (QString.arg "Could not create socket (%1)".toList strerror)
  | .ok handle =>
    -- `sizeof(servAddr.sun_path)` is 108
    if 108 + 1 < calls.encodedName.length then
      { s with handle := -1 }.setError thread "Not enough space to store socket path.".toList
    else
      match calls.connect with
      | some strerror =>
        { s with handle := -1 }.setError thread
          (QString.arg (QString.arg "Could not connect to server at %1 (%2)".toList calls.path) strerror)
      | none => { s with handle := handle }

end Socket

/-- `SocketStream::read` and `SocketStream::write`, with the error that the stream is set to. -/
def stream (direction : Direction) (thread : Nat) (size : Int) (calls : List SystemCall) (s : Socket) :
    Option (Bool × Option Error × Socket) :=
  if size ≤ 0 then some (true, none, s)
  else do
    let (_, s) ← s.transfer direction thread calls size.toNat 0
    let err := s.errors.lastError thread
    if err.code ≠ 0 then some (false, some err, s) else some (true, none, s)

/-! ### Runs -/

inductive Action where
  | stream (direction : Direction) (thread : Nat) (size : Int) (calls : List SystemCall)
  | close
  | «open» (thread : Nat) (calls : Socket.OpenCalls)

def step (s : Socket) : Action → Option Socket
  | .stream direction thread size calls => (stream direction thread size calls s).map fun r => r.2.2
  | .close => some s.close
  | .open thread calls => some (s.open thread calls)

/-- A transfer of no bytes is reported as complete, and another one exactly if it transfers what it is asked
for. -/
def Reports (s : Socket) : Action → Prop
  | .stream direction thread size calls => ∀ complete err s',
      stream direction thread size calls s = some (complete, err, s') →
        if size ≤ 0 then complete = true
        else (complete = false ↔ ∀ total s'', s.transfer direction thread calls size.toNat 0 = some (total, s'') →
          total ≠ size)
  | _ => True

/-- A transfer that is complete finds no error of its thread. -/
def Fresh (s : Socket) : Action → Prop
  | .stream direction thread size calls => 0 < size →
      (∃ s', s.transfer direction thread calls size.toNat 0 = some (size, s')) →
        (s.errors.lastError thread).code = 0
  | _ => True

/-! ### What a transfer leaves in the cache -/

variable {direction : Direction} {thread : Nat} {s s' : Socket}

theorem lastError_setError {errors : ErrorCache} {e : Error} (h : e.code ≠ 0) :
    (errors.setError thread e).lastError thread = e := by
  rw [ErrorCache.setError, if_pos h, ErrorCache.lastError, QHash.lookup_insert, if_pos rfl]
  rfl

theorem code_setError (s : Socket) (message : QString) :
    ((s.setError thread message).errors.lastError thread).code ≠ 0 := by
  have hCode : (Error.ofMessage message ErrorCode.errorUnknown.code).code ≠ 0 := by
    change ErrorCode.errorUnknown.code ≠ 0
    decide
  rw [Socket.setError, lastError_setError hCode]
  exact hCode

/-- A transfer of all bytes leaves the cache as it is, and another one an error of its thread. -/
theorem transfer_spec {calls : List SystemCall} {size total : Nat} {result : Int}
    (h : s.transfer direction thread calls size total = some (result, s')) :
    result = total + size ∧ s'.errors = s.errors ∨
      result ≠ total + size ∧ (s'.errors.lastError thread).code ≠ 0 := by
  induction calls generalizing size total with
  | nil =>
    cases size with
    | zero =>
      cases h
      exact .inl ⟨by simp, rfl⟩
    | succ size => cases h
  | cons call calls ih =>
    cases size with
    | zero =>
      cases h
      exact .inl ⟨by simp, rfl⟩
    | succ size =>
      cases call with
      | interrupted => exact ih h
      | failed strerror =>
        cases h
        exact .inr ⟨by omega, code_setError s _⟩
      | bytes count =>
        cases count with
        | zero =>
          cases h
          exact .inr ⟨by omega, code_setError s _⟩
        | succ count =>
          simp only [Socket.transfer] at h
          split at h
          · next hCount =>
            have hRest := ih h
            have hSum : ((total + (count + 1) : Nat) : Int) + (size + 1 - (count + 1) : Nat) =
                total + (size + 1 : Nat) := by omega
            rw [hSum] at hRest
            exact hRest
          · cases h

/-- A stream reports its transfers as they are exactly where a complete one finds no error of its thread. -/
theorem reports_iff_fresh (s : Socket) (a : Action) : Reports s a ↔ Fresh s a := by
  cases a with
  | close => exact Iff.rfl
  | «open» thread calls => exact Iff.rfl
  | stream direction thread size calls =>
    rw [Reports, Fresh]
    by_cases hSize : size ≤ 0
    · refine iff_of_true (fun complete err s' h => ?_) fun hPos => absurd hPos (by omega)
      rw [stream, if_pos hSize] at h
      cases h
      rw [if_pos hSize]
    · simp only [stream, if_neg hSize]
      cases hTransfer : s.transfer direction thread calls size.toNat 0 with
      | none => exact iff_of_true nofun fun _ h => nomatch h
      | some r =>
        obtain ⟨total, t⟩ := r
        have hSpec := transfer_spec hTransfer
        have hNat : ((0 : Nat) : Int) + size.toNat = size := by omega
        rw [hNat] at hSpec
        simp only [Option.bind_eq_bind, Option.bind_some]
        rcases hSpec with ⟨hComplete, hErrors⟩ | ⟨hIncomplete, hCode⟩
        · rw [hErrors]
          by_cases hFresh : (s.errors.lastError thread).code = 0
          · refine iff_of_true (fun complete err s' h => ?_) fun _ _ => hFresh
            rw [if_neg (not_not_intro hFresh)] at h
            cases h
            exact iff_of_false (by simp) fun hNot => hNot total t rfl hComplete
          · refine iff_of_false (fun h => ?_) fun h => hFresh (h (by omega) ⟨t, by rw [hComplete]⟩)
            exact (h _ _ _ (if_pos hFresh)).mp rfl total t rfl hComplete
        · refine iff_of_true (fun complete err s' h => ?_) ?_
          · rw [if_pos hCode] at h
            cases h
            refine iff_of_true rfl fun total' t' hSame => ?_
            cases hSame
            exact hIncomplete
          · rintro - ⟨t', hSame⟩
            cases hSame
            exact absurd rfl hIncomplete

/-- Along a run all transfers are reported as they are exactly if each complete one is made by a thread that
has no error in the cache. -/
theorem transfer_reports_iff (fd : Int) (actions : List Action) :
    Runs.AllMeet step Reports (.init fd) actions ↔ Runs.AllMeet step Fresh (.init fd) actions := by
  have hSame : Reports = Fresh := funext fun s => funext fun a => propext (reports_iff_fresh s a)
  rw [hSame]

/-- A read that the connection ends in, a reconnect by another thread, and a read of all that it is asked for. -/
theorem not_reports : ¬ ∀ fd actions, Runs.AllMeet step Reports (.init fd) actions := by
  intro h
  obtain ⟨-, hFirst⟩ := h 3 [.stream .read 0 1 [.bytes 0], .open 1 ⟨.ok 4, [], [], none⟩,
    .stream .read 0 1 [.bytes 1]]
  obtain ⟨-, hSecond⟩ := hFirst _ rfl
  obtain ⟨hReports, -⟩ := hSecond _ rfl
  have hFalse := (hReports false _ _ rfl).mp rfl
  exact hFalse 1 _ rfl rfl

end Soprano.Client.SocketStream
