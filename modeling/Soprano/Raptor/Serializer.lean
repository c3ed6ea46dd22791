import Soprano.Library.Loop
import Soprano.Qt.Variant

/-! The handlers with which `Raptor::Serializer` takes the output of raptor, and their two sinks. -/

namespace Soprano

namespace Raptor

open Loop

/-- A `QTextStream` on a device, with the bytes that the device has got, or on a string. -/
inductive QTextStream where
  | device (written : QByteArray)
  | string (text : QString)
deriving DecidableEq

/-- The conversion of an `int` to a `char`. -/
def toChar (byte : Int) : UInt8 := (Int8.ofInt byte).toUInt8

/-- The conversion of a `char` to an `int`. -/
def charToInt (c : UInt8) : Int := c.toInt8.toInt

def raptorIOStreamWriteByte (s : QTextStream) (byte : Int) : QTextStream :=
  match s with
  | .device written => .device (written ++ [toChar byte])
  -- `operator<<( char )`
  | .string text => .string (text ++ QString.fromLatin1 [toChar byte])

/-- A turn of the loop over the bytes, whose counter is an `unsigned int`. -/
def writeTurn (p : QByteArray) : Nat × QTextStream → (Nat × QTextStream) ⊕ QTextStream
  | (i, s) =>
    match p[i]? with
    | some c => .inl ((i + 1) % 2 ^ 32, raptorIOStreamWriteByte s (charToInt c))
    | none => .inr s

/-- `raptorIOStreamWriteBytes`, with the loop in `fuel` turns. -/
def raptorIOStreamWriteBytes (fuel : Nat) (s : QTextStream) (size : Nat) (p : QByteArray) :
    Option (QTextStream × Int) :=
  if size = 1 then
    match s with
    | .device written => some (.device (written ++ p), 0)
    | .string text => (run (writeTurn p) fuel (0, .string text)).map (·, 0)
  else some (s, -1)

/-- A call of a handler. -/
inductive Call where
  | byte (value : Int)
  | bytes (size : Nat) (p : QByteArray)

/-- The stream after a call. -/
def Call.handle (fuel : Nat) (s : QTextStream) : Call → Option QTextStream
  | .byte value => some (raptorIOStreamWriteByte s value)
  | .bytes size p => (raptorIOStreamWriteBytes fuel s size p).map (·.1)

/-- The stream after the calls of a serialization. -/
def handleAll (fuel : Nat) (s : QTextStream) (calls : List Call) : Option QTextStream :=
  calls.foldlM (Call.handle fuel) s

/-- The bytes of a call. Items of another size than a byte are refused. -/
def Call.sent : Call → QByteArray
  | .byte value => [toChar value]
  | .bytes size p => if size = 1 then p else []

/-- The document that the calls make up. -/
def sent (calls : List Call) : QByteArray := calls.flatMap Call.sent

/-- The string gets the text that the bytes on the device decode to. -/
def SameDocument [Qt] (calls : List Call) : Prop :=
  ∃ n text bytes, (∀ fuel, n ≤ fuel → handleAll fuel (.string []) calls = some (.string text) ∧
    handleAll fuel (.device []) calls = some (.device bytes)) ∧ text = QString.fromUtf8 bytes

/-- The counter of the loop reaches the number of bytes. -/
def Call.Fits : Call → Prop
  | .byte _ => True
  | .bytes size p => size = 1 → p.length < 2 ^ 32

/-! ### The device -/

@[simp] theorem toChar_charToInt (c : UInt8) : toChar (charToInt c) = c := by
  simp [toChar, charToInt]

theorem Call.handle_device (fuel : Nat) (written : QByteArray) (call : Call) :
    call.handle fuel (.device written) = some (.device (written ++ call.sent)) := by
  cases call with
  | byte value => rfl
  | bytes size p =>
    by_cases hSize : size = 1
    · simp [handle, raptorIOStreamWriteBytes, sent, hSize]
    · simp [handle, raptorIOStreamWriteBytes, sent, hSize]

theorem handleAll_device (fuel : Nat) (written : QByteArray) (calls : List Call) :
    handleAll fuel (.device written) calls = some (.device (written ++ sent calls)) := by
  induction calls generalizing written with
  | nil => simp [handleAll, sent]
  | cons call calls ih =>
    have hRest := ih (written ++ call.sent)
    unfold handleAll at hRest ⊢
    rw [List.foldlM_cons, call.handle_device]
    simpa [sent] using hRest

/-! ### The string -/

theorem writeTurn_of_lt {p : QByteArray} {i : Nat} (h : i < p.length) (text : QString) :
    writeTurn p (i, .string text) =
      .inl ((i + 1) % 2 ^ 32, .string (text ++ QString.fromLatin1 [p[i]])) := by
  simp [writeTurn, raptorIOStreamWriteByte, h]

theorem writeTurn_end (p : QByteArray) (s : QTextStream) : writeTurn p (p.length, s) = .inr s := by
  simp [writeTurn]

theorem fromLatin1_append (a b : QByteArray) :
    QString.fromLatin1 (a ++ b) = QString.fromLatin1 a ++ QString.fromLatin1 b := List.map_append

/-- The loop makes a character of each byte. -/
theorem run_writeTurn {p : QByteArray} (hFits : p.length < 2 ^ 32) {fuel i : Nat} (h : i ≤ p.length)
    (hFuel : p.length < fuel + i) (text : QString) :
    run (writeTurn p) fuel (i, .string text) = some (.string (text ++ QString.fromLatin1 (p.drop i))) := by
  induction fuel generalizing i text with
  | zero => omega
  | succ fuel ih =>
    obtain hLess | rfl := Nat.lt_or_eq_of_le h
    · rw [run_of_inl (writeTurn_of_lt hLess text), Nat.mod_eq_of_lt (by omega), ih hLess (by omega),
        List.drop_eq_getElem_cons hLess, List.append_assoc, ← fromLatin1_append]
      rfl
    · rw [run_of_inr (writeTurn_end p _), List.drop_length]
      simp [QString.fromLatin1]

/-- A counter that wraps before it reaches the number of bytes never ends the loop. -/
theorem run_writeTurn_none {p : QByteArray} (hLong : 2 ^ 32 ≤ p.length) (fuel : Nat) (text : QString) :
    run (writeTurn p) fuel (0, .string text) = none := by
  have hTurn : ∀ it : Nat × QTextStream, (it.1 < 2 ^ 32 ∧ ∃ text, it.2 = .string text) →
      ∃ it', writeTurn p it = .inl it' ∧ it'.1 < 2 ^ 32 ∧ ∃ text, it'.2 = .string text := by
    rintro ⟨i, s⟩ ⟨hi, text, rfl⟩
    exact ⟨_, writeTurn_of_lt (Nat.lt_of_lt_of_le hi hLong) text, Nat.mod_lt _ (by decide), _, rfl⟩
  exact run_eq_none hTurn ⟨Nat.two_pow_pos 32, text, rfl⟩ fuel

theorem sent_cons (call : Call) (calls : List Call) : sent (call :: calls) = call.sent ++ sent calls :=
  List.flatMap_cons

theorem Call.handle_string {call : Call} (hFits : call.Fits) :
    ∃ n, ∀ fuel, n ≤ fuel → ∀ text, call.handle fuel (.string text) =
      some (.string (text ++ QString.fromLatin1 call.sent)) := by
  cases call with
  | byte value => exact ⟨0, fun _ _ _ => rfl⟩
  | bytes size p =>
    by_cases hSize : size = 1
    · refine ⟨p.length + 1, fun fuel hFuel text => ?_⟩
      simp [handle, raptorIOStreamWriteBytes, sent, hSize,
        run_writeTurn (hFits hSize) (Nat.zero_le _) (Nat.lt_of_succ_le hFuel) text]
    · refine ⟨0, fun fuel _ text => ?_⟩
      simp [handle, raptorIOStreamWriteBytes, sent, hSize, QString.fromLatin1]

/-- Calls whose loops end append a character for each byte. -/
theorem handleAll_string {calls : List Call} (hFits : ∀ call ∈ calls, call.Fits) :
    ∃ n, ∀ fuel, n ≤ fuel → ∀ text, handleAll fuel (.string text) calls =
      some (.string (text ++ QString.fromLatin1 (sent calls))) := by
  induction calls with
  | nil => exact ⟨0, fun _ _ text => by simp [handleAll, sent, QString.fromLatin1]⟩
  | cons call calls ih =>
    obtain ⟨n, hCall⟩ := Call.handle_string (hFits call List.mem_cons_self)
    obtain ⟨m, hRest⟩ := ih fun call hCall => hFits call (List.mem_cons_of_mem _ hCall)
    refine ⟨max n m, fun fuel hFuel text => ?_⟩
    rw [handleAll, List.foldlM_cons, hCall fuel (by omega) text, sent_cons, fromLatin1_append,
      ← List.append_assoc]
    exact hRest fuel (by omega) _

theorem isString_of_run {p : QByteArray} {fuel i : Nat} {text : QString} {s : QTextStream}
    (h : run (writeTurn p) fuel (i, .string text) = some s) : ∃ text', s = .string text' := by
  induction fuel generalizing i text with
  | zero => cases h
  | succ fuel ih =>
    by_cases hLess : i < p.length
    · rw [run_of_inl (writeTurn_of_lt hLess text)] at h
      exact ih h
    · have hEnd : writeTurn p (i, .string text) = .inr (.string text) := by
        simp [writeTurn, hLess]
      rw [run_of_inr hEnd] at h
      exact ⟨text, (Option.some.inj h).symm⟩

/-- A call whose loop ends leaves a string. -/
theorem Call.of_handle {call : Call} {fuel : Nat} {text : QString} {s : QTextStream}
    (h : call.handle fuel (.string text) = some s) : call.Fits ∧ ∃ text', s = .string text' := by
  cases call with
  | byte value =>
    cases h
    exact ⟨trivial, _, rfl⟩
  | bytes size p =>
    by_cases hSize : size = 1
    · simp only [handle, raptorIOStreamWriteBytes, if_pos hSize, Option.map_map] at h
      obtain ⟨s', hRun, rfl⟩ := Option.map_eq_some_iff.mp h
      refine ⟨fun _ => ?_, ?_⟩
      · by_contra hLong
        rw [run_writeTurn_none (Nat.le_of_not_lt hLong)] at hRun
        cases hRun
      · exact isString_of_run hRun
    · simp only [handle, raptorIOStreamWriteBytes, if_neg hSize] at h
      cases h
      exact ⟨fun h => absurd h hSize, text, rfl⟩

/-- A call whose loop never ends stops the serialization. -/
theorem fits_of_handleAll {calls : List Call} {fuel : Nat} {text : QString} {s : QTextStream}
    (h : handleAll fuel (.string text) calls = some s) : ∀ call ∈ calls, call.Fits := by
  induction calls generalizing text with
  | nil => nofun
  | cons call calls ih =>
    rw [handleAll, List.foldlM_cons] at h
    obtain ⟨s', hCall, hRest⟩ := Option.bind_eq_some_iff.mp h
    obtain ⟨hFits, text', rfl⟩ := Call.of_handle hCall
    exact List.forall_mem_cons.mpr ⟨hFits, ih hRest⟩

/-! ### The two documents -/

theorem utf8Size_eq_one {c : Char} : c.utf8Size = 1 ↔ c.toNat < 128 := by
  rw [Char.utf8Size_eq_one_iff, UInt32.le_iff_toNat_le, Nat.lt_succ_iff]
  rfl

theorem length_toUtf8_cons (c : Char) (doc : QString) :
    (QString.toUtf8 (c :: doc)).length = c.utf8Size + (QString.toUtf8 doc).length := by
  simp [QString.toUtf8]

theorem length_le_toUtf8 (doc : QString) : doc.length ≤ (QString.toUtf8 doc).length := by
  induction doc with
  | nil => exact Nat.zero_le _
  | cons c doc ih =>
    have hSize := c.utf8Size_pos
    rw [length_toUtf8_cons, List.length_cons]
    omega

/-- A text without more bytes than characters is ASCII. -/
theorem ascii_of_length {doc : QString} (h : (QString.toUtf8 doc).length ≤ doc.length) :
    ∀ c ∈ doc, c.toNat < 128 := by
  induction doc with
  | nil => nofun
  | cons c doc ih =>
    have hSize := c.utf8Size_pos
    have hLength := length_le_toUtf8 doc
    rw [length_toUtf8_cons, List.length_cons] at h
    exact List.forall_mem_cons.mpr ⟨utf8Size_eq_one.mp (by omega), ih (by omega)⟩

/-- A character for each byte makes up the text exactly if it is ASCII. -/
theorem fromLatin1_toUtf8 {doc : QString} :
    QString.fromLatin1 (QString.toUtf8 doc) = doc ↔ ∀ c ∈ doc, c.toNat < 128 := by
  constructor
  · intro h
    refine ascii_of_length ?_
    have hLength := congrArg List.length h
    rw [QString.fromLatin1, List.length_map] at hLength
    exact hLength.le
  · intro hAscii
    induction doc with
    | nil => rfl
    | cons c doc ih =>
      obtain ⟨hc, hDoc⟩ := List.forall_mem_cons.mp hAscii
      have hByte : QString.fromLatin1 (String.utf8EncodeChar c) = [c] := by
        have hLatin1 : c.toNat < 256 := by omega
        have hBack : QString.fromLatin1 (QString.toLatin1 [c]) = [c] :=
          QString.fromLatin1_toLatin1 (by simpa using hLatin1)
        rw [String.utf8EncodeChar_eq_singleton (utf8Size_eq_one.mpr hc)]
        rwa [QString.toLatin1, List.map_singleton, if_pos hLatin1] at hBack
      rw [QString.toUtf8, List.flatMap_cons, fromLatin1_append, hByte]
      exact congrArg (c :: ·) (ih hDoc)

/-- The sinks get the same document exactly if it is ASCII and all the loops end. -/
theorem sameDocument_iff [Qt] (calls : List Call) (doc : QString) (hDoc : sent calls = doc.toUtf8) :
    SameDocument calls ↔ (∀ c ∈ doc, c.toNat < 128) ∧ ∀ call ∈ calls, call.Fits := by
  rw [← fromLatin1_toUtf8]
  constructor
  · rintro ⟨n, text, bytes, hSinks, rfl⟩
    have hFits := fits_of_handleAll (hSinks n le_rfl).1
    obtain ⟨m, hText⟩ := handleAll_string hFits
    obtain ⟨hString, hDevice⟩ := hSinks (max n m) (le_max_left n m)
    rw [handleAll_device, hDoc] at hDevice
    rw [hText _ (le_max_right n m), hDoc] at hString
    cases hDevice
    refine ⟨?_, hFits⟩
    simpa using hString
  · rintro ⟨hAscii, hFits⟩
    obtain ⟨n, hString⟩ := handleAll_string hFits
    refine ⟨n, doc, doc.toUtf8, fun fuel hFuel => ⟨?_, ?_⟩, (QString.fromUtf8_toUtf8 doc).symm⟩
    · rw [hString fuel hFuel, hDoc, hAscii]
      rfl
    · rw [handleAll_device, hDoc]
      rfl

section Example

local instance serializerQt : Qt := asciiQt

theorem sameDocument_ascii : SameDocument [.byte 60, .bytes 1 [114, 100], .bytes 2 [0, 102], .bytes 1 [102]] ↔
    (∀ c ∈ (['<', 'r', 'd', 'f'] : QString), c.toNat < 128) ∧
      ∀ call ∈ [Call.byte 60, .bytes 1 [114, 100], .bytes 2 [0, 102], .bytes 1 [102]], call.Fits :=
  sameDocument_iff _ ['<', 'r', 'd', 'f'] (by decide)

/-- The two bytes of a letter, in two calls, become two characters of the string. -/
theorem not_sameDocument : ¬ ∀ (calls : List Call) (doc : QString), sent calls = doc.toUtf8 →
    SameDocument calls := by
  intro h
  obtain ⟨n, text, bytes, hSinks, hText⟩ := h [.byte 0xc3, .bytes 1 [0xa9]] ['é'] (by decide)
  have hFits : ∀ call ∈ [Call.byte 0xc3, .bytes 1 [0xa9]], call.Fits := by
    simp [Call.Fits]
  obtain ⟨m, hCharacters⟩ := handleAll_string hFits
  obtain ⟨hString, hDevice⟩ := hSinks (max n m) (le_max_left n m)
  rw [hCharacters _ (le_max_right n m)] at hString
  rw [handleAll_device] at hDevice
  cases hString
  cases hDevice
  exact absurd (hText.trans (QString.fromUtf8_toUtf8 ['é'])) (by decide)

end Example

end Raptor

end Soprano
