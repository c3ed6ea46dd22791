import Soprano.Library.Memory
import Soprano.Virtuoso.Odbc

/-! `QueryResult::getCharData`: the data of a column, in one call of `SQLGetData` or two. -/

namespace Soprano

namespace ODBC

namespace CharData

open Memory Virtuoso

/-- What a call of `SQLGetData` answers: how many bytes it has written, and the indicator. -/
inductive Reply where
  | error (records : Diagnostics)
  | data (part : Nat) (indicator : Int)
deriving DecidableEq

/-- The driver, by the bytes that are left of the value and the size of the buffer. -/
structure Driver where
  SQLGetData : (rest : QByteArray) → (bufferLength : Int) → Reply

/-- `SQL_NULL_DATA` -/
def nullData : Int := -1

/-- `SQL_NO_TOTAL` -/
def noTotal : Int := -4

/-- A call writes a part that fits in front of the terminator, and tells how much was left or not. -/
structure Contract (driver : Driver) : Prop where
  part_le : ∀ {rest size part indicator}, driver.SQLGetData rest size = .data part indicator →
    (part : Int) ≤ size - 1 ∧ part ≤ rest.length
  part_pos : ∀ {rest size part indicator}, driver.SQLGetData rest size = .data part indicator →
    rest ≠ [] → 2 ≤ size → 0 < part
  indicator_eq : ∀ {rest size part indicator}, driver.SQLGetData rest size = .data part indicator →
    indicator = rest.length ∨ indicator = noTotal

/-- What `getCharData` returns, and the buffer and the length that it leaves behind. -/
structure Result where
  ok : Bool
  buffer : Option QByteArray
  length : Int
  lastError : Error

def bufSize : Nat := 100

/-- The arithmetic of `int`. -/
def toInt (n : Int) : Int := n.bmod (2 ^ 32)

def failed (records : Diagnostics) : Result :=
  ⟨false, none, 0, convertSqlError records "SQLGetData failed".toList⟩

/-- `new SQLCHAR[ size ]`, with what was in the memory before. -/
def allocate (memory : Nat → Nat → UInt8) (size : Nat) : QByteArray := (List.range size).map (memory size)

/-- `QueryResult::getCharData` for a value. -/
def getCharData (driver : Driver) (memory : Nat → Nat → UInt8) (value : QByteArray) : Result :=
  match driver.SQLGetData value bufSize with
  | .error records => failed records
  | .data part length =>
    let buffer := overwrite (allocate memory bufSize) 0 (value.take part ++ [0])
    -- Treat a 0 length and null data as an empty node
    if length = nullData ∨ length = 0 then ⟨true, none, 0, .none⟩
    else if length > bufSize - 1 then
      let rest := value.drop part
      let newBuffer := overwrite (allocate memory (length.toNat + 4)) 0 (buffer.take bufSize)
      let len := toInt (length - (bufSize - 1) + 1)
      match driver.SQLGetData rest len with
      | .error records => failed records
      | .data part length =>
        ⟨true, some (overwrite newBuffer (bufSize - 1) (rest.take part ++ [0])), length, .none⟩
    else ⟨true, some buffer, length, .none⟩

/-- A terminated value at the beginning of a buffer. No buffer stands for no bytes. -/
def Holds (value : QByteArray) : Option QByteArray → Prop
  | none => value = []
  | some buffer => value ++ [0] <+: buffer

/-- The text that `getData` makes of an IRI ID: `QString::fromLatin1` with the length. -/
def idText (result : Result) : QString :=
  match result.buffer with
  | none => []
  | some buffer =>
    if result.length < 0 then QString.fromLatin1 (buffer.takeWhile (· ≠ 0))
    else QString.fromLatin1 (buffer.take result.length.toNat)

/-- The whole value is read, whatever was in the memory before. -/
def ReadsWhole (driver : Driver) (value : QByteArray) : Prop :=
  ∀ memory, (getCharData driver memory value).ok = true ∧
    Holds value (getCharData driver memory value).buffer ∧
    (getCharData driver memory value).length = value.length ∧
    idText (getCharData driver memory value) = QString.fromLatin1 value

section Spec

variable {driver : Driver} {memory : Nat → Nat → UInt8} {value : QByteArray} {part : Nat} {indicator : Int}

theorem holds_first (memory : Nat → Nat → UInt8) (value : QByteArray) :
    Holds value (some (overwrite (allocate memory bufSize) 0 (value.take value.length ++ [0]))) := by
  rw [overwrite_zero, List.take_length]
  exact List.prefix_append _ _

/-- A part of the value is not followed by the rest in memory that holds no terminator. -/
theorem not_holds_first (hPart : part < value.length) :
    ¬ Holds value (some (overwrite (allocate (fun _ _ => 1) bufSize) 0 (value.take part ++ [0]))) := by
  intro hHolds
  have hEnd : (overwrite (allocate (fun _ _ => 1) bufSize) 0 (value.take part ++ [0]))[value.length]? = some 0 := by
    obtain ⟨rest, hBuffer⟩ := hHolds
    rw [← hBuffer]
    simp
  have hMemory : allocate (fun _ _ => 1) bufSize = List.replicate bufSize 1 := by
    simp [allocate, List.map_const']
  rw [overwrite_zero, hMemory, List.getElem?_append_right (by simp; omega), List.getElem?_drop,
    List.getElem?_replicate] at hEnd
  simp at hEnd

/-- If the first call does not tell the length, or has no room for all of the value, the length is wrong. -/
theorem length_ne (memory : Nat → Nat → UInt8) (hDriver : Contract driver) (hFirst : driver.SQLGetData value bufSize = .data part indicator)
    (hLength : indicator ≠ value.length ∨ bufSize ≤ value.length) :
    (getCharData driver memory value).ok = false ∨ (getCharData driver memory value).length ≠ value.length := by
  have hPart := (hDriver.part_le hFirst).1
  unfold getCharData
  simp only [hFirst]
  obtain rfl | rfl := hDriver.indicator_eq hFirst
  · have hLong : bufSize ≤ value.length := hLength.resolve_left fun h => h rfl
    have hMore := hDriver.part_pos hFirst (List.ne_nil_of_length_pos (Nat.lt_of_lt_of_le (by decide) hLong))
      (by decide)
    have hBufSize : bufSize = 100 := rfl
    rw [if_neg (by rw [nullData]; omega), if_pos (by omega)]
    split
    · exact .inl rfl
    · next part' indicator' hSecond =>
      refine .inr ?_
      simp only
      obtain rfl | rfl := hDriver.indicator_eq hSecond
      · rw [List.length_drop]
        omega
      · rw [noTotal]
        omega
  · rw [if_neg (by decide), if_neg (by decide)]
    refine .inr ?_
    simp only [noTotal]
    omega

/-- The value is read whole if the first call gives all of it, with its length. -/
theorem readsWhole_of_first (hDriver : Contract driver)
    (hFirst : driver.SQLGetData value bufSize = .data value.length value.length) : ReadsWhole driver value := by
  intro memory
  have hFits := (hDriver.part_le hFirst).1
  unfold getCharData
  simp only [hFirst]
  by_cases hEmpty : value = []
  · subst hEmpty
    simp [Holds, idText, QString.fromLatin1]
  · have hPositive := List.length_pos_iff.mpr hEmpty
    rw [if_neg (by rw [nullData]; omega), if_neg (by omega)]
    refine ⟨rfl, holds_first memory value, rfl, ?_⟩
    simp [idText, overwrite_zero]

end Spec

/-- The value is read whole exactly if the first call gives all of it, with its length. -/
theorem readsWhole_iff (driver : Driver) (hDriver : Contract driver) (value : QByteArray) :
    ReadsWhole driver value ↔ driver.SQLGetData value bufSize = .data value.length value.length := by
  refine ⟨fun h => ?_, readsWhole_of_first hDriver⟩
  obtain ⟨hOk, hHolds, hLength, -⟩ := h fun _ _ => 1
  cases hFirst : driver.SQLGetData value bufSize with
  | error records =>
    simp [getCharData, hFirst, failed] at hOk
  | data part indicator =>
    by_cases hKnown : indicator ≠ value.length ∨ bufSize ≤ value.length
    · rcases length_ne (fun _ _ => 1) hDriver hFirst hKnown with hFails | hOther
      · rw [hOk] at hFails
        cases hFails
      · exact absurd hLength hOther
    · rw [not_or, not_not, not_le] at hKnown
      obtain ⟨rfl, hShort⟩ := hKnown
      have hLe := (hDriver.part_le hFirst).2
      obtain hPart | rfl := Nat.lt_or_eq_of_le hLe
      · refine absurd ?_ (not_holds_first hPart)
        have hBufSize : bufSize = 100 := rfl
        unfold getCharData at hHolds
        simp only [hFirst] at hHolds
        rwa [if_neg (by rw [nullData]; omega), if_neg (by omega)] at hHolds
      · rfl

/-- A driver that fills the buffer and tells how much was left. -/
def fillingDriver : Driver where
  SQLGetData rest size := if size < 1 then .error [] else .data (min (size - 1).toNat rest.length) rest.length

theorem fillingDriver_eq {rest : QByteArray} {size : Int} {part : Nat} {indicator : Int}
    (h : fillingDriver.SQLGetData rest size = .data part indicator) :
    1 ≤ size ∧ part = min (size - 1).toNat rest.length ∧ indicator = rest.length := by
  simp only [fillingDriver] at h
  split at h
  · cases h
  · cases h
    exact ⟨by omega, rfl, rfl⟩

theorem fillingDriver_contract : Contract fillingDriver where
  part_le h := by
    obtain ⟨hSize, rfl, -⟩ := fillingDriver_eq h
    omega
  part_pos h hRest hSize := by
    obtain ⟨-, rfl, -⟩ := fillingDriver_eq h
    have hLength := List.length_pos_iff.mpr hRest
    omega
  indicator_eq h := .inl (fillingDriver_eq h).2.2

theorem readsWhole_letters : ReadsWhole fillingDriver [0x6e, 0x69, 0x6c] ↔
    fillingDriver.SQLGetData [0x6e, 0x69, 0x6c] bufSize = .data 3 3 :=
  readsWhole_iff fillingDriver fillingDriver_contract [0x6e, 0x69, 0x6c]

/-- A value of a hundred bytes is read with the length of its last byte. -/
theorem not_readsWhole : ¬ ∀ driver : Driver, Contract driver → ∀ value, ReadsWhole driver value := by
  intro h
  obtain ⟨hOk, -, hLength, -⟩ := h fillingDriver fillingDriver_contract (.replicate 100 0x61) fun _ _ => 0
  have hFirst : fillingDriver.SQLGetData (.replicate 100 0x61) bufSize = .data 99 100 := by decide
  rcases length_ne (fun _ _ => 0) fillingDriver_contract hFirst (.inr (by decide)) with hFails | hOther
  · rw [hOk] at hFails
    cases hFails
  · exact hOther hLength

end CharData

end ODBC

end Soprano
