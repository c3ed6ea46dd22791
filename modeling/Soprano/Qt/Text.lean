import Mathlib

/-! The part of `QString`, `QByteArray` and `QChar` that the modelled code uses.  A string is the
list of its characters; a byte array is the list of its bytes. -/

namespace Soprano

abbrev QString : Type := List Char

abbrev QByteArray : Type := List UInt8

/-- `QChar::isSpace`: the separators and the control characters that count as white space. -/
def isSpace (c : Char) : Bool :=
  let n := c.toNat
  (9 ≤ n && n ≤ 13) || n == 0x20 || n == 0x85 || n == 0xa0 || n == 0x1680 ||
    (0x2000 ≤ n && n ≤ 0x200a) || n == 0x2028 || n == 0x2029 || n == 0x202f || n == 0x205f ||
    n == 0x3000

/-- No character is white space. -/
def NoSpace (s : List Char) : Prop := ∀ c ∈ s, isSpace c = false

instance (s : List Char) : Decidable (NoSpace s) :=
  decidable_of_iff (s.all (fun c => !isSpace c) = true) (by simp [NoSpace])

/-- The characters of numbers, dates, Booleans and base64 texts. -/
def isTokenChar (c : Char) : Bool :=
  c.isAlphanum || ['-', ':', '.', '+', '/', '='].contains c

theorem toNat_of_isAlphanum {c : Char} (h : c.isAlphanum = true) :
    0x30 ≤ c.toNat ∧ c.toNat ≤ 0x7a := by
  simp only [Char.isAlphanum, Char.isAlpha, Char.isUpper, Char.isLower, Char.isDigit,
    Bool.or_eq_true, Bool.and_eq_true, decide_eq_true_eq, ge_iff_le, UInt32.le_iff_toNat_le] at h
  simp only [show ('A'.val).toNat = 0x41 from rfl, show ('Z'.val).toNat = 0x5a from rfl,
    show ('a'.val).toNat = 0x61 from rfl, show ('z'.val).toNat = 0x7a from rfl,
    show ('0'.val).toNat = 0x30 from rfl, show ('9'.val).toNat = 0x39 from rfl] at h
  have : c.toNat = c.val.toNat := rfl
  omega

theorem toNat_of_isTokenChar {c : Char} (h : isTokenChar c = true) :
    0x20 < c.toNat ∧ c.toNat < 0x7f := by
  simp only [isTokenChar, Bool.or_eq_true, List.contains_iff_mem] at h
  rcases h with h | h
  · have := toNat_of_isAlphanum h
    omega
  · simp only [List.mem_cons, List.not_mem_nil, or_false] at h
    rcases h with rfl | rfl | rfl | rfl | rfl | rfl <;> decide

namespace QString

/-- `QString::fromLatin1` -/
def fromLatin1 (a : QByteArray) : QString := a.map fun b => Char.ofNat b.toNat

/-- `QString::toLatin1`, with a question mark for a character outside Latin-1. -/
def toLatin1 (s : QString) : QByteArray :=
  s.map fun c => if c.toNat < 256 then UInt8.ofNat c.toNat else 63

theorem fromLatin1_toLatin1 {s : QString} (h : ∀ c ∈ s, c.toNat < 256) :
    fromLatin1 (toLatin1 s) = s := by
  unfold fromLatin1 toLatin1
  rw [List.map_map]
  conv_rhs => rw [← List.map_id s]
  refine List.map_congr_left fun c hc => ?_
  have hlt := h c hc
  simp [hlt, Nat.mod_eq_of_lt hlt]

/-- `QString::trimmed` -/
def trimmed (s : QString) : QString :=
  ((s.dropWhile isSpace).reverse.dropWhile isSpace).reverse

/-- A text that neither starts nor ends in white space is not changed. -/
theorem trimmed_eq {s : QString} (hHead : ∀ c, s.head? = some c → isSpace c = false)
    (hLast : ∀ c, s.getLast? = some c → isSpace c = false) : trimmed s = s := by
  have hFront : s.dropWhile isSpace = s := by
    cases s with
    | nil => rfl
    | cons c s => simp [hHead c rfl]
  have hBack : s.reverse.dropWhile isSpace = s.reverse := by
    cases hs : s.reverse with
    | nil => rfl
    | cons c t =>
      have : s.getLast? = some c := by rw [List.getLast?_eq_head?_reverse, hs]; rfl
      simp [hLast c this]
  rw [trimmed, hFront, hBack, List.reverse_reverse]

/-! ### Numbers -/

/-- The value of a text that consists of decimal digits. -/
def digitsValue (s : QString) : Option Nat :=
  if s ≠ [] ∧ s.all Char.isDigit then some (Nat.ofDigitChars 10 s 0) else none

/-- The value of a decimal number with an optional sign, as the conversions of `QString` read it:
white space around the number is ignored. -/
def toIntegral (s : QString) : Option Int :=
  match trimmed s with
  | '-' :: digits => (digitsValue digits).map fun n : Nat => -(n : Int)
  | '+' :: digits => (digitsValue digits).map Int.ofNat
  | digits => (digitsValue digits).map Int.ofNat

/-- The value of a decimal number without a minus sign. -/
def toNatural (s : QString) : Option Nat :=
  match trimmed s with
  | '+' :: digits => digitsValue digits
  | digits => digitsValue digits

/-- `QString::toInt` -/
def toInt (s : QString) : Option Int32 :=
  (toIntegral s).bind fun n => if -2 ^ 31 ≤ n ∧ n < 2 ^ 31 then some (Int32.ofInt n) else none

/-- `QString::toLongLong` -/
def toLongLong (s : QString) : Option Int64 :=
  (toIntegral s).bind fun n => if -2 ^ 63 ≤ n ∧ n < 2 ^ 63 then some (Int64.ofInt n) else none

/-- `QString::toUInt` -/
def toUInt (s : QString) : Option UInt32 :=
  (toNatural s).bind fun n => if n < 2 ^ 32 then some (UInt32.ofNat n) else none

/-- `QString::toULongLong` -/
def toULongLong (s : QString) : Option UInt64 :=
  (toNatural s).bind fun n => if n < 2 ^ 64 then some (UInt64.ofNat n) else none

/-- `QString::number` of an unsigned number. -/
def natural (n : Nat) : QString := Nat.toDigits 10 n

/-- `QString::number` of a signed number. -/
def number (n : Int) : QString := if n < 0 then '-' :: natural n.natAbs else natural n.natAbs

/-- `QString::arg` of a number with a field width and the fill character `0`. -/
def padded (width n : Nat) : QString :=
  List.replicate (width - (natural n).length) '0' ++ natural n

/-- A text of decimal digits. -/
def Digits (s : QString) : Prop := s ≠ [] ∧ ∀ c ∈ s, c.isDigit = true

theorem digits_natural (n : Nat) : Digits (natural n) :=
  ⟨Nat.toDigits_ne_nil, fun _ hc => Nat.isDigit_of_mem_toDigits (by decide) (by decide) hc⟩

theorem digits_padded (width n : Nat) : Digits (padded width n) := by
  refine ⟨by simp [padded, (digits_natural n).1], fun c hc => ?_⟩
  rcases List.mem_append.mp hc with h | h
  · rw [List.eq_of_mem_replicate h]
    rfl
  · exact (digits_natural n).2 c h

theorem Digits.value {s : QString} (h : Digits s) :
    digitsValue s = some (Nat.ofDigitChars 10 s 0) := by
  unfold digitsValue
  rw [if_pos ⟨h.1, List.all_eq_true.mpr h.2⟩]

theorem digitsValue_natural (n : Nat) : digitsValue (natural n) = some n := by
  rw [(digits_natural n).value, natural, Nat.ofDigitChars_ten_toDigits]

theorem digitsValue_padded (width n : Nat) : digitsValue (padded width n) = some n := by
  rw [(digits_padded width n).value, padded, Nat.ofDigitChars_append,
    Nat.ofDigitChars_replicate_zero, Nat.mul_zero, natural, Nat.ofDigitChars_ten_toDigits]

theorem isSpace_of_isDigit {c : Char} (h : c.isDigit = true) : isSpace c = false := by
  have := Char.isDigit_iff_toNat.mp h
  simp [isSpace] at this ⊢
  omega

theorem ne_of_isDigit {c d : Char} (h : c.isDigit = true) (hd : d.isDigit = false) : c ≠ d := by
  rintro rfl
  simp [h] at hd

theorem Digits.trimmed_cons {s : QString} (h : Digits s) {c : Char} (hc : isSpace c = false) :
    trimmed (c :: s) = c :: s := by
  refine trimmed_eq (by simpa using hc) fun d hd => ?_
  rw [List.getLast?_cons] at hd
  cases hs : s.getLast? with
  | none => exact absurd (List.getLast?_eq_none_iff.mp hs) h.1
  | some e =>
    rw [hs] at hd
    cases hd
    exact isSpace_of_isDigit (h.2 _ (List.mem_of_getLast? hs))

theorem Digits.trimmed {s : QString} (h : Digits s) : trimmed s = s :=
  trimmed_eq (fun c hc => isSpace_of_isDigit (h.2 c (List.mem_of_head? hc)))
    fun c hc => isSpace_of_isDigit (h.2 c (List.mem_of_getLast? hc))

theorem Digits.toNatural {s : QString} (h : Digits s) : toNatural s = digitsValue s := by
  unfold QString.toNatural
  rw [h.trimmed]
  cases s with
  | nil => rfl
  | cons c s =>
    have hc : c ≠ '+' := ne_of_isDigit (h.2 c (by simp)) rfl
    split <;> simp_all

theorem Digits.toIntegral {s : QString} (h : Digits s) :
    toIntegral s = (digitsValue s).map Int.ofNat := by
  unfold QString.toIntegral
  rw [h.trimmed]
  cases s with
  | nil => rfl
  | cons c s =>
    have hc : c ≠ '+' := ne_of_isDigit (h.2 c (by simp)) rfl
    have hc' : c ≠ '-' := ne_of_isDigit (h.2 c (by simp)) rfl
    split <;> simp_all

theorem Digits.toIntegral_neg {s : QString} (h : Digits s) :
    QString.toIntegral ('-' :: s) = (digitsValue s).map fun n : Nat => -(n : Int) := by
  unfold QString.toIntegral
  rw [h.trimmed_cons rfl]
  rfl

theorem toIntegral_number (n : Int) : toIntegral (number n) = some n := by
  unfold number
  split
  · rw [(digits_natural _).toIntegral_neg, digitsValue_natural, Option.map_some,
      show -(n.natAbs : Int) = n by omega]
  · rw [(digits_natural _).toIntegral, digitsValue_natural, Option.map_some,
      show Int.ofNat n.natAbs = n by simp only [Int.ofNat_eq_natCast]; omega]

theorem toNatural_natural (n : Nat) : toNatural (natural n) = some n := by
  rw [(digits_natural n).toNatural, digitsValue_natural]

theorem toInt_number (n : Int32) : toInt (number n.toInt) = some n := by
  have hLow := n.le_toInt
  have hHigh := n.toInt_lt
  unfold toInt
  rw [toIntegral_number, Option.bind_some, if_pos ⟨by omega, by omega⟩, Int32.ofInt_toInt]

theorem toLongLong_number (n : Int64) : toLongLong (number n.toInt) = some n := by
  have hLow := n.le_toInt
  have hHigh := n.toInt_lt
  unfold toLongLong
  rw [toIntegral_number, Option.bind_some, if_pos ⟨by omega, by omega⟩, Int64.ofInt_toInt]

theorem toUInt_number (n : UInt32) : toUInt (natural n.toNat) = some n := by
  unfold toUInt
  rw [toNatural_natural, Option.bind_some, if_pos n.toNat_lt, UInt32.ofNat_toNat]

theorem toULongLong_number (n : UInt64) : toULongLong (natural n.toNat) = some n := by
  unfold toULongLong
  rw [toNatural_natural, Option.bind_some, if_pos n.toNat_lt, UInt64.ofNat_toNat]

/-- A padded number that fits is read back by `toInt`. -/
theorem toInt_padded {width n : Nat} (h : n < 2 ^ 31) :
    toInt (padded width n) = some (Int32.ofInt n) := by
  unfold toInt
  rw [(digits_padded width n).toIntegral, digitsValue_padded, Option.map_some, Option.bind_some,
    if_pos ⟨by simp, by simp; omega⟩]
  rfl

end QString

end Soprano
