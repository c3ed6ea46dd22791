import Mathlib

/-! Base64: three bytes as four characters of a 64-letter alphabet, the last group padded with
`=`.  The decoder skips characters outside the alphabet, as decoders of mailed text do, and stops
nowhere: bits that do not fill a byte are dropped. -/

namespace Base64

/-- The character of a number below 64. -/
def digit (n : Nat) : Char :=
  if n < 26 then Char.ofNat (65 + n)
  else if n < 52 then Char.ofNat (97 + (n - 26))
  else if n < 62 then Char.ofNat (48 + (n - 52))
  else if n = 62 then '+' else '/'

/-- The number of a character of the alphabet. -/
def value (c : Char) : Option Nat :=
  if 'A' ≤ c ∧ c ≤ 'Z' then some (c.toNat - 65)
  else if 'a' ≤ c ∧ c ≤ 'z' then some (c.toNat - 97 + 26)
  else if '0' ≤ c ∧ c ≤ '9' then some (c.toNat - 48 + 52)
  else if c = '+' then some 62
  else if c = '/' then some 63
  else none

theorem value_digit : ∀ n < 64, value (digit n) = some n := by decide

theorem value_pad : value '=' = none := by decide

/-- The base64 text of a byte sequence. -/
def encode : List UInt8 → List Char
  | [] => []
  | [a] => [digit (a.toNat / 4), digit (a.toNat % 4 * 16), '=', '=']
  | [a, b] =>
    [digit (a.toNat / 4), digit (a.toNat % 4 * 16 + b.toNat / 16), digit (b.toNat % 16 * 4), '=']
  | a :: b :: c :: rest =>
    digit (a.toNat / 4) :: digit (a.toNat % 4 * 16 + b.toNat / 16) ::
      digit (b.toNat % 16 * 4 + c.toNat / 64) :: digit (c.toNat % 64) :: encode rest

/-- The whole bytes in a sequence of numbers below 64, read as six bits each. -/
def bytes : List Nat → List UInt8
  | v :: w :: x :: y :: rest =>
    UInt8.ofNat (v * 4 + w / 16) :: UInt8.ofNat (w % 16 * 16 + x / 4) ::
      UInt8.ofNat (x % 4 * 64 + y) :: bytes rest
  | [v, w, x] => [UInt8.ofNat (v * 4 + w / 16), UInt8.ofNat (w % 16 * 16 + x / 4)]
  | [v, w] => [UInt8.ofNat (v * 4 + w / 16)]
  | _ => []

/-- The byte sequence of a base64 text. -/
def decode (text : List Char) : List UInt8 := bytes (text.filterMap value)

/-- The letters of a base64 text: the alphabet and the padding. -/
def isLetter (c : Char) : Bool := (value c).isSome || c == '='

theorem isLetter_digit (n : Nat) : isLetter (digit n) = true := by
  by_cases h : n < 64
  · simp [isLetter, value_digit n h]
  · have hDigit : digit n = '/' := by
      unfold digit
      rw [if_neg (by omega), if_neg (by omega), if_neg (by omega), if_neg (by omega)]
    rw [hDigit]
    decide

theorem ofNat_toNat {n : Nat} {a : UInt8} (h : n = a.toNat) : UInt8.ofNat n = a := by
  rw [h, UInt8.ofNat_toNat]

/-- Decoding the text of a byte sequence gives the sequence back. -/
theorem decode_encode (a : List UInt8) : decode (encode a) = a := by
  unfold decode
  induction a using encode.induct with
  | case1 => rfl
  | case2 a =>
    have ha := a.toNat_lt
    simp only [encode, List.filterMap_cons, List.filterMap_nil, value_pad]
    rw [value_digit _ (by omega), value_digit _ (by omega)]
    simp only [bytes]
    rw [ofNat_toNat (a := a) (by omega)]
  | case3 a b =>
    have ha := a.toNat_lt
    have hb := b.toNat_lt
    simp only [encode, List.filterMap_cons, List.filterMap_nil, value_pad]
    rw [value_digit _ (by omega), value_digit _ (by omega), value_digit _ (by omega)]
    simp only [bytes]
    rw [ofNat_toNat (a := a) (by omega), ofNat_toNat (a := b) (by omega)]
  | case4 a b c rest ih =>
    have ha := a.toNat_lt
    have hb := b.toNat_lt
    have hc := c.toNat_lt
    simp only [encode, List.filterMap_cons]
    rw [value_digit _ (by omega), value_digit _ (by omega), value_digit _ (by omega),
      value_digit _ (by omega)]
    simp only [bytes]
    rw [ofNat_toNat (a := a) (by omega), ofNat_toNat (a := b) (by omega),
      ofNat_toNat (a := c) (by omega), ih]

theorem isLetter_of_mem_encode (a : List UInt8) : ∀ c ∈ encode a, isLetter c = true := by
  have hPad : isLetter '=' = true := by decide
  induction a using encode.induct with
  | case1 => simp [encode]
  | case2 a => simp [encode, isLetter_digit, hPad]
  | case3 a b => simp [encode, isLetter_digit, hPad]
  | case4 a b c rest ih => simpa [encode, isLetter_digit] using ih

/-- Each letter is alphanumeric or one of three marks. -/
theorem isAlphanum_of_isLetter {c : Char} (h : isLetter c = true) :
    c.isAlphanum = true ∨ c = '+' ∨ c = '/' ∨ c = '=' := by
  simp only [isLetter, value, Bool.or_eq_true, beq_iff_eq] at h
  rcases h with h | h
  · simp only [Char.isAlphanum, Char.isAlpha, Char.isUpper, Char.isLower, Char.isDigit,
      Bool.or_eq_true, Bool.and_eq_true, decide_eq_true_eq]
    split at h
    · rename_i hUpper
      exact .inl (.inl (.inl hUpper))
    · split at h
      · rename_i hLower
        exact .inl (.inl (.inr hLower))
      · split at h
        · rename_i hDigit
          exact .inl (.inr hDigit)
        · split at h
          · rename_i hPlus
            exact .inr (.inl hPlus)
          · split at h
            · rename_i hSlash
              exact .inr (.inr (.inl hSlash))
            · cases h
  · exact .inr (.inr (.inr h))

end Base64
