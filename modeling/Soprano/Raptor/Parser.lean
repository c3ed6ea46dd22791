import Soprano.Qt.Text

/-! How `Raptor::Parser` feeds raptor: a device by bytes, a string by 1024 units of UTF-16 at a time. -/

namespace Soprano

namespace Raptor

namespace Parser

/-- A `QString`, unit by unit. -/
abbrev Utf16 : Type := List UInt16

def isHighSurrogate (u : UInt16) : Bool := 0xd800 ≤ u && u < 0xdc00

def isLowSurrogate (u : UInt16) : Bool := 0xdc00 ≤ u && u < 0xe000

/-- `QChar::surrogateToUcs4` -/
def surrogateToUcs4 (high low : UInt16) : Char :=
  Char.ofNat ((high.toNat - 0xd800) * 0x400 + (low.toNat - 0xdc00) + 0x10000)

/-- Two units that make up one character. -/
def IsPair (high low : UInt16) : Prop := isHighSurrogate high = true ∧ isLowSurrogate low = true

instance (high low : UInt16) : Decidable (IsPair high low) := inferInstanceAs (Decidable (_ ∧ _))

section Encoding

variable (lone : UInt16 → QByteArray)

/-- The bytes of a unit by itself. -/
def unitToUtf8 (u : UInt16) : QByteArray :=
  if isHighSurrogate u || isLowSurrogate u then lone u else String.utf8EncodeChar (Char.ofNat u.toNat)

/-- `QString::toUtf8`, where `lone` encodes surrogates outside a pair. -/
def toUtf8 : Utf16 → QByteArray
  | high :: low :: rest =>
    if IsPair high low then String.utf8EncodeChar (surrogateToUcs4 high low) ++ toUtf8 rest
    else unitToUtf8 lone high ++ toUtf8 (low :: rest)
  | [u] => unitToUtf8 lone u
  | [] => []

/-- What raptor has been fed, and whether that is all of the input. -/
structure Fed where
  chunks : List QByteArray
  complete : Bool

/-- `bufSize` -/
def bufSize : Nat := 1024

/-- The loop of `parseStream` over a string. Raptor answers to the chunks that it has been fed. -/
def feedString (refuses : List QByteArray → Bool) (fed : List QByteArray) (rest : Utf16) : Fed :=
  if rest = [] then ⟨fed, true⟩
  else
    let utf8Data := toUtf8 lone (rest.take bufSize)
    if refuses (fed ++ [utf8Data]) then ⟨fed ++ [utf8Data], false⟩
    else feedString refuses (fed ++ [utf8Data]) (rest.drop bufSize)
termination_by rest.length
decreasing_by
  have := List.length_pos_iff.mpr ‹rest ≠ []›
  simp only [List.length_drop, bufSize]
  omega

end Encoding

/-- The loop of `parseStream` over a device, which gives as many of the bytes as it likes. -/
def feedDevice (refuses : List QByteArray → Bool) (gives : QByteArray → Nat) (fed : List QByteArray)
    (rest : QByteArray) : Fed :=
  if rest = [] then ⟨fed, true⟩
  else
    let r := min (gives rest) bufSize
    if r = 0 then ⟨fed, false⟩
    else if refuses (fed ++ [rest.take r]) then ⟨fed ++ [rest.take r], false⟩
    else feedDevice refuses gives (fed ++ [rest.take r]) (rest.drop r)
termination_by rest.length
decreasing_by
  have := List.length_pos_iff.mpr ‹rest ≠ []›
  simp only [List.length_drop]
  omega

/-- A boundary between two pieces of the text falls between the halves of a pair. -/
def Cut (text : Utf16) : Prop :=
  ∃ k high low, text[bufSize * k + 1023]? = some high ∧ text[bufSize * k + 1024]? = some low ∧ IsPair high low

/-- A string and a device with the same text feed the same bytes, the encoding of the text, to a raptor that
refuses none. -/
def SameInput (lone : UInt16 → QByteArray) (text : Utf16) : Prop :=
  ∀ refuses gives, (∀ chunks, refuses chunks = false) → (∀ rest, rest ≠ [] → gives rest ≠ 0) →
    (feedString lone refuses [] text).chunks.flatten = toUtf8 lone text ∧
      (feedDevice refuses gives [] (toUtf8 lone text)).chunks.flatten = toUtf8 lone text

/-! ### The pairs of a text -/

/-- The number of pairs in a text. -/
def pairs : Utf16 → Nat
  | high :: low :: rest => (if IsPair high low then 1 else 0) + pairs (low :: rest)
  | _ => 0

/-- The number of bytes that begin the encoding of a pair. -/
def leads (bytes : QByteArray) : Nat := bytes.countP (0xf0 ≤ ·)

/-- No two units on both sides make up a pair. -/
def Apart (a b : Utf16) : Prop := ∀ high ∈ a.getLast?, ∀ low ∈ b.head?, ¬ IsPair high low

@[simp] theorem leads_append (a b : QByteArray) : leads (a ++ b) = leads a + leads b := List.countP_append

theorem isHighSurrogate_iff {u : UInt16} : isHighSurrogate u = true ↔ 0xd800 ≤ u.toNat ∧ u.toNat < 0xdc00 := by
  simp [isHighSurrogate, UInt16.le_iff_toNat_le, UInt16.lt_iff_toNat_lt]

theorem isLowSurrogate_iff {u : UInt16} : isLowSurrogate u = true ↔ 0xdc00 ≤ u.toNat ∧ u.toNat < 0xe000 := by
  simp [isLowSurrogate, UInt16.le_iff_toNat_le, UInt16.lt_iff_toNat_lt]

/-- The second half of a pair does not begin another one. -/
theorem IsPair.not_next {high low next : UInt16} (h : IsPair high low) : ¬ IsPair low next := by
  intro hNext
  have hLow := isLowSurrogate_iff.mp h.2
  have hHigh := isHighSurrogate_iff.mp hNext.1
  omega

theorem toNat_ofNat {n : Nat} (h : n.isValidChar) : (Char.ofNat n).toNat = n := by
  rw [Char.ofNat, dif_pos h]
  rfl

theorem toNat_surrogateToUcs4 {high low : UInt16} (h : IsPair high low) :
    0x10000 ≤ (surrogateToUcs4 high low).toNat := by
  have hHigh := isHighSurrogate_iff.mp h.1
  have hLow := isLowSurrogate_iff.mp h.2
  rw [surrogateToUcs4, toNat_ofNat (.inr (by omega))]
  omega

theorem toNat_ofUnit (u : UInt16) : (Char.ofNat u.toNat).toNat < 0x10000 := by
  have hUnit := u.toNat_lt
  by_cases hValid : u.toNat.isValidChar
  · rw [toNat_ofNat hValid]
    omega
  · rw [Char.ofNat, dif_neg hValid]
    decide

theorem lead_iff {n : Nat} (h : n < 256) : 0xf0 ≤ UInt8.ofNat n ↔ 0xf0 ≤ n := by
  rw [UInt8.le_iff_toNat_le, UInt8.toNat_ofNat', Nat.mod_eq_of_lt h]
  rfl

theorem leads_cons {n : Nat} (h : n < 256) (bytes : QByteArray) :
    leads (UInt8.ofNat n :: bytes) = (if 0xf0 ≤ n then 1 else 0) + leads bytes := by
  rw [leads, List.countP_cons, Nat.add_comm]
  simp only [decide_eq_true_eq, lead_iff h]
  rfl

/-- Only an encoding in four bytes begins with four ones. -/
theorem leads_utf8EncodeChar (c : Char) :
    leads (String.utf8EncodeChar c) = if 0x10000 ≤ c.toNat then 1 else 0 := by
  have hVal : c.val.toNat = c.toNat := rfl
  unfold String.utf8EncodeChar
  simp only [hVal]
  split
  case isTrue h =>
    rw [leads_cons (by omega), if_neg (by omega), if_neg (by omega)]
    rfl
  case isFalse =>
    split
    case isTrue h =>
      rw [leads_cons (by omega), leads_cons (by omega), if_neg (by omega), if_neg (by omega), if_neg (by omega)]
      rfl
    case isFalse =>
      split
      case isTrue h =>
        rw [leads_cons (by omega), leads_cons (by omega), leads_cons (by omega), if_neg (by omega),
          if_neg (by omega), if_neg (by omega), if_neg (by omega)]
        rfl
      case isFalse h =>
        rw [leads_cons (by omega), leads_cons (by omega), leads_cons (by omega), leads_cons (by omega),
          if_pos (by omega), if_neg (by omega), if_neg (by omega), if_neg (by omega), if_pos (by omega)]
        rfl

section Encoding

variable {lone : UInt16 → QByteArray}

theorem leads_unitToUtf8 (hLone : ∀ u, ∀ b ∈ lone u, b < 0xf0) (u : UInt16) :
    leads (unitToUtf8 lone u) = 0 := by
  unfold unitToUtf8
  split
  · refine List.countP_eq_zero.mpr fun b hb => ?_
    simpa using hLone u b hb
  · rw [leads_utf8EncodeChar, if_neg (Nat.not_le_of_lt (toNat_ofUnit u))]

theorem pairs_cons_of_isPair {high low : UInt16} (h : IsPair high low) (rest : Utf16) :
    pairs (high :: low :: rest) = 1 + pairs rest := by
  rw [pairs, if_pos h]
  cases rest with
  | nil => rfl
  | cons next rest => rw [pairs, if_neg h.not_next, Nat.zero_add]

/-- The pairs of a text have the bytes that begin with four ones, and nothing else has. -/
theorem leads_toUtf8 (hLone : ∀ u, ∀ b ∈ lone u, b < 0xf0) (text : Utf16) :
    leads (toUtf8 lone text) = pairs text := by
  fun_induction toUtf8 lone text with
  | case1 high low rest hPair ih =>
    rw [leads_append, leads_utf8EncodeChar, if_pos (toNat_surrogateToUcs4 hPair), ih,
      pairs_cons_of_isPair hPair]
  | case2 high low rest hPair ih =>
    rw [leads_append, leads_unitToUtf8 hLone, ih, pairs, if_neg hPair]
  | case3 u => exact leads_unitToUtf8 hLone u
  | case4 => rfl

theorem Apart.of_cons {u : UInt16} {a b : Utf16} (h : Apart (u :: a) b) : Apart a b := by
  intro high hHigh
  refine h high ?_
  rw [Option.mem_def] at hHigh ⊢
  rw [List.getLast?_cons, hHigh]
  rfl

theorem apart_cons_cons {u v : UInt16} {a b : Utf16} : Apart (u :: v :: a) b ↔ Apart (v :: a) b := by
  simp [Apart, List.getLast?_cons]

theorem toUtf8_append {a b : Utf16} (h : Apart a b) : toUtf8 lone (a ++ b) = toUtf8 lone a ++ toUtf8 lone b := by
  fun_induction toUtf8 lone a with
  | case1 high low rest hPair ih =>
    rw [List.cons_append, List.cons_append, toUtf8, if_pos hPair, ih h.of_cons.of_cons, List.append_assoc]
  | case2 high low rest hPair ih =>
    have hRest := ih h.of_cons
    rw [List.cons_append] at hRest
    rw [List.cons_append, List.cons_append, toUtf8, if_neg hPair, hRest, List.append_assoc]
  | case3 u =>
    cases b with
    | nil => simp [toUtf8]
    | cons v b => rw [List.singleton_append, toUtf8, if_neg (h u rfl v rfl)]
  | case4 => rfl

/-- Pieces of a text have its pairs but for those between them. -/
theorem pairs_append (a b : Utf16) :
    pairs a + pairs b ≤ pairs (a ++ b) ∧ (pairs a + pairs b = pairs (a ++ b) → Apart a b) := by
  fun_induction pairs a with
  | case1 high low rest ih =>
    rw [List.cons_append, List.cons_append, pairs, apart_cons_cons]
    rw [List.cons_append] at ih
    exact ⟨by omega, fun h => ih.2 (by omega)⟩
  | case2 a hShort =>
    match a, hShort with
    | [], _ => exact ⟨by simp, fun _ => nofun⟩
    | [u], _ =>
      cases b with
      | nil => exact ⟨by simp [pairs], fun _ => by simp [Apart]⟩
      | cons v b =>
        rw [List.singleton_append, pairs, Apart]
        refine ⟨by omega, fun h high hHigh low hLow hPair => ?_⟩
        cases hHigh
        cases hLow
        have hUnits : IsPair u v := hPair
        rw [if_pos hUnits] at h
        omega
    | high :: low :: rest, hShort => exact absurd rfl (hShort high low rest)

/-! ### The pieces of a text -/

theorem apart_take {text : Utf16} : Apart (text.take bufSize) (text.drop bufSize) ↔
    ∀ high low, text[1023]? = some high → text[1024]? = some low → ¬ IsPair high low := by
  rw [Apart, List.getLast?_take, if_neg (by decide), List.head?_drop]
  constructor
  · intro h high low hHigh hLow
    refine h high ?_ low hLow
    rw [Option.mem_def, show bufSize - 1 = 1023 from rfl, hHigh, Option.some_or]
  · intro h high hHigh low hLow
    have hLength : 1024 < text.length := (List.getElem?_eq_some_iff.mp hLow).1
    have hLast : text[1023]? = some text[1023] := List.getElem?_eq_getElem (by omega)
    rw [Option.mem_def, show bufSize - 1 = 1023 from rfl, hLast, Option.some_or] at hHigh
    exact h high low (hLast.trans hHigh) hLow

/-- A text is cut at the end of its first piece or later. -/
theorem cut_iff {text : Utf16} :
    Cut text ↔ ¬ Apart (text.take bufSize) (text.drop bufSize) ∨ Cut (text.drop bufSize) := by
  have hLater : ∀ k n, (text.drop bufSize)[bufSize * k + n]? = text[bufSize * (k + 1) + n]? := by
    intro k n
    rw [List.getElem?_drop, Nat.mul_succ]
    congr 1
    omega
  simp only [apart_take, Cut, hLater]
  constructor
  · rintro ⟨k, high, low, hHigh, hLow, hPair⟩
    cases k with
    | zero => exact .inl fun h => h high low hHigh hLow hPair
    | succ k => exact .inr ⟨k, high, low, hHigh, hLow, hPair⟩
  · rintro (h | ⟨k, h⟩)
    · by_contra hNot
      exact h fun high low hHigh hLow hPair => hNot ⟨0, high, low, hHigh, hLow, hPair⟩
    · exact ⟨k + 1, h⟩

theorem not_cut_nil : ¬ Cut [] := by
  rintro ⟨k, high, low, hHigh, -⟩
  cases hHigh

/-- A text that is not cut is fed in its encoding. One that is cut is fed without some of its pairs. -/
theorem feedString_spec (hLone : ∀ u, ∀ b ∈ lone u, b < 0xf0) {refuses : List QByteArray → Bool}
    (hAccepts : ∀ chunks, refuses chunks = false) (fed : List QByteArray) (rest : Utf16) :
    ∃ bytes, (feedString lone refuses fed rest).chunks.flatten = fed.flatten ++ bytes ∧
      (¬ Cut rest → bytes = toUtf8 lone rest) ∧ leads bytes ≤ pairs rest ∧
      (leads bytes = pairs rest → ¬ Cut rest) := by
  fun_induction feedString lone refuses fed rest with
  | case1 fed => exact ⟨[], by simp, fun _ => rfl, Nat.le_refl _, fun _ => not_cut_nil⟩
  | case2 fed rest _ _ hRefuses => exact absurd hRefuses (by simp [hAccepts])
  | case3 fed rest hNe utf8Data _ ih =>
    obtain ⟨bytes, hFed, hWhole, hLe, hEq⟩ := ih
    have hData : leads utf8Data = pairs (rest.take bufSize) := leads_toUtf8 hLone _
    obtain ⟨hSum, hApart⟩ := pairs_append (rest.take bufSize) (rest.drop bufSize)
    rw [List.take_append_drop] at hSum hApart
    refine ⟨utf8Data ++ bytes, ?_, fun hCut => ?_, ?_, fun hAll hCut => ?_⟩
    · rw [hFed, List.flatten_append, List.flatten_singleton, List.append_assoc]
    · rw [cut_iff, not_or, not_not] at hCut
      rw [hWhole hCut.2, ← toUtf8_append hCut.1, List.take_append_drop]
    · rw [leads_append]
      omega
    · rw [leads_append] at hAll
      rw [cut_iff] at hCut
      rcases hCut with hFirst | hLater
      · exact hFirst (hApart (by omega))
      · exact hEq (by omega) hLater

theorem feedDevice_flatten {refuses : List QByteArray → Bool} {gives : QByteArray → Nat}
    (hAccepts : ∀ chunks, refuses chunks = false) (hGives : ∀ rest, rest ≠ [] → gives rest ≠ 0)
    (fed : List QByteArray) (rest : QByteArray) :
    (feedDevice refuses gives fed rest).chunks.flatten = fed.flatten ++ rest := by
  fun_induction feedDevice refuses gives fed rest with
  | case1 fed => simp
  | case2 fed rest hNe r hr =>
    have hPositive := Nat.pos_of_ne_zero (hGives rest hNe)
    simp only [r, bufSize] at hr
    omega
  | case3 fed rest hNe r hr hRefuses => exact absurd hRefuses (by simp [hAccepts])
  | case4 fed rest hNe r hr hRefuses ih =>
    rw [ih, List.flatten_append, List.flatten_singleton, List.append_assoc, List.take_append_drop]

theorem not_cut_of_sameInput (hLone : ∀ u, ∀ b ∈ lone u, b < 0xf0) {text : Utf16}
    (h : SameInput lone text) : ¬ Cut text := by
  have hAccepts : ∀ chunks : List QByteArray, (fun _ => false : List QByteArray → Bool) chunks = false :=
    fun _ => rfl
  obtain ⟨bytes, hFed, -, -, hEq⟩ := feedString_spec hLone hAccepts [] text
  have hSame := (h _ (fun _ => 1) hAccepts fun _ _ => Nat.one_ne_zero).1
  rw [hFed, List.flatten_nil, List.nil_append] at hSame
  exact hEq (by rw [hSame, leads_toUtf8 hLone])

/-- The string and the device feed the same bytes exactly if no boundary cuts a pair. -/
theorem sameInput_iff (lone : UInt16 → QByteArray) (hLone : ∀ u, ∀ b ∈ lone u, b < 0xf0) (text : Utf16) :
    SameInput lone text ↔ ¬ Cut text := by
  refine ⟨not_cut_of_sameInput hLone, fun hCut refuses gives hAccepts hGives => ?_⟩
  obtain ⟨bytes, hFed, hWhole, -⟩ := feedString_spec hLone hAccepts [] text
  exact ⟨hFed.trans (hWhole hCut), feedDevice_flatten hAccepts hGives [] _⟩

end Encoding

/-- The encoding of a surrogate outside a pair as a question mark. -/
def questionMark (_ : UInt16) : QByteArray := [0x3f]

theorem questionMark_lt : ∀ u, ∀ b ∈ questionMark u, b < 0xf0 := by
  simp [questionMark]

theorem sameInput_pair : SameInput questionMark [0xd83d, 0xde00] ↔ ¬ Cut [0xd83d, 0xde00] :=
  sameInput_iff questionMark questionMark_lt _

/-- A text with a pair at the units 1023 and 1024. -/
def cutText : Utf16 := List.replicate 1023 0x61 ++ [0xd83d, 0xde00]

theorem getElem?_replicate_append (n : Nat) (u : UInt16) (text : Utf16) (i : Nat) :
    (List.replicate n u ++ text)[n + i]? = text[i]? := by
  rw [List.getElem?_append_right (by simp)]
  simp

theorem cut_cutText : Cut cutText :=
  ⟨0, 0xd83d, 0xde00, getElem?_replicate_append 1023 0x61 _ 0, getElem?_replicate_append 1023 0x61 _ 1, by decide⟩

theorem not_sameInput : ¬ ∀ lone : UInt16 → QByteArray, (∀ u, ∀ b ∈ lone u, b < 0xf0) →
    ∀ text, SameInput lone text := by
  intro h
  exact not_cut_of_sameInput questionMark_lt (h questionMark questionMark_lt cutText) cut_cutText

end Parser

end Raptor

end Soprano
