import Soprano.Qt.Text

/-! `QString::arg`: the place markers `%1` to `%99` of a text, the lowest of which is replaced. -/

namespace Soprano

namespace QString

/-- The number that follows a percent sign, and how many characters it has. -/
def markerNumber : List Char → Option (Nat × Nat)
  | [] => none
  | [c] => if c.isDigit then some (c.toNat - '0'.toNat, 1) else none
  | c :: d :: _ =>
    if c.isDigit then
      if d.isDigit then some ((c.toNat - '0'.toNat) * 10 + (d.toNat - '0'.toNat), 2)
      else some (c.toNat - '0'.toNat, 1)
    else none

/-- The place marker at the start of the text: its number and its length. -/
def markerAt (s : QString) : Option (Nat × Nat) :=
  if s.head? = some '%' then
    if s.tail.head? = some 'L' then (markerNumber s.tail.tail).map fun m => (m.1, m.2 + 2)
    else (markerNumber s.tail).map fun m => (m.1, m.2 + 1)
  else none

/-- The lowest number of a place marker. -/
def lowestMarker : QString → Option Nat
  | [] => none
  | c :: s =>
    match markerAt (c :: s), lowestMarker s with
    | some m, some n => some (min m.1 n)
    | some m, none => some m.1
    | none, n => n

/-- The text with the markers of the number replaced; the first `skip` characters are left out. -/
def replaceMarker (number : Nat) (a : QString) : Nat → QString → QString
  | _, [] => []
  | skip + 1, _ :: s => replaceMarker number a skip s
  | 0, c :: s =>
    match markerAt (c :: s) with
    | some (n, length) =>
      if n = number then a ++ replaceMarker number a (length - 1) s
      else c :: replaceMarker number a 0 s
    | none => c :: replaceMarker number a 0 s

/-- `QString::arg` -/
def arg (s a : QString) : QString :=
  match lowestMarker s with
  | some number => replaceMarker number a 0 s
  | none => s

/-- Every place marker of the text has a number above `k`. -/
def MarkersAbove (k : Nat) : QString → Prop
  | [] => True
  | c :: s => (∀ m, markerAt (c :: s) = some m → k < m.1) ∧ MarkersAbove k s

/-- A character that no place marker contains. -/
def isSeparator (c : Char) : Bool := !c.isDigit && c != 'L' && c != '%'

theorem markerNumber_append {s : QString} {d : Char} (h : isSeparator d = true) (t : QString) :
    markerNumber (s ++ d :: t) = markerNumber s := by
  have hd : d.isDigit = false := by
    simp only [isSeparator, Bool.and_eq_true, Bool.not_eq_true'] at h
    exact h.1.1
  match s with
  | [] => cases t <;> simp [markerNumber, hd]
  | [c] => simp [markerNumber, hd]
  | c :: e :: s => simp [markerNumber]

/-- A marker does not reach over a separator. -/
theorem markerAt_append {c d : Char} {s : QString} (h : isSeparator d = true) (t : QString) :
    markerAt (c :: s ++ d :: t) = markerAt (c :: s) := by
  have hL : d ≠ 'L' := by
    rintro rfl
    cases h
  cases s with
  | nil =>
    have := @markerNumber_append [] d h t
    simp [markerAt, hL, markerNumber] at this ⊢
    simp [this]
  | cons e s =>
    have hTail := @markerNumber_append s d h t
    have hAll := @markerNumber_append (e :: s) d h t
    simp only [List.cons_append] at hAll
    simp [markerAt, hTail, hAll]

variable {s t a b c : QString} {d : Char} {k n : Nat}

theorem lowestMarker_append (hs : MarkersAbove k s) (hd : isSeparator d = true)
    (ht : lowestMarker (d :: t) = some n) (hn : n ≤ k) :
    lowestMarker (s ++ d :: t) = some n := by
  induction s with
  | nil => exact ht
  | cons e s ih =>
    have hMarker := @markerAt_append e d s hd t
    rw [List.cons_append] at hMarker ⊢
    rw [lowestMarker, ih hs.2, hMarker]
    cases hHere : markerAt (e :: s) with
    | none => rfl
    | some m =>
      have := hs.1 m hHere
      simp only [Option.some.injEq]
      omega

theorem replaceMarker_append (hs : MarkersAbove k s) (hd : isSeparator d = true) (hn : n ≤ k) :
    replaceMarker n a 0 (s ++ d :: t) = s ++ replaceMarker n a 0 (d :: t) := by
  induction s with
  | nil => rfl
  | cons e s ih =>
    have hMarker := @markerAt_append e d s hd t
    rw [List.cons_append] at hMarker ⊢
    rw [replaceMarker, hMarker]
    cases hHere : markerAt (e :: s) with
    | none => simp only [ih hs.2, List.cons_append]
    | some m =>
      have := hs.1 m hHere
      have hne : m.1 ≠ n := by omega
      simp only [if_neg hne, ih hs.2, List.cons_append]

/-- The argument goes behind a text whose own markers are too high. -/
theorem arg_append (hs : MarkersAbove k s) (hd : isSeparator d = true)
    (ht : lowestMarker (d :: t) = some n) (hn : n ≤ k) :
    arg (s ++ d :: t) a = s ++ arg (d :: t) a := by
  rw [arg, arg, lowestMarker_append hs hd ht hn, ht]
  exact replaceMarker_append hs hd hn

theorem MarkersAbove.mono (h : MarkersAbove k s) (hn : n ≤ k) : MarkersAbove n s := by
  induction s with
  | nil => trivial
  | cons e s ih => exact ⟨fun m hm => Nat.lt_of_le_of_lt hn (h.1 m hm), ih h.2⟩

/-- A text without a percent sign has no markers. -/
theorem markersAbove_of_notMem (h : '%' ∉ s) : MarkersAbove k s := by
  induction s with
  | nil => trivial
  | cons e s ih =>
    rw [List.mem_cons, not_or] at h
    refine ⟨fun m hm => ?_, ih h.2⟩
    have hNone : markerAt (e :: s) = none := if_neg fun hEq => h.1 (Option.some.inj hEq).symm
    rw [hNone] at hm
    cases hm

theorem MarkersAbove.append (hs : MarkersAbove k s) (hd : isSeparator d = true)
    (ht : MarkersAbove k (d :: t)) : MarkersAbove k (s ++ d :: t) := by
  induction s with
  | nil => exact ht
  | cons e s ih =>
    exact ⟨fun m hm => hs.1 m ((markerAt_append hd t).symm.trans hm), ih hs.2⟩

theorem MarkersAbove.lt (h : MarkersAbove k s) (hn : lowestMarker s = some n) : k < n := by
  induction s generalizing n with
  | nil => cases hn
  | cons e s ih =>
    rw [lowestMarker] at hn
    cases hHere : markerAt (e :: s) with
    | none =>
      rw [hHere] at hn
      exact ih h.2 (by simpa using hn)
    | some m =>
      have hm := h.1 m hHere
      rw [hHere] at hn
      cases hRest : lowestMarker s with
      | none =>
        rw [hRest] at hn
        cases hn
        exact hm
      | some r =>
        have hr := ih h.2 hRest
        rw [hRest] at hn
        cases hn
        exact Nat.lt_min.mpr ⟨hm, hr⟩

/-- A text has nothing to be replaced where its markers are too high. -/
theorem replaceMarker_of_markersAbove (h : MarkersAbove n s) : replaceMarker n a 0 s = s := by
  induction s with
  | nil => rfl
  | cons e s ih =>
    rw [replaceMarker]
    cases hHere : markerAt (e :: s) with
    | none => simp only [ih h.2]
    | some m =>
      have hne : m.1 ≠ n := Nat.ne_of_gt (h.1 m hHere)
      simp only [if_neg hne, ih h.2]

theorem markerAt_of_ne {c : Char} (h : c ≠ '%') (s : QString) : markerAt (c :: s) = none :=
  if_neg fun hEq => h (Option.some.inj hEq)

theorem ne_percent_of_isSeparator {c : Char} (h : isSeparator c = true) : c ≠ '%' := by
  rintro rfl
  cases h

/-- The marker of a digit before a separator. -/
theorem markerAt_digit {digit e : Char} (hDigit : digit.isDigit = true) (he : isSeparator e = true)
    (t : QString) : markerAt ('%' :: digit :: e :: t) = some (digit.toNat - '0'.toNat, 2) := by
  have hNotDigit : e.isDigit = false := by
    simp only [isSeparator, Bool.and_eq_true, Bool.not_eq_true'] at he
    exact he.1.1
  have hL : digit ≠ 'L' := by
    rintro rfl
    cases hDigit
  simp [markerAt, markerNumber, hDigit, hL, hNotDigit]

theorem MarkersAbove.cons {c : Char} (h : c ≠ '%') (hs : MarkersAbove k s) : MarkersAbove k (c :: s) := by
  refine ⟨fun m hm => ?_, hs⟩
  rw [markerAt_of_ne h] at hm
  cases hm

/-- A text before others has no markers if it has no percent sign. -/
theorem MarkersAbove.of_notMem_append (h : '%' ∉ s) (ht : MarkersAbove k t) : MarkersAbove k (s ++ t) := by
  induction s with
  | nil => exact ht
  | cons e s ih =>
    rw [List.mem_cons, not_or] at h
    exact (ih h.2).cons (Ne.symm h.1)

theorem MarkersAbove.marker {digit e : Char} (hDigit : digit.isDigit = true)
    (hNumber : k < digit.toNat - '0'.toNat) (he : isSeparator e = true) (ht : MarkersAbove k (e :: t)) :
    MarkersAbove k ('%' :: digit :: e :: t) := by
  have hNe : digit ≠ '%' := by
    rintro rfl
    cases hDigit
  refine ⟨fun m hm => ?_, ht.cons hNe⟩
  rw [markerAt_digit hDigit he] at hm
  cases hm
  exact hNumber

/-- The argument goes to the one place of the lowest marker, a digit between separators. -/
theorem arg_once {m e : Char} (hDigit : m.isDigit = true) (hs : MarkersAbove n s)
    (hd : isSeparator d = true) (he : isSeparator e = true) (ht : MarkersAbove n (e :: t))
    (hNumber : m.toNat - '0'.toNat = n) :
    arg (s ++ d :: '%' :: m :: e :: t) a = s ++ d :: (a ++ e :: t) := by
  have hMarker := markerAt_digit hDigit he t
  rw [hNumber] at hMarker
  have hNone := markerAt_of_ne (ne_percent_of_isSeparator hd) ('%' :: m :: e :: t)
  have hNe : m ≠ '%' := by
    rintro rfl
    cases hDigit
  have hLowest : lowestMarker (d :: '%' :: m :: e :: t) = some n := by
    rw [lowestMarker, hNone, lowestMarker, hMarker, lowestMarker, markerAt_of_ne hNe]
    cases hRest : lowestMarker (e :: t) with
    | none => rfl
    | some r => exact congrArg some (Nat.min_eq_left (Nat.le_of_lt (ht.lt hRest)))
  have hRest : replaceMarker n a 1 (m :: e :: t) = e :: t := replaceMarker_of_markersAbove ht
  rw [arg_append hs hd hLowest (Nat.le_refl n), arg, hLowest]
  simp only [replaceMarker, hNone, hMarker, if_true] at hRest ⊢
  rw [hRest]

/-! ### The templates of the inference rules -/

theorem arg_three (ha : MarkersAbove 3 a) (hb : MarkersAbove 3 b) :
    arg (arg (arg "%1 %2 %3".toList a) b) c = a ++ ' ' :: (b ++ ' ' :: c) := by
  have hFirst : arg "%1 %2 %3".toList a = a ++ ' ' :: "%2 %3".toList := rfl
  have hSecond : arg (' ' :: "%2 %3".toList) b = ' ' :: (b ++ ' ' :: "%3".toList) := rfl
  have hThird : arg (' ' :: "%3".toList) c = ' ' :: (c ++ []) := rfl
  have hAB : MarkersAbove 3 (a ++ ' ' :: b) :=
    ha.append rfl ⟨fun m hm => (by cases hm), hb⟩
  rw [hFirst, arg_append ha rfl (n := 2) rfl (by decide), hSecond]
  rw [show a ++ ' ' :: (b ++ ' ' :: "%3".toList) = (a ++ ' ' :: b) ++ ' ' :: "%3".toList by simp,
    arg_append hAB rfl (n := 3) rfl (by decide), hThird]
  simp

theorem arg_language (ha : MarkersAbove 2 a) :
    arg (arg "\"%1\"@%2".toList a) b = '"' :: (a ++ '"' :: '@' :: b) := by
  have hFirst : arg "\"%1\"@%2".toList a = '"' :: (a ++ "\"@%2".toList) := rfl
  have hSecond : arg ('"' :: "@%2".toList) b = '"' :: '@' :: (b ++ []) := rfl
  have hQuoted : MarkersAbove 2 ('"' :: a) := ⟨fun m hm => (by cases hm), ha⟩
  have := arg_append (t := "@%2".toList) (a := b) hQuoted (d := '"') rfl (n := 2) rfl (by decide)
  rw [hSecond, List.append_nil] at this
  rw [hFirst]
  exact this

theorem arg_type (ha : MarkersAbove 2 a) :
    arg (arg "\"%1\"^^<%2>".toList a) b = '"' :: (a ++ '"' :: '^' :: '^' :: '<' :: (b ++ ['>'])) := by
  have hFirst : arg "\"%1\"^^<%2>".toList a = '"' :: (a ++ "\"^^<%2>".toList) := rfl
  have hSecond : arg ('"' :: "^^<%2>".toList) b = '"' :: '^' :: '^' :: '<' :: (b ++ ['>']) := rfl
  have hQuoted : MarkersAbove 2 ('"' :: a) := ⟨fun m hm => (by cases hm), ha⟩
  have := arg_append (t := "^^<%2>".toList) (a := b) hQuoted (d := '"') rfl (n := 2) rfl (by decide)
  rw [hSecond] at this
  rw [hFirst]
  exact this

end QString

end Soprano
