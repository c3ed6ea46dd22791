import Mathlib.Data.Char
import Soprano.DateTime
import Soprano.Library.Separated

/-! The comparisons of Virtuoso versions, which compare texts. -/

namespace Soprano

namespace Virtuoso

/-- `QString::indexOf` of a text -/
def indexOfText (s text : QString) : Option Nat := s.tails.findIdx? (text.isPrefixOf ·)

def parseVirtuosoVersion (erroutput : QString) : QString :=
  match indexOfText erroutput "Version".toList with
  | some vp =>
    if 0 < vp then
      let vp := vp + 8
      erroutput.midAt vp (erroutput.indexOfAt ' ' vp - vp)
    else []
  | none => []

/-- The check of `BackendPlugin::isAvailable` against the minimum version. -/
def belowMinimum (vs : QString) : Bool := vs < "5.0.12".toList

/-- `BackendPlugin::isAvailable`, given the driver, the server's binary and what that one prints. -/
def isAvailable (driver virtuosoBin erroutput : QString) : Bool :=
  if driver.isEmpty then false
  else if virtuosoBin.isEmpty then false
  else
    let vs := parseVirtuosoVersion erroutput
    if vs.isEmpty then false else !belowMinimum vs

/-- The check of `removeAllStatements` for the deletion of a pattern in any graph. -/
def supportsPatternDelete (virtuosoVersion : QString) : Bool := "6.1.5".toList ≤ virtuosoVersion

/-! ### Versions as numbers -/

/-- The digits of each number of a version. -/
abbrev Version : Type := List QString

def IsDigits (c : QString) : Prop := c ≠ [] ∧ ∀ d ∈ c, '0' ≤ d ∧ d ≤ '9'

def IsVersion (v : Version) : Prop := v ≠ [] ∧ ∀ c ∈ v, IsDigits c

instance (c : QString) : Decidable (IsDigits c) :=
  decidable_of_iff (c ≠ [] ∧ c.all (fun d => '0' ≤ d && d ≤ '9') = true) (by simp [IsDigits])

instance (v : Version) : Decidable (IsVersion v) := inferInstanceAs (Decidable (_ ∧ _))

def Version.text (v : Version) : QString := ['.'].intercalate v

def number (c : QString) : Nat := Nat.ofDigitChars 10 c 0

def Version.numbers (v : Version) : List Nat := v.map number

/-- Where a version first differs from the required one, it has as many digits, or the order of the digits
happens to be the numeric one. -/
def Ordered : (required v : Version) → Prop
  | r :: required, c :: v =>
    if c = r then Ordered required v
    else c.length = r.length ∨
      (c < r ↔ number c < number r ∨ number c = number r ∧ Version.numbers v < Version.numbers required)
  | _, _ => True

/-- The text of a version is less than the required one's exactly if the numbers are. -/
def DecidesNumerically (required v : Version) : Prop :=
  v.text < required.text ↔ v.numbers < required.numbers

theorem digit_lt_iff {x y : Char} (hx : '0' ≤ x ∧ x ≤ '9') (hy : '0' ≤ y ∧ y ≤ '9') :
    (x < y ↔ x.toNat - '0'.toNat < y.toNat - '0'.toNat) ∧ (x = y ↔ x.toNat - '0'.toNat = y.toNat - '0'.toNat) ∧
      x.toNat - '0'.toNat ≤ 9 ∧ y.toNat - '0'.toNat ≤ 9 := by
  simp only [Char.le_def, UInt32.le_iff_toNat_le, show '0'.val.toNat = 48 from rfl,
    show '9'.val.toNat = 57 from rfl] at hx hy
  simp only [Char.lt_def, UInt32.lt_iff_toNat_lt, ← Char.toNat_inj, Char.toNat, show '0'.val.toNat = 48 from rfl]
  omega

/-- As many digits behind two numbers decide if the numbers do not. -/
theorem ofDigitChars_lt_iff {c r : QString} (hc : ∀ d ∈ c, '0' ≤ d ∧ d ≤ '9') (hr : ∀ d ∈ r, '0' ≤ d ∧ d ≤ '9')
    (hLength : c.length = r.length) (m n : Nat) :
    Nat.ofDigitChars 10 c m < Nat.ofDigitChars 10 r n ↔ m < n ∨ m = n ∧ c < r := by
  induction c generalizing r m n with
  | nil =>
    obtain rfl := List.length_eq_zero_iff.mp hLength.symm
    simp [Nat.ofDigitChars]
  | cons x c ih =>
    cases r with
    | nil => cases hLength
    | cons y r =>
      obtain ⟨hx, hc⟩ := List.forall_mem_cons.mp hc
      obtain ⟨hy, hr⟩ := List.forall_mem_cons.mp hr
      obtain ⟨hLt, hEq, hMaxX, hMaxY⟩ := digit_lt_iff hx hy
      rw [Nat.ofDigitChars_cons, Nat.ofDigitChars_cons, ih hc hr (Nat.succ.inj hLength), List.cons_lt_cons_iff,
        hLt, hEq]
      generalize x.toNat - '0'.toNat = i at hMaxX ⊢
      generalize y.toNat - '0'.toNat = j at hMaxY ⊢
      by_cases hRest : c < r
      · simp only [hRest, and_true]
        omega
      · simp only [hRest, and_false, or_false]
        omega

theorem number_lt_iff {c r : QString} (hc : IsDigits c) (hr : IsDigits r) (hLength : c.length = r.length) :
    number c < number r ↔ c < r := by
  rw [number, number, ofDigitChars_lt_iff hc.2 hr.2 hLength]
  simp

/-- The components are ordered as their numbers exactly under the condition. -/
theorem ordered_iff {required v : Version} (hRequired : ∀ r ∈ required, IsDigits r) (hv : ∀ c ∈ v, IsDigits c) :
    (v < required ↔ v.numbers < required.numbers) ↔ Ordered required v := by
  fun_induction Ordered required v with
  | case1 required c v ih =>
    rw [← ih (List.forall_mem_cons.mp hRequired).2 (List.forall_mem_cons.mp hv).2]
    simp [Version.numbers]
  | case2 r required c v hNe =>
    have hc := (List.forall_mem_cons.mp hv).1
    have hr := (List.forall_mem_cons.mp hRequired).1
    simp only [Version.numbers, List.map_cons, List.cons_lt_cons_iff, hNe, false_and, or_false]
    refine ⟨.inr, ?_⟩
    rintro (hLength | h)
    · -- Numbers of as many digits are the same only if their digits are.
      have hOther := number_lt_iff hr hc hLength.symm
      have hGt : ¬ c < r → r < c := fun h => lt_of_le_of_ne (not_lt.mp h) (Ne.symm hNe)
      rw [number_lt_iff hc hr hLength]
      refine ⟨.inl, ?_⟩
      rintro (hLess | ⟨hSame, -⟩)
      · exact hLess
      · by_contra hNot
        exact absurd (hOther.mpr (hGt hNot)) (by omega)
    · exact h
  | case3 required v h =>
    match required, v, h with
    | [], v, _ => simp [Version.numbers]
    | r :: required, [], _ => simp [Version.numbers]
    | r :: required, c :: v, h => exact absurd rfl (h r required c v rfl)

theorem decidesNumerically_iff {required v : Version} (hRequired : IsVersion required) (hv : IsVersion v) :
    DecidesNumerically required v ↔ Ordered required v := by
  have hDot : ∀ w : Version, IsVersion w → ∀ c ∈ w, ∀ d ∈ c, '.' < d := fun w hw c hc d hd =>
    lt_of_lt_of_le (by decide : '.' < '0') ((hw.2 c hc).2 d hd).1
  rw [DecidesNumerically, Version.text, Version.text,
    Separated.intercalate_lt_iff hv.1 hRequired.1 (hDot v hv) (hDot required hRequired)]
  exact ordered_iff hRequired.2 hv.2

/-! ### The gates -/

def minimumVersion : Version := [['5'], ['0'], ['1', '2']]

def patternDeleteVersion : Version := [['6'], ['1'], ['5']]

/-- An output of the server's binary, with its version between a space and another one. -/
structure Prints (erroutput : QString) (v : Version) : Prop where
  printed : ∃ before after, before ≠ [] ∧ indexOfText erroutput "Version".toList = some before.length ∧
    erroutput = before ++ ("Version ".toList ++ (v.text ++ ' ' :: after))

theorem space_not_mem {v : Version} (hv : IsVersion v) : ' ' ∉ v.text := by
  have hNe : ∀ d ∈ v.text, d ≠ ' ' := by
    refine Separated.forall_mem_intercalate (by decide) fun c hc d hd => ?_
    exact (lt_of_lt_of_le (by decide : ' ' < '0') ((hv.2 c hc).2 d hd).1).ne'
  exact fun hMem => hNe ' ' hMem rfl

theorem parseVirtuosoVersion_eq {erroutput : QString} {v : Version} (hv : IsVersion v)
    (h : Prints erroutput v) : parseVirtuosoVersion erroutput = v.text := by
  obtain ⟨before, after, hBefore, hIndex, hText⟩ := h.printed
  have hDrop : erroutput.drop (before.length + 8) = v.text ++ ' ' :: after := by
    rw [hText, ← List.append_assoc]
    exact List.drop_left' (List.length_append.trans rfl)
  have hSpace := QString.indexOf_of_drop hDrop (space_not_mem hv)
  have hIndexAt : erroutput.indexOfAt ' ' (before.length + 8 : Nat) = (before.length + 8 + v.text.length : Nat) := by
    rw [QString.indexOfAt, if_neg (by omega)]
    simp only [Int.toNat_natCast, hSpace]
  unfold parseVirtuosoVersion
  rw [hIndex]
  simp only [List.length_pos_iff.mpr hBefore, if_true, hIndexAt, QString.midAt]
  rw [if_neg (by omega), if_neg (by omega), Int.toNat_natCast, hDrop]
  exact List.take_left' (by omega)

theorem prints_line (v : Version) : Prints (' ' :: ("Version ".toList ++ (v.text ++ ' ' :: []))) v := by
  refine ⟨[' '], [], List.cons_ne_nil _ _, ?_, rfl⟩
  simp [indexOfText, List.findIdx?_cons]

theorem belowMinimum_iff {v : Version} (hv : IsVersion v) :
    (belowMinimum v.text = true ↔ v.numbers < [5, 0, 12]) ↔ Ordered minimumVersion v := by
  rw [← decidesNumerically_iff (by decide) hv, belowMinimum, decide_eq_true_iff]
  rfl

theorem supportsPatternDelete_iff {v : Version} (hv : IsVersion v) :
    (supportsPatternDelete v.text = true ↔ [6, 1, 5] ≤ v.numbers) ↔ Ordered patternDeleteVersion v := by
  rw [← decidesNumerically_iff (by decide) hv, supportsPatternDelete, decide_eq_true_iff, ← not_lt,
    ← not_lt, not_iff_not]
  rfl

theorem text_ne_nil {v : Version} (hv : IsVersion v) : v.text ≠ [] := by
  obtain ⟨c, v, rfl⟩ := List.exists_cons_of_ne_nil hv.1
  obtain ⟨d, c, rfl⟩ := List.exists_cons_of_ne_nil (hv.2 _ List.mem_cons_self).1
  rw [Version.text, Separated.intercalate_cons]
  exact List.cons_ne_nil _ _

theorem isAvailable_eq {driver virtuosoBin erroutput : QString} {v : Version} (hDriver : driver ≠ [])
    (hBin : virtuosoBin ≠ []) (hv : IsVersion v) (h : Prints erroutput v) :
    isAvailable driver virtuosoBin erroutput = !belowMinimum v.text := by
  simp [isAvailable, hDriver, hBin, parseVirtuosoVersion_eq hv h, text_ne_nil hv]

/-- Each gate decides by the numbers of a printed version exactly where its text is ordered as they are. -/
theorem gates_iff {v : Version} (hv : IsVersion v) {driver virtuosoBin : QString} (hDriver : driver ≠ [])
    (hBin : virtuosoBin ≠ []) :
    ((∀ erroutput, Prints erroutput v →
      (isAvailable driver virtuosoBin erroutput = true ↔ [5, 0, 12] ≤ v.numbers)) ↔
        Ordered minimumVersion v) ∧
    ((∀ erroutput, Prints erroutput v →
      (supportsPatternDelete (parseVirtuosoVersion erroutput) = true ↔ [6, 1, 5] ≤ v.numbers)) ↔
        Ordered patternDeleteVersion v) := by
  constructor
  · rw [← belowMinimum_iff hv, ← not_lt]
    have hAvailable : ∀ erroutput, Prints erroutput v →
        (isAvailable driver virtuosoBin erroutput = true ↔ ¬ belowMinimum v.text = true) := by
      intro erroutput hPrints
      rw [isAvailable_eq hDriver hBin hv hPrints, Bool.not_eq_true', Bool.not_eq_true]
    constructor
    · intro h
      rw [← not_iff_not, ← hAvailable _ (prints_line v)]
      exact h _ (prints_line v)
    · intro h erroutput hPrints
      rw [hAvailable erroutput hPrints, h]
  · rw [← supportsPatternDelete_iff hv]
    constructor
    · intro h
      have hLine := h _ (prints_line v)
      rwa [parseVirtuosoVersion_eq hv (prints_line v)] at hLine
    · intro h erroutput hPrints
      rwa [parseVirtuosoVersion_eq hv hPrints]

theorem gates_known :
    ((∀ erroutput, Prints erroutput [['6'], ['1'], ['6'], ['3', '1', '2', '7']] →
      (isAvailable "/usr/lib/virtodbc.so".toList "/usr/bin/virtuoso-t".toList erroutput = true ↔
        [5, 0, 12] ≤ Version.numbers [['6'], ['1'], ['6'], ['3', '1', '2', '7']])) ↔
          Ordered minimumVersion [['6'], ['1'], ['6'], ['3', '1', '2', '7']]) ∧
    ((∀ erroutput, Prints erroutput [['6'], ['1'], ['6'], ['3', '1', '2', '7']] →
      (supportsPatternDelete (parseVirtuosoVersion erroutput) = true ↔
        [6, 1, 5] ≤ Version.numbers [['6'], ['1'], ['6'], ['3', '1', '2', '7']])) ↔
          Ordered patternDeleteVersion [['6'], ['1'], ['6'], ['3', '1', '2', '7']]) :=
  gates_iff (by decide) (by decide) (by decide)

/-- The version 6.1.10 is taken for one before 6.1.5. -/
theorem not_gates : ¬ ∀ v : Version, IsVersion v → ∀ erroutput, Prints erroutput v →
    (supportsPatternDelete (parseVirtuosoVersion erroutput) = true ↔ [6, 1, 5] ≤ v.numbers) := by
  intro h
  have hGate := h [['6'], ['1'], ['1', '0']] (by decide) _ (prints_line _)
  rw [parseVirtuosoVersion_eq (by decide) (prints_line _)] at hGate
  exact absurd hGate (by decide)

/-- The version 5.0.2 is taken for one of the minimum, and the version 10.0.0 for one below it. -/
example : belowMinimum "5.0.2".toList = false ∧ belowMinimum "10.0.0".toList = true := by decide

end Virtuoso

end Soprano
