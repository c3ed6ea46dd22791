import Soprano.LanguageTag

/-! The grammar of valid language tags, which the loop of `isValid` recognizes. -/

namespace Soprano

namespace LanguageTag

def Letter (c : Char) : Prop := 'A' ≤ c ∧ c ≤ 'Z' ∨ 'a' ≤ c ∧ c ≤ 'z'

def LetterOrDigit (c : Char) : Prop := Letter c ∨ '0' ≤ c ∧ c ≤ '9'

/-- A subtag of one to eight characters of a kind. -/
def IsSubTag (kind : Char → Prop) (sub : QString) : Prop :=
  (1 ≤ sub.length ∧ sub.length ≤ 8) ∧ ∀ c ∈ sub, kind c

/-- A single character does not end the subtags but after a private use. -/
def EndsWell (st : List QString) : Prop :=
  ∀ sub ∈ st.getLast?, sub.length = 1 → ['x'] ∈ st.dropLast

/-- The documented texts: subtags with hyphens between them. -/
def Grammar (text : QString) : Prop :=
  ∃ primary rest, text = ['-'].intercalate (primary :: rest) ∧ IsSubTag Letter primary ∧
    (∀ sub ∈ rest, IsSubTag LetterOrDigit sub) ∧ EndsWell (primary :: rest)

theorem isAlpha_iff (c : Char) : c.isAlpha = true ↔ Letter c := by
  simp [Letter, Char.isAlpha, Char.isUpper, Char.isLower, Char.le_def]

theorem isAlphanum_iff (c : Char) : c.isAlphanum = true ↔ LetterOrDigit c := by
  rw [LetterOrDigit, ← isAlpha_iff]
  simp [Char.isAlphanum, Char.isDigit, Char.le_def]

theorem IsSubTag.hyphen_not_mem {kind : Char → Prop} {sub : QString} (h : IsSubTag kind sub)
    (hHyphen : ¬ kind '-') : '-' ∉ sub := fun hMem => hHyphen (h.2 '-' hMem)

/-- Before more subtags, a private use permits any end. -/
theorem endsWell_cons {sub : QString} {st : List QString} (h : st ≠ []) :
    EndsWell (sub :: st) ↔ sub = ['x'] ∨ EndsWell st := by
  obtain ⟨next, st, rfl⟩ := List.exists_cons_of_ne_nil h
  rw [EndsWell, EndsWell, List.getLast?_cons_cons, List.dropLast_cons_cons]
  constructor
  · intro hEnd
    by_cases hSub : sub = ['x']
    · exact .inl hSub
    · refine .inr fun last hLast hSingle => ?_
      exact (List.mem_cons.mp (hEnd last hLast hSingle)).resolve_left (Ne.symm hSub)
  · rintro (rfl | hEnd) last hLast hSingle
    · exact List.mem_cons_self
    · exact List.mem_cons_of_mem _ (hEnd last hLast hSingle)

/-- The subtags from `s` on are checked for their characters, and for their end until a private use. -/
def ValidFrom (s : Nat) (privateUse : Bool) (st : List QString) : Prop :=
  (∀ sub ∈ st.head?, IsSubTag (if s = 0 then Letter else LetterOrDigit) sub) ∧
    (∀ sub ∈ st.tail, IsSubTag LetterOrDigit sub) ∧ (privateUse = true ∨ EndsWell st)

theorem validFrom_nil (s : Nat) (privateUse : Bool) : ValidFrom s privateUse [] := by
  simp [ValidFrom, EndsWell]

/-- A turn of the loop. -/
theorem validFrom_cons {s : Nat} {privateUse : Bool} {sub : QString} {st : List QString} :
    ValidFrom s privateUse (sub :: st) ↔
      IsSubTag (if s = 0 then Letter else LetterOrDigit) sub ∧
        (privateUse = true ∨ ¬ (sub.length = 1 ∧ st = [])) ∧
        ValidFrom (s + 1) (privateUse || sub = ['x']) st := by
  cases st with
  | nil => simp [ValidFrom, EndsWell]
  | cons next st =>
    simp [ValidFrom, endsWell_cons (List.cons_ne_nil next st)]
    tauto

theorem validSubTags_iff (s : Nat) (privateUse : Bool) (st : List QString) :
    validSubTags s privateUse st = true ↔ ValidFrom s privateUse st := by
  induction st generalizing s privateUse with
  | nil => exact iff_of_true rfl (validFrom_nil s privateUse)
  | cons sub st ih =>
    have hKind : (if s = 0 then sub.all Char.isAlpha else sub.all Char.isAlphanum) = true ↔
        ∀ c ∈ sub, (if s = 0 then Letter else LetterOrDigit) c := by
      split
      · simp only [List.all_eq_true, isAlpha_iff]
      · simp only [List.all_eq_true, isAlphanum_iff]
    rw [validFrom_cons, validSubTags, Bool.and_eq_true, Bool.and_eq_true, Bool.and_eq_true, hKind, ih]
    simp only [IsSubTag, Bool.and_eq_true, Bool.or_eq_true, Bool.not_eq_true', Bool.and_eq_false_iff,
      decide_eq_true_eq, decide_eq_false_iff_not, List.isEmpty_eq_false_iff, not_and_or, and_assoc]

theorem not_letterOrDigit_hyphen : ¬ LetterOrDigit '-' := by
  unfold LetterOrDigit Letter
  decide

/-- A tag is valid exactly if its text is a documented one. -/
theorem isValid_iff_grammar [Qt] (tag : LanguageTag) : tag.isValid = true ↔ Grammar tag.toString := by
  rw [isValid, validSubTags_iff]
  constructor
  · intro hValid
    obtain ⟨primary, rest, hSplit⟩ := List.exists_cons_of_ne_nil (subTags_ne_nil tag)
    rw [hSplit] at hValid
    obtain ⟨hPrimary, hRest, hEnd⟩ := hValid
    refine ⟨primary, rest, ?_, hPrimary primary rfl, hRest, hEnd.resolve_left (by decide)⟩
    rw [← hSplit]
    exact (intercalate_split tag.toString).symm
  · rintro ⟨primary, rest, hText, hPrimary, hRest, hEnd⟩
    have hHyphen : ∀ sub ∈ primary :: rest, '-' ∉ sub := by
      rintro sub (_ | ⟨_, hSub⟩)
      · exact hPrimary.hyphen_not_mem fun h => not_letterOrDigit_hyphen (.inl h)
      · exact (hRest sub hSub).hyphen_not_mem not_letterOrDigit_hyphen
    have hSplit : tag.subTags = primary :: rest := by
      rw [subTags, hText, List.splitOn_intercalate '-' hHyphen (List.cons_ne_nil _ _)]
    rw [hSplit]
    refine ⟨?_, hRest, .inr hEnd⟩
    rintro sub ⟨⟩
    exact hPrimary

section Example

local instance validityQt : Qt := asciiQt

/-- A leading private use permits a final single character, but is none by itself. -/
example : ([['x', '-', 'a'], ['x'], ['e', 'n', '-', 'x', '-', 'x'], ['e', 'n', '-', 'x']].map
    fun text => (ofString text).isValid) = [true, false, true, false] := by decide

end Example

end LanguageTag

end Soprano
