import Mathlib

/-! The order of texts whose words are separated by a letter that is less than all of theirs. -/

namespace Soprano

namespace Separated

variable {α : Type*} [LinearOrder α] {sep : α}

/-- What follows a word: nothing, or a separator and more. -/
inductive Rest (sep : α) : List α → Prop where
  | nil : Rest sep []
  | cons (text : List α) : Rest sep (sep :: text)

/-- The words decide before what follows them. -/
theorem append_lt_append_iff {w v t u : List α} (hw : ∀ x ∈ w, sep < x) (hv : ∀ x ∈ v, sep < x)
    (ht : Rest sep t) (hu : Rest sep u) : w ++ t < v ++ u ↔ w < v ∨ w = v ∧ t < u := by
  induction w generalizing v with
  | nil =>
    cases v with
    | nil => simp
    | cons y v =>
      have hy := hv y List.mem_cons_self
      cases ht with
      | nil => simp
      | cons text => simp [List.cons_lt_cons_iff, hy]
  | cons x w ih =>
    have hx := hw x List.mem_cons_self
    cases v with
    | nil =>
      cases hu with
      | nil => simp
      | cons text => simp [List.cons_lt_cons_iff, hx.not_gt, hx.ne']
    | cons y v =>
      simp only [List.cons_append, List.cons_lt_cons_iff, List.cons.injEq,
        ih (fun z hz => hw z (List.mem_cons_of_mem _ hz)) fun z hz => hv z (List.mem_cons_of_mem _ hz)]
      tauto

/-- What follows the first word in a text. -/
def after (sep : α) : List (List α) → List α
  | [] => []
  | w :: words => sep :: [sep].intercalate (w :: words)

omit [LinearOrder α] in
theorem rest_after (words : List (List α)) : Rest sep (after sep words) := by
  cases words with
  | nil => exact .nil
  | cons w words => exact .cons _

omit [LinearOrder α] in
theorem intercalate_cons (w : List α) (words : List (List α)) :
    [sep].intercalate (w :: words) = w ++ after sep words := by
  cases words with
  | nil => simp [after, List.intercalate]
  | cons v words => simp [after, List.intercalate]

omit [LinearOrder α] in
/-- The letters of a text are those of its words, and separators. -/
theorem forall_mem_intercalate {P : α → Prop} (hSep : P sep) {words : List (List α)}
    (h : ∀ w ∈ words, ∀ x ∈ w, P x) : ∀ x ∈ [sep].intercalate words, P x := by
  induction words with
  | nil => nofun
  | cons w words ih =>
    obtain ⟨hw, hWords⟩ := List.forall_mem_cons.mp h
    rw [intercalate_cons, List.forall_mem_append]
    refine ⟨hw, ?_⟩
    cases words with
    | nil => nofun
    | cons v words => exact List.forall_mem_cons.mpr ⟨hSep, ih hWords⟩

/-- Texts are ordered as their lists of words are. -/
theorem intercalate_lt_iff {a b : List (List α)} (ha : a ≠ []) (hb : b ≠ [])
    (hA : ∀ w ∈ a, ∀ x ∈ w, sep < x) (hB : ∀ w ∈ b, ∀ x ∈ w, sep < x) :
    [sep].intercalate a < [sep].intercalate b ↔ a < b := by
  induction a generalizing b with
  | nil => exact absurd rfl ha
  | cons w a ih =>
    obtain ⟨v, b, rfl⟩ := List.exists_cons_of_ne_nil hb
    obtain ⟨hw, hA⟩ := List.forall_mem_cons.mp hA
    obtain ⟨hv, hB⟩ := List.forall_mem_cons.mp hB
    have hAfter : after sep a < after sep b ↔ a < b := by
      cases a with
      | nil => cases b <;> simp [after]
      | cons w' a =>
        cases b with
        | nil => simp [after]
        | cons v' b =>
          rw [after, after, List.cons_lt_cons_iff, ih (List.cons_ne_nil _ _) (List.cons_ne_nil _ _) hA hB]
          simp
    rw [intercalate_cons, intercalate_cons, append_lt_append_iff hw hv (rest_after a) (rest_after b), hAfter,
      List.cons_lt_cons_iff]

end Separated

end Soprano
