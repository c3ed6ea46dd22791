import Mathlib.Data.List.Basic

/-! Texts with holes, and the values that fill them in order. -/

namespace Soprano

namespace Template

variable {α β : Type*}

/-- The number of holes. -/
def holes (template : List (Option α)) : Nat := template.countP Option.isNone

@[simp] theorem holes_nil : holes ([] : List (Option α)) = 0 := rfl

@[simp] theorem holes_none (template : List (Option α)) : holes (none :: template) = holes template + 1 :=
  List.countP_cons_of_pos rfl

@[simp] theorem holes_some (a : α) (template : List (Option α)) :
    holes (some a :: template) = holes template :=
  List.countP_cons_of_neg (by simp)

@[simp] theorem holes_append (first second : List (Option α)) :
    holes (first ++ second) = holes first + holes second :=
  List.countP_append

@[simp] theorem holes_known (text : List α) : holes (text.map some) = 0 := by
  induction text with
  | nil => rfl
  | cons a text ih => simp [ih]

/-- The template with its holes filled, if there are as many values as holes. -/
def fill : List (Option α) → List β → Option (List (α ⊕ β))
  | [], [] => some []
  | [], _ :: _ => none
  | some a :: template, values => (fill template values).map (.inl a :: ·)
  | none :: _, [] => none
  | none :: template, v :: values => (fill template values).map (.inr v :: ·)

@[simp] theorem fill_some (a : α) (template : List (Option α)) (values : List β) :
    fill (some a :: template) values = (fill template values).map (.inl a :: ·) := by
  cases values <;> rfl

/-- A filled template takes all of the values. -/
theorem holes_of_fill {template : List (Option α)} {values : List β} {filled : List (α ⊕ β)}
    (h : fill template values = some filled) : holes template = values.length := by
  induction template generalizing values filled with
  | nil =>
    cases values with
    | nil => rfl
    | cons v values => cases h
  | cons piece template ih =>
    cases piece with
    | some a =>
      rw [fill_some] at h
      obtain ⟨rest, hRest, -⟩ := Option.map_eq_some_iff.mp h
      rw [holes_some]
      exact ih hRest
    | none =>
      cases values with
      | nil => cases h
      | cons v values =>
        obtain ⟨rest, hRest, -⟩ := Option.map_eq_some_iff.mp h
        rw [holes_none, List.length_cons, ih hRest]

theorem fill_append {first second : List (Option α)} {v w : List β} {filled rest : List (α ⊕ β)}
    (hFirst : fill first v = some filled) (hSecond : fill second w = some rest) :
    fill (first ++ second) (v ++ w) = some (filled ++ rest) := by
  induction first generalizing v filled with
  | nil =>
    cases v with
    | nil =>
      cases hFirst
      exact hSecond
    | cons => cases hFirst
  | cons piece first ih =>
    cases piece with
    | some a =>
      rw [fill_some] at hFirst
      obtain ⟨middle, hMiddle, rfl⟩ := Option.map_eq_some_iff.mp hFirst
      rw [List.cons_append, fill_some, ih hMiddle]
      rfl
    | none =>
      cases v with
      | nil => cases hFirst
      | cons value v =>
        obtain ⟨middle, hMiddle, rfl⟩ := Option.map_eq_some_iff.mp hFirst
        rw [List.cons_append, List.cons_append, fill, ih hMiddle]
        rfl

theorem fill_known (text : List α) : fill (text.map some) ([] : List β) = some (text.map .inl) := by
  induction text with
  | nil => rfl
  | cons a text ih => simp [ih]

end Template

end Soprano
