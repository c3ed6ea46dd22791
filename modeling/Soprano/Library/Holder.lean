import Mathlib.Logic.Function.Basic

/-! A variable that says which one of many threads is in a condition, such as the owner of a mutex,
against the local states of the threads. -/

namespace Soprano

variable {τ α : Type} {P Q : α → Prop} {threads : τ → α} {t u : τ} {a : α} {holder : Option τ}

/-- The holder is the one thread whose local state meets the condition. -/
def Held (P : α → Prop) (threads : τ → α) (holder : Option τ) : Prop :=
  ∀ t, holder = some t ↔ P (threads t)

namespace Held

theorem eq_of_meets (h : Held P threads holder) (hu : P (threads u)) : holder = some u := (h u).mpr hu

theorem unique (h : Held P threads holder) (ht : P (threads t)) (hu : P (threads u)) : t = u :=
  Option.some.inj ((h.eq_of_meets ht).symm.trans (h.eq_of_meets hu))

/-- Nobody meets a stronger condition than the holder's unless the holder does. -/
theorem none_of_weaker (h : Held P threads (some t)) (hWeaker : ∀ a, Q a → P a)
    (hNot : ¬ Q (threads t)) (hQ : Held Q threads holder) : holder = none := by
  cases holder with
  | none => rfl
  | some u =>
    have hu : Q (threads u) := (hQ u).mp rfl
    obtain rfl : t = u := h.unique ((h t).mp rfl) (hWeaker _ hu)
    exact absurd hu hNot

/-- Where nobody meets a condition, nobody meets a stronger one. -/
theorem none_of_none (h : Held P threads none) (hWeaker : ∀ a, Q a → P a)
    (hQ : Held Q threads holder) : holder = none := by
  cases holder with
  | none => rfl
  | some u => exact nomatch (h u).mpr (hWeaker _ ((hQ u).mp rfl))

variable [DecidableEq τ]

/-- A thread moves and meets the condition as before. -/
theorem frame (h : Held P threads holder) (ha : P a ↔ P (threads t)) :
    Held P (Function.update threads t a) holder := by
  intro u
  by_cases hu : u = t
  · subst hu
    rw [Function.update_self, ha]
    exact h u
  · rw [Function.update_of_ne hu]
    exact h u

/-- A thread comes to meet the condition that nobody met. -/
theorem acquire (h : Held P threads none) (ha : P a) : Held P (Function.update threads t a) (some t) := by
  intro u
  by_cases hu : u = t
  · subst hu
    rw [Function.update_self]
    exact ⟨fun _ => ha, fun _ => rfl⟩
  · rw [Function.update_of_ne hu, ← h u]
    exact ⟨fun hEq => absurd (Option.some.inj hEq).symm hu, nofun⟩

/-- The holder leaves the condition. -/
theorem release (h : Held P threads (some t)) (ha : ¬ P a) :
    Held P (Function.update threads t a) none := by
  intro u
  by_cases hu : u = t
  · subst hu
    rw [Function.update_self]
    exact ⟨nofun, fun hP => absurd hP ha⟩
  · rw [Function.update_of_ne hu, ← h u]
    exact ⟨nofun, fun hEq => absurd (Option.some.inj hEq).symm hu⟩

end Held

end Soprano
