import Mathlib.Data.Set.Basic

/-! A view of a set of rows: the values that a partial function gives for them.  A view can be kept up
to date by inserting and removing values; where two rows give one value, removing it for one of them
is wrong. -/

namespace View

variable {α β : Type*} {f : α → Option β} {S D : Set α} {a : α} {b : β}

/-- The values of the rows. -/
def view (f : α → Option β) (S : Set α) : Set β := {b | ∃ a ∈ S, f a = some b}

theorem view_insert_some (h : f a = some b) : view f (insert a S) = insert b (view f S) := by
  ext c
  constructor
  · rintro ⟨x, rfl | hx, hc⟩
    · exact .inl (Option.some.inj (hc.symm.trans h))
    · exact .inr ⟨x, hx, hc⟩
  · rintro (rfl | ⟨x, hx, hc⟩)
    · exact ⟨a, .inl rfl, h⟩
    · exact ⟨x, .inr hx, hc⟩

theorem view_insert_none (h : f a = none) : view f (insert a S) = view f S := by
  ext c
  constructor
  · rintro ⟨x, rfl | hx, hc⟩
    · rw [h] at hc
      cases hc
    · exact ⟨x, hx, hc⟩
  · rintro ⟨x, hx, hc⟩
    exact ⟨x, .inr hx, hc⟩

/-- Removing the values of rows is right if and only if none of them is the value of a row that
stays. -/
theorem view_diff_iff :
    view f (S \ D) = view f S \ view f D ↔ ∀ x ∈ S \ D, ∀ b, f x = some b → b ∉ view f D := by
  constructor
  · intro h x hx b hb
    have hMem : b ∈ view f (S \ D) := ⟨x, hx, hb⟩
    rw [h] at hMem
    exact hMem.2
  · intro h
    ext b
    constructor
    · rintro ⟨x, hx, hb⟩
      exact ⟨⟨x, hx.1, hb⟩, h x hx b hb⟩
    · rintro ⟨⟨x, hx, hb⟩, hNot⟩
      exact ⟨x, ⟨hx, fun hD => hNot ⟨x, hD, hb⟩⟩, hb⟩

end View
