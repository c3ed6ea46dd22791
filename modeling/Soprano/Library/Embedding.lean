import Mathlib.Data.List.Basic
import Mathlib.Data.List.Pairwise

/-! Embeddings of a list in another one that skip only elements which may be skipped, and the greedy scan
that finds one if there is one: an element that may be taken is taken. -/

namespace Embedding

variable {α : Type} {Skippable : α → Prop} {a b : α} {xs ys : List α}

/-- The elements of `ys` stand in `xs` at increasing positions, and what is skipped before the last of them
may be skipped. -/
def Embeds (Skippable : α → Prop) (xs ys : List α) : Prop :=
  ∃ positions : List Nat, positions.Pairwise (· < ·) ∧ positions.map (xs[·]?) = ys.map some ∧
    ∀ j, (∃ k ∈ positions, j < k) → j ∉ positions → ∀ x ∈ xs[j]?, Skippable x

theorem embeds_nil : Embeds Skippable xs [] := ⟨[], .nil, rfl, by simp⟩

theorem not_embeds_cons_nil : ¬ Embeds Skippable [] (b :: ys) := by
  rintro ⟨positions, -, hMap, -⟩
  cases positions with
  | nil => cases hMap
  | cons k positions => simp at hMap

/-- The first element is taken. -/
theorem Embeds.take (h : Embeds Skippable xs ys) : Embeds Skippable (a :: xs) (a :: ys) := by
  obtain ⟨positions, hIncreasing, hMap, hSkipped⟩ := h
  refine ⟨0 :: positions.map (· + 1), ?_, ?_, fun j hj hNot => ?_⟩
  · refine List.pairwise_cons.mpr ⟨by simp, List.pairwise_map.mpr (hIncreasing.imp ?_)⟩
    intro k l hkl
    omega
  · simpa [List.map_map, Function.comp_def] using hMap
  · cases j with
    | zero => exact absurd List.mem_cons_self hNot
    | succ j =>
      obtain ⟨k, hk, hLt⟩ := hj
      rcases List.mem_cons.mp hk with rfl | hk
      · omega
      · obtain ⟨i, hi, rfl⟩ := List.mem_map.mp hk
        refine hSkipped j ⟨i, hi, by omega⟩ fun hMem => hNot ?_
        exact List.mem_cons_of_mem _ (List.mem_map.mpr ⟨j, hMem, rfl⟩)

/-- The first element is skipped. -/
theorem Embeds.skip (ha : Skippable a) (h : Embeds Skippable xs ys) : Embeds Skippable (a :: xs) ys := by
  obtain ⟨positions, hIncreasing, hMap, hSkipped⟩ := h
  refine ⟨positions.map (· + 1), ?_, ?_, fun j hj hNot => ?_⟩
  · refine List.pairwise_map.mpr (hIncreasing.imp ?_)
    intro k l hkl
    omega
  · simpa [List.map_map, Function.comp_def] using hMap
  · cases j with
    | zero =>
      rintro x hx
      obtain rfl := Option.some.inj hx
      exact ha
    | succ j =>
      obtain ⟨k, hk, hLt⟩ := hj
      obtain ⟨i, hi, rfl⟩ := List.mem_map.mp hk
      exact hSkipped j ⟨i, hi, by omega⟩ fun hMem => hNot (List.mem_map.mpr ⟨j, hMem, rfl⟩)

theorem exists_succ (positions : List Nat) (h : ∀ k ∈ positions, 0 < k) :
    ∃ q : List Nat, positions = q.map (· + 1) := by
  refine ⟨positions.map (· - 1), ?_⟩
  rw [List.map_map]
  refine (List.map_id positions).symm.trans (List.map_congr_left fun k hk => ?_)
  have := h k hk
  simp only [Function.comp_apply, id_eq]
  omega

/-- What an embedding does with the first element. -/
theorem embeds_cons_cons : Embeds Skippable (a :: xs) (b :: ys) ↔
    a = b ∧ Embeds Skippable xs ys ∨ Skippable a ∧ Embeds Skippable xs (b :: ys) := by
  constructor
  · rintro ⟨positions, hIncreasing, hMap, hSkipped⟩
    cases positions with
    | nil => cases hMap
    | cons first positions =>
      obtain ⟨hFirst, hIncreasing⟩ := List.pairwise_cons.mp hIncreasing
      obtain ⟨q, rfl⟩ := exists_succ positions fun k hk => by
        have := hFirst k hk
        omega
      have hRest : q.Pairwise (· < ·) := (List.pairwise_map.mp hIncreasing).imp fun h => by omega
      rw [List.map_cons, List.map_cons, List.cons.injEq, List.map_map] at hMap
      cases first with
      | zero =>
        refine .inl ⟨Option.some.inj hMap.1, q, hRest, hMap.2, fun j hj hNot => hSkipped (j + 1) ?_ ?_⟩
        · obtain ⟨k, hk, hLt⟩ := hj
          exact ⟨k + 1, List.mem_cons_of_mem _ (List.mem_map.mpr ⟨k, hk, rfl⟩), by omega⟩
        · simpa using hNot
      | succ first =>
        refine .inr ⟨hSkipped 0 ⟨first + 1, List.mem_cons_self, by omega⟩ (by simp) a rfl,
          first :: q, ?_, ?_, fun j hj hNot => hSkipped (j + 1) ?_ ?_⟩
        · refine List.pairwise_cons.mpr ⟨fun k hk => ?_, hRest⟩
          have := hFirst (k + 1) (List.mem_map.mpr ⟨k, hk, rfl⟩)
          omega
        · rw [List.map_cons, List.map_cons, List.cons.injEq]
          exact hMap
        · obtain ⟨k, hk, hLt⟩ := hj
          refine ⟨k + 1, ?_, by omega⟩
          simpa using hk
        · simpa using hNot
  · rintro (⟨rfl, h⟩ | ⟨ha, h⟩)
    · exact h.take
    · exact h.skip ha

/-- What embeds a list embeds the rest of it, where its first element may be skipped. -/
theorem Embeds.tail (hb : Skippable b) (h : Embeds Skippable xs (b :: ys)) : Embeds Skippable xs ys := by
  induction xs with
  | nil => exact absurd h not_embeds_cons_nil
  | cons a xs ih =>
    rcases embeds_cons_cons.mp h with ⟨rfl, hRest⟩ | ⟨ha, hRest⟩
    · exact hRest.skip hb
    · exact (ih hRest).skip ha

/-- An element that may be taken need not be skipped. -/
theorem embeds_cons_self : Embeds Skippable (a :: xs) (a :: ys) ↔ Embeds Skippable xs ys := by
  refine ⟨fun h => ?_, Embeds.take⟩
  rcases embeds_cons_cons.mp h with ⟨-, hRest⟩ | ⟨ha, hRest⟩
  · exact hRest
  · exact hRest.tail ha

theorem embeds_cons_of_ne (h : a ≠ b) :
    Embeds Skippable (a :: xs) (b :: ys) ↔ Skippable a ∧ Embeds Skippable xs (b :: ys) := by
  rw [embeds_cons_cons, or_iff_right fun hTake => h hTake.1]

end Embedding
