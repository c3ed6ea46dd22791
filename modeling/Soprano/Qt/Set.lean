import Mathlib.Data.List.Basic

/-! `QSet`, by its elements in the order of its iterators, which Qt leaves open. What counts as the
same element is a parameter: neither symmetry nor transitivity is asked of it. -/

namespace Soprano

/-- `QSet`: of two elements, the later one was not found where the earlier one stood. -/
structure QSet (α : Type) (same : α → α → Bool) where
  toList : List α
  distinct : toList.Pairwise fun a b => same b a = false

namespace QSet

variable {α : Type} {same : α → α → Bool}

def empty : QSet α same := ⟨[], .nil⟩

def contains (set : QSet α same) (value : α) : Bool := set.toList.any (same value)

theorem contains_iff {set : QSet α same} {value : α} :
    set.contains value = true ↔ ∃ a ∈ set.toList, same value a = true := List.any_eq_true

/-- An element that is there stays what it is. -/
def insert (set : QSet α same) (value : α) : QSet α same :=
  if h : set.contains value = true then set
  else
    ⟨set.toList ++ [value], by
      rw [contains_iff] at h
      rw [List.pairwise_append]
      refine ⟨set.distinct, List.pairwise_singleton _ _, fun a ha b hb => ?_⟩
      obtain rfl := List.mem_singleton.mp hb
      exact Bool.eq_false_iff.mpr fun hSame => h ⟨a, ha, hSame⟩⟩

/-- The elements that pass a test, the others are erased. -/
def filter (set : QSet α same) (p : α → Bool) : QSet α same :=
  ⟨set.toList.filter p, set.distinct.filter p⟩

def remove (set : QSet α same) (value : α) : QSet α same := set.filter fun a => !same value a

def fromList (list : List α) : QSet α same := list.foldl insert empty

/-- `operator+=` -/
def unite (set other : QSet α same) : QSet α same := other.toList.foldl insert set

/-- `operator-=` -/
def subtract (set other : QSet α same) : QSet α same := set.filter fun a => !other.contains a

theorem mem_insert {set : QSet α same} {value a : α} :
    a ∈ (set.insert value).toList ↔
      a ∈ set.toList ∨ a = value ∧ set.contains value = false := by
  rw [insert]
  split
  · rename_i h
    simp [h]
  · rename_i h
    simp [h]

@[simp] theorem mem_filter {set : QSet α same} {p : α → Bool} {a : α} :
    a ∈ (set.filter p).toList ↔ a ∈ set.toList ∧ p a = true := List.mem_filter

/-- Inserting a list brings in elements of the list only, and each has an element there that it counts
as, or is one itself. -/
theorem mem_foldl_insert (list : List α) (set : QSet α same) :
    (∀ a ∈ set.toList, a ∈ (list.foldl insert set).toList) ∧
    (∀ a ∈ (list.foldl insert set).toList, a ∈ set.toList ∨ a ∈ list) ∧
    ∀ a ∈ list, ∃ b ∈ (list.foldl insert set).toList, b = a ∨ same a b = true := by
  induction list generalizing set with
  | nil => exact ⟨fun _ h => h, fun _ h => .inl h, nofun⟩
  | cons value list ih =>
    obtain ⟨hKept, hFrom, hFound⟩ := ih (set.insert value)
    refine ⟨fun a ha => hKept a (mem_insert.mpr (.inl ha)), fun a ha => ?_, fun a ha => ?_⟩
    · rcases hFrom a ha with hSet | hList
      · rcases mem_insert.mp hSet with hOld | ⟨rfl, -⟩
        · exact .inl hOld
        · exact .inr List.mem_cons_self
      · exact .inr (List.mem_cons_of_mem _ hList)
    · rcases List.mem_cons.mp ha with rfl | hList
      · by_cases hThere : set.contains a = true
        · obtain ⟨b, hb, hSame⟩ := contains_iff.mp hThere
          exact ⟨b, hKept b (mem_insert.mpr (.inl hb)), .inr hSame⟩
        · exact ⟨a, hKept a (mem_insert.mpr (.inr ⟨rfl, Bool.eq_false_iff.mpr hThere⟩)), .inl rfl⟩
      · exact hFound a hList

end QSet

end Soprano
