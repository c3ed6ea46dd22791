import Mathlib.Data.List.Basic

/-! Memory as a list, and what is written to it. -/

namespace Soprano

namespace Memory

variable {α : Type*}

/-- The memory with items written from an offset on. -/
def overwrite (memory : List α) (offset : Nat) (items : List α) : List α :=
  memory.take offset ++ items ++ memory.drop (offset + items.length)

theorem overwrite_zero (memory items : List α) :
    overwrite memory 0 items = items ++ memory.drop items.length := by
  simp [overwrite]

/-- Items written behind others that have been written to the beginning. -/
theorem overwrite_append (moved old items : List α) :
    overwrite (moved ++ old.drop moved.length) moved.length items =
      moved ++ items ++ old.drop (moved ++ items).length := by
  simp [overwrite, List.drop_append]

end Memory

end Soprano
