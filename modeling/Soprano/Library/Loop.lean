import Mathlib.Logic.Relation
import Mathlib.Order.WellFounded

/-! Loops whose turns go on with another state or end with a result, and the rule for those that end. -/

namespace Soprano

namespace Loop

variable {S R : Type*} {turn : S → S ⊕ R} {I : S → Prop} {Q : R → Prop} {s : S}

/-- The result of the loop, if it ends in so many turns. -/
def run (turn : S → S ⊕ R) : Nat → S → Option R
  | 0, _ => none
  | fuel + 1, s =>
    match turn s with
    | .inl s' => run turn fuel s'
    | .inr r => some r

/-- The states in which a turn of the loop begins. -/
def Reaches (turn : S → S ⊕ R) : S → S → Prop := Relation.ReflTransGen fun s s' => turn s = .inl s'

theorem run_of_inl {s' : S} (h : turn s = .inl s') (fuel : Nat) :
    run turn (fuel + 1) s = run turn fuel s' := by
  rw [run, h]

theorem run_of_inr {r : R} (h : turn s = .inr r) (fuel : Nat) : run turn (fuel + 1) s = some r := by
  rw [run, h]

theorem of_reaches (hTurn : ∀ {s s'}, I s → turn s = .inl s' → I s') {s' : S} (h : I s)
    (hReaches : Reaches turn s s') : I s' := by
  induction hReaches with
  | refl => exact h
  | tail _ hNext ih => exact hTurn ih hNext

/-- A loop whose turns keep an invariant ends with what its last turn makes of it, if it ends at all. -/
theorem of_run (hTurn : ∀ {s s'}, I s → turn s = .inl s' → I s') (hEnd : ∀ {s r}, I s → turn s = .inr r → Q r)
    {fuel : Nat} {r : R} (h : I s) (hRun : run turn fuel s = some r) : Q r := by
  induction fuel generalizing s with
  | zero => cases hRun
  | succ fuel ih =>
    cases hNext : turn s with
    | inl s' =>
      rw [run_of_inl hNext] at hRun
      exact ih (hTurn h hNext) hRun
    | inr r' =>
      rw [run_of_inr hNext] at hRun
      cases hRun
      exact hEnd h hNext

/-- A loop that goes on in every state of an invariant never ends. -/
theorem run_eq_none (hTurn : ∀ s, I s → ∃ s', turn s = .inl s' ∧ I s') (h : I s) (fuel : Nat) :
    run turn fuel s = none := by
  induction fuel generalizing s with
  | zero => rfl
  | succ fuel ih =>
    obtain ⟨s', hNext, h'⟩ := hTurn s h
    rw [run_of_inl hNext]
    exact ih h'

/-- A loop that cannot go on for ever ends, and giving it more turns changes nothing. -/
theorem exists_run (h : Acc (fun s' s => turn s = .inl s') s) :
    ∃ n r, ∀ fuel, n ≤ fuel → run turn fuel s = some r := by
  induction h with
  | intro s _ ih =>
    cases hNext : turn s with
    | inl s' =>
      obtain ⟨n, r, hRun⟩ := ih s' hNext
      refine ⟨n + 1, r, fun fuel hFuel => ?_⟩
      obtain ⟨k, rfl⟩ := Nat.exists_eq_add_of_lt (Nat.lt_of_succ_le hFuel)
      rw [run_of_inl hNext]
      exact hRun _ (Nat.le_add_right n k)
    | inr r =>
      refine ⟨1, r, fun fuel hFuel => ?_⟩
      obtain ⟨k, rfl⟩ := Nat.exists_eq_add_of_lt (Nat.lt_of_succ_le hFuel)
      exact run_of_inr hNext _

/-- Turns that make progress, but for idle ones of which there are finitely many in a row. -/
theorem acc_of_progress {measure : S → Nat} {Idle : S → S → Prop}
    (hTurn : ∀ {s s'}, I s → turn s = .inl s' →
      I s' ∧ (measure s' < measure s ∨ measure s' = measure s ∧ Idle s' s))
    (hIdle : ∀ s, Acc Idle s) (h : I s) : Acc (fun s' s => turn s = .inl s') s := by
  induction hMeasure : measure s using Nat.strongRecOn generalizing s with
  | _ n ih =>
    induction hIdle s with
    | intro s _ ihIdle =>
      refine .intro s fun s' hNext => ?_
      obtain ⟨hI, hLess | ⟨hSame, hIdle⟩⟩ := hTurn h hNext
      · exact ih _ (hMeasure ▸ hLess) hI rfl
      · exact ihIdle s' hIdle hI (hSame.trans hMeasure)

end Loop

end Soprano
