import Mathlib.Data.List.Basic

/-! Runs of a system whose step function is given the next action and may refuse it, and the rule
that carries an invariant along them. -/

namespace Soprano

namespace Runs

variable {S A : Type} {step : S → A → Option S} {meets : S → A → Prop} {s s' : S} {a : A}
  {actions later : List A}

/-- The state behind the actions, if none of them is refused. -/
def run (step : S → A → Option S) (s : S) (actions : List A) : Option S := actions.foldlM step s

/-- Each action meets the condition in the state that it finds. -/
def AllMeet (step : S → A → Option S) (meets : S → A → Prop) : S → List A → Prop
  | _, [] => True
  | s, a :: actions => meets s a ∧ ∀ s', step s a = some s' → AllMeet step meets s' actions

theorem run_cons (h : run step s (a :: actions) = some s') :
    ∃ t, step s a = some t ∧ run step t actions = some s' := by
  rw [run, List.foldlM_cons] at h
  exact Option.bind_eq_some_iff.mp h

theorem run_cons_of_step {t : S} (h : step s a = some t) :
    run step s (a :: actions) = run step t actions := by
  rw [run, List.foldlM_cons, h]
  rfl

theorem run_append {t : S} (h : run step s actions = some t) :
    run step s (actions ++ later) = run step t later := by
  rw [run, List.foldlM_append]
  rw [run] at h
  rw [h]
  rfl

/-- A step function that refuses less has the same runs. -/
theorem run_mono {more : S → A → Option S}
    (h : ∀ {s a s'}, step s a = some s' → more s a = some s') (hRun : run step s actions = some s') :
    run more s actions = some s' := by
  induction actions generalizing s with
  | nil => exact hRun
  | cons a actions ih =>
    obtain ⟨t, hFirst, hRest⟩ := run_cons hRun
    rw [run_cons_of_step (h hFirst)]
    exact ih hRest

/-- The condition is met along a run if it is met in the states of that run. -/
theorem AllMeet.cons {t : S} (hMeets : meets s a) (hStep : step s a = some t)
    (h : AllMeet step meets t actions) : AllMeet step meets s (a :: actions) := by
  refine ⟨hMeets, fun s' hs' => ?_⟩
  obtain rfl : t = s' := Option.some.inj (hStep.symm.trans hs')
  exact h

/-- A condition on the actions alone is met along every run of actions that meet it. -/
theorem AllMeet.of_forall (h : ∀ a ∈ actions, ∀ s, meets s a) : AllMeet step meets s actions := by
  induction actions generalizing s with
  | nil => trivial
  | cons a actions ih =>
    exact ⟨h a List.mem_cons_self s, fun _ _ => ih fun b hb => h b (List.mem_cons_of_mem a hb)⟩

/-- A step function that refuses more has fewer states to meet the condition in. -/
theorem AllMeet.of_more {more : S → A → Option S}
    (hMore : ∀ {s a s'}, step s a = some s' → more s a = some s') (h : AllMeet more meets s actions) :
    AllMeet step meets s actions := by
  induction actions generalizing s with
  | nil => trivial
  | cons a actions ih => exact ⟨h.1, fun s' hs' => ih (h.2 s' (hMore hs'))⟩

/-- Whether a run meets the condition can be computed. -/
instance decidableAllMeet [∀ s a, Decidable (meets s a)] :
    (s : S) → (actions : List A) → Decidable (AllMeet step meets s actions)
  | _, [] => .isTrue trivial
  | s, a :: actions =>
    match hFirst : step s a with
    | none => decidable_of_iff (meets s a)
      ⟨fun h => ⟨h, fun _ hSome => nomatch hFirst.symm.trans hSome⟩, And.left⟩
    | some t =>
      have := decidableAllMeet t actions
      decidable_of_iff (meets s a ∧ AllMeet step meets t actions)
        ⟨fun h => h.2.cons h.1 hFirst, fun h => ⟨h.1, h.2 t hFirst⟩⟩

/-- What holds at the start and is kept by every action that meets the condition holds at the end of
each run whose actions all do. -/
theorem invariant {I : S → Prop}
    (hStep : ∀ {s a s'}, I s → meets s a → step s a = some s' → I s') (h : I s)
    (hMeets : AllMeet step meets s actions) (hRun : run step s actions = some s') : I s' := by
  induction actions generalizing s with
  | nil =>
    cases hRun
    exact h
  | cons a actions ih =>
    obtain ⟨t, hFirst, hRest⟩ := run_cons hRun
    exact ih (hStep h hMeets.1 hFirst) (hMeets.2 t hFirst) hRest

/-- Where the condition also keeps an action from being refused, no run that meets it is. -/
theorem exists_run {I : S → Prop}
    (hStep : ∀ {s a}, I s → meets s a → ∃ s', step s a = some s' ∧ I s') (h : I s)
    (hMeets : AllMeet step meets s actions) : ∃ s', run step s actions = some s' ∧ I s' := by
  induction actions generalizing s with
  | nil => exact ⟨s, rfl, h⟩
  | cons a actions ih =>
    obtain ⟨t, hFirst, hNext⟩ := hStep h hMeets.1
    obtain ⟨s', hRest, hEnd⟩ := ih hNext (hMeets.2 t hFirst)
    exact ⟨s', (run_cons_of_step hFirst).trans hRest, hEnd⟩

/-- A run is refused if one of its actions is, in each state that the others lead to. -/
theorem run_eq_none {I : S → Prop} (hStep : ∀ {s a s'}, I s → step s a = some s' → I s') (h : I s)
    (ha : a ∈ actions) (hNone : ∀ {s}, I s → step s a = none) : run step s actions = none := by
  induction actions generalizing s with
  | nil => cases ha
  | cons b actions ih =>
    cases hFirst : step s b with
    | none =>
      rw [run, List.foldlM_cons, hFirst]
      rfl
    | some t =>
      rw [run_cons_of_step hFirst]
      rcases List.mem_cons.mp ha with rfl | ha
      · rw [hNone h] at hFirst
        cases hFirst
      · exact ih (hStep h hFirst) ha

/-- Where the step function takes a depth, and each action that meets the condition ends at some depth,
a run whose actions all do ends at every depth from some one on. -/
theorem exists_depth {stepTo : Nat → S → A → Option S}
    (hMono : ∀ {n n' s a s'}, n ≤ n' → stepTo n s a = some s' → stepTo n' s a = some s')
    (hStep : ∀ {s a}, meets s a → ∃ n s', stepTo n s a = some s')
    (hMeets : ∀ n, AllMeet (stepTo n) meets s actions) :
    ∃ n s', ∀ n', n ≤ n' → run (stepTo n') s actions = some s' := by
  induction actions generalizing s with
  | nil => exact ⟨0, s, fun _ _ => rfl⟩
  | cons a actions ih =>
    obtain ⟨n, t, hFirst⟩ := hStep (hMeets 0).1
    have hLater : ∀ k, AllMeet (stepTo k) meets t actions := fun k =>
      ((hMeets (max n k)).2 t (hMono (Nat.le_max_left n k) hFirst)).of_more (hMono (Nat.le_max_right n k))
    obtain ⟨n', s', hRest⟩ := ih hLater
    refine ⟨max n n', s', fun k hk => ?_⟩
    rw [run_cons_of_step (hMono (by omega) hFirst)]
    exact hRest k (by omega)

/-- The rule for what every action keeps. -/
theorem invariant_of_forall {I : S → Prop} (hStep : ∀ {s a s'}, I s → step s a = some s' → I s')
    (h : I s) (hRun : run step s actions = some s') : I s' := by
  induction actions generalizing s with
  | nil =>
    cases hRun
    exact h
  | cons a actions ih =>
    obtain ⟨t, hFirst, hRest⟩ := run_cons hRun
    exact ih (hStep h hFirst) hRest

/-- Where the actions that meet the condition keep the invariant, and each other one leads to a state that is not
good, all states of a run are good exactly if all its actions meet the condition. -/
theorem good_iff_allMeet {I Good : S → Prop} (hGood : ∀ {s}, I s → Good s)
    (hStep : ∀ {s a s'}, I s → meets s a → step s a = some s' → I s')
    (hBad : ∀ {s a}, I s → ¬ meets s a → ∃ s', step s a = some s' ∧ ¬ Good s') (h : I s) :
    (∀ done s', done <+: actions → run step s done = some s' → Good s') ↔ AllMeet step meets s actions := by
  induction actions generalizing s with
  | nil =>
    refine iff_of_true (fun done s' hDone hRun => ?_) trivial
    rw [List.prefix_nil.mp hDone] at hRun
    cases hRun
    exact hGood h
  | cons a actions ih =>
    constructor
    · intro hAll
      have hMeets : meets s a := by
        by_contra hNot
        obtain ⟨t, hFirst, hNotGood⟩ := hBad h hNot
        refine hNotGood (hAll [a] t ((List.prefix_cons_inj a).mpr List.nil_prefix) ?_)
        rw [run_cons_of_step hFirst]
        rfl
      refine ⟨hMeets, fun t hFirst => (ih (hStep h hMeets hFirst)).mp fun done s' hDone hRun => ?_⟩
      exact hAll (a :: done) s' ((List.prefix_cons_inj a).mpr hDone) ((run_cons_of_step hFirst).trans hRun)
    · rintro ⟨hMeets, hLater⟩ done s' hDone hRun
      rcases List.prefix_cons_iff.mp hDone with rfl | ⟨rest, rfl, hRest⟩
      · cases hRun
        exact hGood h
      · obtain ⟨t, hFirst, hRun⟩ := run_cons hRun
        exact (ih (hStep h hMeets hFirst)).mpr (hLater t hFirst) rest s' hRest hRun

end Runs

end Soprano
