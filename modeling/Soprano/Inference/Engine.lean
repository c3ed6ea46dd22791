import Mathlib.Data.Set.Card
import Soprano.Inference.Additions
import Soprano.Library.Runs

/-! The engine of the inference model reaches the closure of the store under the rules. -/

namespace Soprano

namespace Inference

open Saturation Sparql Vocabulary

section Qt

variable [Qt] {select : QString → Store → List BindingSet} {createRandomUri : Nat → QUrl}

theorem isValid_withContext {t : Statement} (hValid : t.isValid = true) (hContext : t.context = .empty)
    {graph : QUrl} (hGraph : graph.isEmpty = false) :
    ({ t with context := .ofUri graph } : Statement).isValid = true := by
  have hNone : t.context.isValid = false := by rw [hContext]; rfl
  rw [Statement.isValid, if_neg (by simp [hNone])] at hValid
  have hGraphValid : (Node.resource graph hGraph).isValid = true := rfl
  rw [Node.ofUri_self graph hGraph]
  simp only [Statement.isValid, hGraphValid, if_true, hValid]
  rfl

namespace InferenceModel

/-! ### The results of a query -/

/-- What the loop over the results of a query keeps: the inferred statements are conclusions of
instances that were open, and beside metadata they are all that is added. -/
structure Collects (createRandomUri : Nat → QUrl) (m : InferenceModel)
    (acc : InferenceModel × List Statement) : Prop where
  run : Run createRandomUri Justified m acc.1
  infered : ∀ s ∈ acc.2, s.isValid = true ∧ s.triple ∈ triples acc.1.parentModel ∧
    ∃ i, (system m.rules).Open (triples m.parentModel) i ∧ (system m.rules).conclusion i = s.triple
  new : ∀ t ∈ triples acc.1.parentModel, t ∈ triples m.parentModel ∨
    t ∈ Statement.triple '' Metadata createRandomUri m.compressedStatements ∨
    t ∈ acc.2.map Statement.triple

theorem Collects.refl (createRandomUri : Nat → QUrl) (m : InferenceModel) :
    Collects createRandomUri m (m, []) :=
  ⟨.refl, fun _ hs => absurd hs List.not_mem_nil, fun _ ht => .inl ht⟩

theorem Run.same {J : InferenceModel → Statement → List Statement → Prop} {m m' : InferenceModel}
    (h : Run createRandomUri J m m') : Same m m' :=
  (h.grown (D := fun _ => True) fun _ _ _ _ _ => trivial).same

theorem Run.triples_subset {J : InferenceModel → Statement → List Statement → Prop}
    {m m' : InferenceModel} (h : Run createRandomUri J m m') :
    triples m.parentModel ⊆ triples m'.parentModel :=
  (h.grown (D := fun _ => True) fun _ _ _ _ _ => trivial).triples_subset

/-- The inferred statement is in the model that it is added to. -/
theorem mem_triples_addInfered (hUris : ∀ k, (createRandomUri k).isEmpty = false)
    {m : InferenceModel} {t : Statement} {sourceStatements : List Statement}
    (hValid : t.isValid = true) (hContext : t.context = .empty) :
    t ∈ triples (m.addInfered createRandomUri t sourceStatements).parentModel := by
  refine ⟨{ t with context := m.randomUri createRandomUri }, ?_, triple_eq hContext _⟩
  refine (mem_addInfered createRandomUri).mpr (.inr ⟨List.mem_cons_self, ?_⟩)
  exact isValid_withContext hValid hContext (hUris m.uris)

/-- One turn of the loop over the results of a query. -/
theorem Collects.step (hUris : ∀ k, (createRandomUri k).isEmpty = false) {m : InferenceModel}
    {acc : InferenceModel × List Statement} (h : Collects createRandomUri m acc) {r : Rule}
    (hr : r.unbound ∈ m.rules.map Rule.unbound) {b : BindingSet} {value : QString → Node}
    (hSolution : Solution r.preconditions m.parentModel value)
    (hEffect : r.bindEffect b = r.effect.bind value)
    (hPreconditions : r.bindPreconditions b = r.preconditions.map (·.bind value)) :
    Collects createRandomUri m (inferBinding createRandomUri r acc b) ∧
      ((r.effect.bind value).isValid = true →
        r.effect.bind value ∈ triples (inferBinding createRandomUri r acc b).1.parentModel) := by
  obtain ⟨m', inferedStatements⟩ := acc
  have hContext : (r.effect.bind value).context = .empty := rfl
  simp only [inferBinding, hEffect, hPreconditions]
  by_cases hValid : (r.effect.bind value).isValid = true
  · by_cases hOld : Store.containsAnyStatement m'.parentModel (r.effect.bind value) = true
    · rw [if_neg (by simp [hOld])]
      exact ⟨h, fun _ => (containsAnyStatement_iff hValid hContext).mp hOld⟩
    · rw [if_pos (by simp [hValid, hOld])]
      have hNew : r.effect.bind value ∉ triples m'.parentModel := fun hMem =>
        hOld ((containsAnyStatement_iff hValid hContext).mpr hMem)
      have hRules := h.run.same.rules
      have hMem : ∀ {sources}, r.effect.bind value ∈
          triples (m'.addInfered createRandomUri (r.effect.bind value) sources).parentModel :=
        mem_triples_addInfered hUris hValid hContext
      have hTriple : ({ r.effect.bind value with context := m'.randomUri createRandomUri } :
          Statement).triple = r.effect.bind value := triple_eq hContext _
      refine ⟨⟨h.run.tail (.infer hValid hContext hNew ?_), fun s hs => ?_, fun t ht => ?_⟩,
        fun _ => hMem⟩
      · obtain ⟨hInstance, hPremises⟩ :=
          (hSolution.mono h.run.triples_subset).instance (hRules ▸ hr) hValid
        exact ⟨_, hInstance, rfl, rfl, hPremises⟩
      · rcases List.mem_append.mp hs with hs | hs
        · obtain ⟨hsValid, ⟨q, hq, hqTriple⟩, hOpen⟩ := h.infered s hs
          exact ⟨hsValid, ⟨q, (mem_addInfered createRandomUri).mpr (.inl hq), hqTriple⟩, hOpen⟩
        · obtain rfl := List.mem_singleton.mp hs
          rw [hTriple]
          obtain ⟨hInstance, hPremises⟩ := hSolution.instance hr hValid
          exact ⟨isValid_withContext hValid hContext (hUris _), hMem, _,
            ⟨hInstance, hPremises, fun hMem => hNew (h.run.triples_subset hMem)⟩, rfl⟩
      · obtain ⟨q, hq, rfl⟩ := ht
        rw [List.map_append, List.mem_append]
        rcases (mem_addInfered createRandomUri).mp hq with hq | ⟨hq, -⟩
        · rcases h.new _ ⟨q, hq, rfl⟩ with hFirst | hMeta | hInfered
          · exact .inl hFirst
          · exact .inr (.inl hMeta)
          · exact .inr (.inr (.inl hInfered))
        · rcases eq_or_mem_metadata createRandomUri hq with rfl | hMeta
          · exact .inr (.inr (.inr (by simp)))
          · rw [h.run.same.compressedStatements] at hMeta
            exact .inr (.inl ⟨q, hMeta, rfl⟩)
  · rw [if_neg (by simp [hValid])]
    exact ⟨h, fun hNot => absurd hNot hValid⟩

/-- The loop over results of a query that the rule's preconditions hold under. -/
theorem Collects.foldl (hUris : ∀ k, (createRandomUri k).isEmpty = false) {m : InferenceModel}
    {r : Rule} (hr : r.unbound ∈ m.rules.map Rule.unbound) {bindings : List BindingSet}
    (hBindings : ∀ b ∈ bindings, ∃ value, Solution r.preconditions m.parentModel value ∧
      r.bindEffect b = r.effect.bind value ∧
      r.bindPreconditions b = r.preconditions.map (·.bind value))
    {acc : InferenceModel × List Statement} (h : Collects createRandomUri m acc) :
    Collects createRandomUri m (bindings.foldl (inferBinding createRandomUri r) acc) ∧
      ∀ t, (t ∈ triples acc.1.parentModel ∨ ∃ b ∈ bindings, r.bindEffect b = t ∧ t.isValid = true) →
        t ∈ triples (bindings.foldl (inferBinding createRandomUri r) acc).1.parentModel := by
  induction bindings generalizing acc with
  | nil => exact ⟨h, fun t ht => ht.resolve_right (by simp)⟩
  | cons b bindings ih =>
    obtain ⟨value, hSolution, hEffect, hPreconditions⟩ := hBindings b List.mem_cons_self
    obtain ⟨hFirst, hMem⟩ := h.step hUris hr hSolution hEffect hPreconditions
    obtain ⟨hRest, hAll⟩ := ih (fun b' hb' => hBindings b' (List.mem_cons_of_mem b hb')) hFirst
    refine ⟨hRest, fun t ht => hAll t ?_⟩
    rcases ht with ⟨q, hq, rfl⟩ | ⟨b', hb', rfl, hValid⟩
    · refine .inl ⟨q, ?_, rfl⟩
      simp only [inferBinding]
      split
      · exact (mem_addInfered createRandomUri).mpr (.inl hq)
      · exact hq
    · rcases List.mem_cons.mp hb' with rfl | hb'
      · left
        rw [hEffect] at hValid ⊢
        exact hMem hValid
      · exact .inr ⟨b', hb', rfl, hValid⟩

/-! ### The recursion -/

/-- How many triples of `U` are not yet in the model. -/
noncomputable def missing (U : Set Statement) (m : InferenceModel) : Nat :=
  (U \ triples m.parentModel).ncard

theorem missing_le {U : Set Statement} {m m' : InferenceModel} (hU : U.Finite)
    (h : triples m.parentModel ⊆ triples m'.parentModel) : missing U m' ≤ missing U m :=
  Set.ncard_le_ncard (Set.sdiff_subset_sdiff_right h) hU.sdiff

theorem missing_lt {U : Set Statement} {m m' : InferenceModel} (hU : U.Finite)
    (h : triples m.parentModel ⊆ triples m'.parentModel) {t : Statement} (hMem : t ∈ U)
    (hOld : t ∉ triples m.parentModel) (hNew : t ∈ triples m'.parentModel) :
    missing U m' < missing U m := by
  refine Set.ncard_lt_ncard ⟨Set.sdiff_subset_sdiff_right h, fun hSubset => ?_⟩ hU.sdiff
  exact (hSubset ⟨hMem, hOld⟩).2 hNew

/-- What the engine starts from: valid statements, whose triples lie in a finite set that the rules do
not leave, and queries that find the instances in each model that the engine reaches. -/
structure Engine (select : QString → Store → List BindingSet) (createRandomUri : Nat → QUrl)
    (U : Set Statement) (m₀ : InferenceModel) : Prop where
  uris : ∀ k, (createRandomUri k).isEmpty = false
  plain : PlainRules m₀.rules
  unmatched : Unmatched createRandomUri m₀.rules m₀.compressedStatements
  finite : U.Finite
  covers : triples m₀.parentModel ⊆ U
  closed : ∀ i ∈ (system m₀.rules).instances,
    (∀ p ∈ (system m₀.rules).premises i, p ∈ U) → (system m₀.rules).conclusion i ∈ U
  finds : ∀ {m r}, Run createRandomUri Justified m₀ m → r.unbound ∈ m₀.rules.map Rule.unbound →
    (r.preconditions ≠ [] ∨ r.bindingStatement.isValid = true) →
    (r.bindingStatement.isValid = true → r.bindingStatement.triple ∈ triples m.parentModel) →
    Finds select m r

variable {U : Set Statement} {m₀ m m' : InferenceModel}

/-- The triples of a model that the engine reaches are metadata or lie in `U`. -/
theorem Engine.mem (h : Engine select createRandomUri U m₀) (hRun : Run createRandomUri Justified m₀ m)
    {t : Statement} (ht : t ∈ triples m.parentModel) :
    t ∈ U ∨ t ∈ Statement.triple '' Metadata createRandomUri m₀.compressedStatements := by
  have hGrown := hRun.derives h.plain h.unmatched
  obtain ⟨q, hq, rfl⟩ := ht
  rcases hGrown.new q hq with hOld | hMeta | ⟨k, -, -, -, hDerives⟩
  · exact .inl (h.covers ⟨q, hOld, rfl⟩)
  · exact .inr ⟨q, hMeta, rfl⟩
  · left
    have hClosed : (system m₀.rules).Closed U := fun i hi => hi.conclusion (h.closed i hi.mem hi.premises)
    exact hDerives.derivable.mem_of_closed h.covers hClosed

/-- The conclusion of an instance whose premises are in the model lies in `U`. -/
theorem Engine.conclusion_mem (h : Engine select createRandomUri U m₀)
    (hRun : Run createRandomUri Justified m₀ m) {i : Rule × (QString → Node)}
    (hi : (system m₀.rules).Open (triples m.parentModel) i) : (system m₀.rules).conclusion i ∈ U :=
  h.closed i hi.mem fun p hp =>
    (h.mem hRun (hi.premises p hp)).resolve_right (h.unmatched.notMem h.plain hi.mem hp)

/-- What a call that is made for the statement `s` leads to. -/
def Propagates (createRandomUri : Nat → QUrl) (m₀ m : InferenceModel)
    (d : Rule × (QString → Node) → Prop) (result : Option (Nat × InferenceModel)) : Prop :=
  ∃ x, result = some x ∧ Run createRandomUri Justified m x.2 ∧
    (system m₀.rules).Clears (triples m.parentModel) (triples x.2.parentModel) d

/-- `inferRule` leaves no instance of its rule open that needs the bound statement, if the calls that
it makes for the inferred statements leave none open that needs these. -/
theorem Engine.inferRule (h : Engine select createRandomUri U m₀) {n : Nat}
    {again : Statement → InferenceModel → Option (Nat × InferenceModel)}
    (hAgain : ∀ {m s}, Run createRandomUri Justified m₀ m → s.isValid = true →
      s.triple ∈ triples m.parentModel → missing U m < n →
      Propagates createRandomUri m₀ m (fun i => s.triple ∈ (system m₀.rules).premises i) (again s m))
    (hRun : Run createRandomUri Justified m₀ m) (hMissing : missing U m < n + 1) {k : Nat} {r : Rule}
    (hr : m.rules[k]? = some r)
    (hSome : r.preconditions ≠ [] ∨ r.bindingStatement.isValid = true)
    (hBound : r.bindingStatement.isValid = true →
      r.bindingStatement.triple ∈ triples m.parentModel) :
    Propagates createRandomUri m₀ m (fun i => i.1 = r.unbound ∧ (r.bindingStatement.isValid = true →
        r.bindingStatement.triple ∈ (system m₀.rules).premises i))
      (InferenceModel.inferRule select createRandomUri again true k m) := by
  have hSame := hRun.same
  have hUnbound : r.unbound ∈ m.rules.map Rule.unbound :=
    List.mem_map_of_mem (List.mem_of_getElem? hr)
  have hFinds := h.finds hRun (hSame.rules ▸ hUnbound) hSome hBound
  obtain ⟨hCollects, hAll⟩ :=
    (Collects.refl createRandomUri m).foldl h.uris hUnbound hFinds.sound
  simp only [InferenceModel.inferRule, hr]
  generalize (m.ruleBindings select r).foldl (inferBinding createRandomUri r) (m, []) = acc at *
  obtain ⟨m₁, inferedStatements⟩ := acc
  have hSystem := system_congr hSame.rules
  -- An instance that is open now was not one of the rule's, or it needs an inferred statement.
  have hPending : ∀ Q : Rule × (QString → Node) → Prop, (system m₀.rules).Pending (triples m.parentModel) (fun i =>
      (i.1 = r.unbound ∧ (r.bindingStatement.isValid = true →
        r.bindingStatement.triple ∈ (system m₀.rules).premises i)) ∨ Q i) →
      (system m₀.rules).Pending (triples m₁.parentModel) fun i =>
        (∃ s ∈ inferedStatements, s.triple ∈ (system m₀.rules).premises i) ∨ Q i := by
    intro Q hQ i hi
    rcases hi.of_subset hCollects.run.triples_subset with hOpen | ⟨p, hp, hMem, hNew⟩
    · rcases hQ i hOpen with ⟨hRule, hNeeds⟩ | hRest
      · obtain ⟨rule, value⟩ := i
        obtain rfl : rule = r.unbound := hRule
        have hSolution : Solution r.preconditions m.parentModel value :=
          ⟨fun p hp => hOpen.premises _ (List.mem_map_of_mem hp), hOpen.mem.2.1⟩
        obtain ⟨b, hb, hEffect⟩ := hFinds.complete value hSolution hOpen.mem.2.2 hNeeds
        exact absurd (hAll _ (.inr ⟨b, hb, hEffect, hOpen.mem.2.2⟩)) hi.conclusion
      · exact .inr hRest
    · rcases hCollects.new p hMem with hOld | hMeta | hInfered
      · exact absurd hOld hNew
      · rw [hSame.compressedStatements] at hMeta
        exact absurd hMeta (h.unmatched.notMem h.plain hi.mem hp)
      · obtain ⟨s, hs, rfl⟩ := List.mem_map.mp hInfered
        exact .inl ⟨s, hs, hp⟩
  cases inferedStatements with
  | nil =>
    refine ⟨(0, m₁), rfl, hCollects.run, fun Q hQ => ?_⟩
    exact (hPending Q hQ).mono fun i hi => hi.resolve_left (by simp)
  | cons first rest =>
    -- The inferred statements fill `U`, which bounds the depth of the recursion.
    obtain ⟨-, hFirstMem, i, hOpen, hConclusion⟩ := hCollects.infered first List.mem_cons_self
    rw [hSystem] at hOpen hConclusion
    have hFewer : missing U m₁ < missing U m := by
      refine missing_lt h.finite hCollects.run.triples_subset ?_ ?_ hFirstMem
      · rw [← hConclusion]
        exact h.conclusion_mem hRun hOpen
      · rw [← hConclusion]
        exact hOpen.conclusion
    have hTurn : ∀ s ∈ first :: rest, ∀ st : Nat × InferenceModel,
        Run createRandomUri Justified m₁ st.2 →
        ∃ st', ((again s st.2).map fun x => (st.1 + x.1, x.2)) = some st' ∧
          Run createRandomUri Justified m₁ st'.2 ∧
          (system m₀.rules).Clears (triples st.2.parentModel) (triples st'.2.parentModel) fun i =>
            s.triple ∈ (system m₀.rules).premises i := by
      rintro s hs ⟨cnt, m₂⟩ hRun₂
      obtain ⟨hValid, hMem, -⟩ := hCollects.infered s hs
      have hLess := missing_le h.finite hRun₂.triples_subset
      obtain ⟨⟨c, m₃⟩, hCall, hRun₃, hClears₃⟩ := hAgain ((hRun.trans hCollects.run).trans hRun₂)
        hValid (hRun₂.triples_subset hMem) (by omega)
      exact ⟨(cnt + c, m₃), by rw [hCall]; rfl, hRun₂.trans hRun₃, hClears₃⟩
    obtain ⟨x, hResult, hRunX, hClears⟩ := System.exists_foldlM_clears (system m₀.rules)
      (fun st : Nat × InferenceModel => triples st.2.parentModel) _
      (fun st => Run createRandomUri Justified m₁ st.2) _ hTurn
      (s := ((first :: rest).length, m₁)) .refl
    exact ⟨x, hResult, hCollects.run.trans hRunX, fun Q hQ => hClears Q (hPending Q hQ)⟩

theorem rules_bindRule {k : Nat} {r : Rule} (hr : m.rules[k]? = some r) (s : Statement) :
    (m.bindRule k s).rules[k]? = some (r.bindToStatement s) := by
  simp [bindRule, hr]

/-- The rule that matches no precondition against the statement has no instance that needs it. -/
theorem match_of_mem_premises (hPlain : PlainRules m₀.rules) {r : Rule} {s : Statement}
    {i : Rule × (QString → Node)} (hi : i ∈ (system m₀.rules).instances) (hRule : i.1 = r.unbound)
    (hMem : s.triple ∈ (system m₀.rules).premises i) : r.match s = true := by
  obtain ⟨r₀, hr₀, hEq, p, hp, hBind⟩ := exists_precondition hi hMem
  have hMatch := StatementPattern.match_of_bind (hPlain r₀ hr₀ p hp) hBind
  have hPreconditions : r.preconditions = r₀.preconditions :=
    congrArg (fun r => r.preconditions) (hRule.symm.trans hEq.symm)
  exact List.any_eq_true.mpr ⟨p, hPreconditions ▸ hp, hMatch⟩

/-- `inferStatement` leaves no instance open that needs the statement. -/
theorem Engine.inferStatement (h : Engine select createRandomUri U m₀) (n : Nat) {m : InferenceModel}
    {s : Statement} (hRun : Run createRandomUri Justified m₀ m) (hValid : s.isValid = true)
    (hMem : s.triple ∈ triples m.parentModel) (hMissing : missing U m < n) :
    Propagates createRandomUri m₀ m (fun i => s.triple ∈ (system m₀.rules).premises i)
      (InferenceModel.inferStatement select createRandomUri n true s m) := by
  induction n generalizing m s with
  | zero => exact absurd hMissing (Nat.not_lt_zero _)
  | succ n ih =>
    have hTurn : ∀ k ∈ List.range m.rules.length, ∀ st : Nat × InferenceModel,
        Run createRandomUri Justified m st.2 →
        ∃ st', inferMatching select createRandomUri
            (InferenceModel.inferStatement select createRandomUri n true) true s st k = some st' ∧
          Run createRandomUri Justified m st'.2 ∧
          (system m₀.rules).Clears (triples st.2.parentModel) (triples st'.2.parentModel) fun i =>
            (m.rules.map Rule.unbound)[k]? = some i.1 ∧
              s.triple ∈ (system m₀.rules).premises i := by
      rintro k - ⟨cnt, m₁⟩ hRun₁
      have hRules : (m.rules.map Rule.unbound)[k]? = m₁.rules[k]?.map Rule.unbound := by
        rw [← hRun₁.same.rules, List.getElem?_map]
      rw [hRules]
      simp only [inferMatching]
      cases hr : m₁.rules[k]? with
      | none =>
        refine ⟨(cnt, m₁), rfl, hRun₁, (System.Clears.refl _).mono fun i _ hd => ?_⟩
        cases hd.1
      | some r =>
        by_cases hMatch : r.match s = true
        · simp only [if_pos hMatch]
          have hBound : Run createRandomUri Justified m (m₁.bindRule k s) :=
            hRun₁.tail (.bind m₁ k s)
          have hMem₁ : s.triple ∈ triples (m₁.bindRule k s).parentModel :=
            hBound.triples_subset hMem
          obtain ⟨⟨c, m₂⟩, hCall, hRun₂, hClears⟩ := h.inferRule ih (hRun.trans hBound)
            (Nat.lt_of_le_of_lt (missing_le h.finite hBound.triples_subset) hMissing) (rules_bindRule hr s)
            (.inr hValid) fun _ => hMem₁
          refine ⟨(cnt + c, m₂), by rw [hCall]; rfl, hBound.trans hRun₂, ?_⟩
          refine System.Clears.mono hClears fun i _ hd => ⟨?_, fun _ => hd.2⟩
          exact (Option.some.inj hd.1).symm
        · simp only [if_neg hMatch]
          refine ⟨(cnt, m₁), rfl, hRun₁, (System.Clears.refl _).mono fun i hi hd => ?_⟩
          exact hMatch (match_of_mem_premises h.plain hi (Option.some.inj hd.1).symm hd.2)
    obtain ⟨x, hResult, hRunX, hClears⟩ := System.exists_foldlM_clears (system m₀.rules)
      (fun st : Nat × InferenceModel => triples st.2.parentModel) _
      (fun st => Run createRandomUri Justified m st.2) _ hTurn (s := (0, m)) .refl
    refine ⟨x, hResult, hRunX, System.Clears.mono hClears fun i hi hNeeds => ?_⟩
    obtain ⟨k, hk⟩ := List.getElem?_of_mem (hRun.same.rules ▸ hi.1)
    refine ⟨k, List.mem_range.mpr ?_, hk, hNeeds⟩
    have := (List.getElem?_eq_some_iff.mp hk).1
    rwa [List.length_map] at this

/-! ### The depth of the recursion -/

theorem inferRule_mono {again more : Statement → InferenceModel → Option (Nat × InferenceModel)}
    (h : ∀ {s m x}, again s m = some x → more s m = some x) {recurse : Bool} {k : Nat}
    {x : Nat × InferenceModel}
    (hCall : inferRule select createRandomUri again recurse k m = some x) :
    inferRule select createRandomUri more recurse k m = some x := by
  simp only [InferenceModel.inferRule] at hCall ⊢
  cases hr : m.rules[k]? with
  | none =>
    rw [hr] at hCall
    exact hCall
  | some r =>
    simp only [hr] at hCall ⊢
    split at hCall
    · rename_i hSome
      rw [if_pos hSome]
      refine Runs.run_mono (fun hStep => ?_) hCall
      obtain ⟨y, hy, rfl⟩ := Option.map_eq_some_iff.mp hStep
      rw [h hy]
      rfl
    · rename_i hNone
      rw [if_neg hNone]
      exact hCall

/-- A deeper recursion ends with the same result. -/
theorem inferStatement_succ {n : Nat} {recurse : Bool} {s : Statement} {x : Nat × InferenceModel}
    (hCall : inferStatement select createRandomUri n recurse s m = some x) :
    inferStatement select createRandomUri (n + 1) recurse s m = some x := by
  induction n generalizing recurse s m x with
  | zero => cases hCall
  | succ n ih =>
    refine Runs.run_mono (fun {st k st'} hStep => ?_) hCall
    simp only [inferMatching] at hStep ⊢
    cases hr : st.2.rules[k]? with
    | none =>
      rw [hr] at hStep
      exact hStep
    | some r =>
      simp only [hr] at hStep ⊢
      split at hStep
      · rename_i hMatch
        rw [if_pos hMatch]
        obtain ⟨y, hy, rfl⟩ := Option.map_eq_some_iff.mp hStep
        rw [inferRule_mono ih hy]
        rfl
      · rename_i hMatch
        rw [if_neg hMatch]
        exact hStep

theorem inferStatement_mono {n n' : Nat} (hLe : n ≤ n') {recurse : Bool} {s : Statement}
    {x : Nat × InferenceModel}
    (hCall : inferStatement select createRandomUri n recurse s m = some x) :
    inferStatement select createRandomUri n' recurse s m = some x := by
  induction hLe with
  | refl => exact hCall
  | step _ ih => exact inferStatement_succ ih

/-! ### The statements that the rules can make -/

/-- The triples over the nodes. -/
def triplesOver (nodes : List Node) : Set Statement :=
  {t | t.subject ∈ nodes ∧ t.predicate ∈ nodes ∧ t.object ∈ nodes ∧ t.context = .empty}

theorem finite_triplesOver (nodes : List Node) : (triplesOver nodes).Finite := by
  have hNodes : {n | n ∈ nodes}.Finite := List.finite_toSet nodes
  refine ((hNodes.prod (hNodes.prod hNodes)).image
    fun n => (⟨n.1, n.2.1, n.2.2, .empty⟩ : Statement)).subset ?_
  rintro ⟨s, p, o, c⟩ ⟨hSubject, hPredicate, hObject, rfl⟩
  exact ⟨(s, p, o), ⟨hSubject, hPredicate, hObject⟩, rfl⟩

/-- The nodes of a store and of the effects of rules. -/
def nodesOf (store : Store) (rules : List Rule) : List Node :=
  store.flatMap Statement.nodes ++ rules.flatMap fun r => (r.effect.bind fun _ => .empty).nodes

theorem triples_subset_triplesOver (store : Store) (rules : List Rule) :
    triples store ⊆ triplesOver (nodesOf store rules) := by
  rintro _ ⟨q, hq, rfl⟩
  have hNode : ∀ n ∈ q.nodes, n ∈ nodesOf store rules := fun n hn =>
    List.mem_append_left _ (List.mem_flatMap.mpr ⟨q, hq, hn⟩)
  refine ⟨hNode _ ?_, hNode _ ?_, hNode _ ?_, rfl⟩ <;> simp [Statement.nodes, Statement.triple]

/-- The rules make no new nodes. -/
theorem conclusion_mem_triplesOver {store : Store} {rules : List Rule} {i : Rule × (QString → Node)}
    (hi : i ∈ (system rules).instances)
    (hPremises : ∀ p ∈ (system rules).premises i, p ∈ triplesOver (nodesOf store rules)) :
    (system rules).conclusion i ∈ triplesOver (nodesOf store rules) := by
  obtain ⟨hRule, hUnbound, hValid⟩ := hi
  obtain ⟨rule, value⟩ := i
  obtain ⟨r, hr, rfl⟩ := List.mem_map.mp hRule
  have hValue : ∀ name, value name ≠ .empty → value name ∈ nodesOf store rules := by
    intro name hSome
    have hName : name ∈ names r.preconditions := by
      by_contra hNot
      exact hSome (hUnbound name hNot)
    obtain ⟨p, hp, hName⟩ := List.mem_flatMap.mp hName
    obtain ⟨hSubject, hPredicate, hObject, -⟩ := hPremises _ (List.mem_map_of_mem hp)
    rcases p.value_eq value hName with hEq | hEq | hEq <;> rw [hEq]
    · exact hSubject
    · exact hPredicate
    · exact hObject
  have hNode : ∀ {q : NodePattern}, q.bind (fun _ => .empty) ∈
      (r.effect.bind fun _ => .empty).nodes → q.bind value ≠ .empty →
      q.bind value ∈ nodesOf store rules := by
    intro q hq hSome
    cases q with
    | ofVariable name => exact hValue name hSome
    | resource n => exact List.mem_append_right _ (List.mem_flatMap.mpr ⟨r, hr, hq⟩)
  obtain ⟨hSubject, hPredicate, hObject⟩ := Select.full_of_isValid hValid
  refine ⟨hNode ?_ hSubject, hNode ?_ hPredicate, hNode ?_ hObject, rfl⟩ <;>
    simp [Statement.nodes, StatementPattern.bind]

end InferenceModel

end Qt

end Inference

end Soprano
