import Soprano.Inference.Closure

/-! `performInference` closes the store, and `clearInference` takes out what was inferred. -/

namespace Soprano

namespace Inference

open Saturation Sparql Vocabulary

namespace InferenceModel

section Qt

variable [Qt] {select : QString → Store → List BindingSet} {createRandomUri : Nat → QUrl}
  {m m' : InferenceModel}

/-! ### `performInference` -/

theorem performInference_mono {n n' : Nat} (hLe : n ≤ n')
    (h : InferenceModel.performInference select createRandomUri n m = some m') :
    InferenceModel.performInference select createRandomUri n' m = some m' := by
  refine Runs.run_mono (fun hStep => ?_) h
  obtain ⟨y, hy, rfl⟩ := Option.map_eq_some_iff.mp hStep
  rw [inferRule_mono (fun hCall => inferStatement_mono hLe hCall) hy]
  rfl

/-- `performInference` ends, and no instance of a rule is left open. -/
theorem Engine.performInference {U : Set Statement} (h : Engine select createRandomUri U m)
    (hSome : ∀ r ∈ m.rules, r.preconditions ≠ []) :
    ∃ m', (∃ n, ∀ fuel, n ≤ fuel →
        InferenceModel.performInference select createRandomUri fuel m = some m') ∧
      Run createRandomUri Justified m m' ∧
      (system m.rules).Closed (triples m'.parentModel) := by
  have hTurn : ∀ k ∈ List.range m.rules.length, ∀ m₁, Run createRandomUri Justified m m₁ →
      ∃ m₂, ((InferenceModel.inferRule select createRandomUri
          (InferenceModel.inferStatement select createRandomUri (missing U m + 1) true) true k
          (m₁.bindRule k .empty)).map Prod.snd) = some m₂ ∧ Run createRandomUri Justified m m₂ ∧
        (system m.rules).Clears (triples m₁.parentModel) (triples m₂.parentModel) fun i =>
          (m.rules.map Rule.unbound)[k]? = some i.1 := by
    intro k hk m₁ hRun
    have hRules : (m.rules.map Rule.unbound)[k]? = m₁.rules[k]?.map Rule.unbound := by
      rw [← hRun.same.rules, List.getElem?_map]
    have hBound : Run createRandomUri Justified m (m₁.bindRule k .empty) := hRun.tail (.bind m₁ k .empty)
    have hUnset : Statement.empty.isValid = false := rfl
    cases hr : m₁.rules[k]? with
    | none =>
      rw [hr, Option.map_none, List.getElem?_eq_none_iff, List.length_map] at hRules
      exact absurd (List.mem_range.mp hk) (Nat.not_lt.mpr hRules)
    | some r =>
      have hNonempty : (r.bindToStatement .empty).preconditions ≠ [] := by
        rw [hr] at hRules
        obtain ⟨r₀, hr₀, hEq⟩ := List.mem_map.mp (List.mem_of_getElem? hRules)
        have : r₀.preconditions = r.preconditions := congrArg (fun r => r.preconditions) hEq
        exact this ▸ hSome r₀ hr₀
      obtain ⟨⟨c, m₂⟩, hCall, hRun₂, hClears⟩ := h.inferRule
        (fun hRun hValid hMem hLess => h.inferStatement _ hRun hValid hMem hLess) hBound
        (Nat.lt_succ_of_le (Nat.le_succ_of_le (missing_le h.finite hBound.triples_subset))) (rules_bindRule hr .empty)
        (.inl hNonempty) (fun hSet => absurd hSet (by simp [Rule.bindToStatement, hUnset]))
      refine ⟨m₂, by rw [hCall]; rfl, hBound.trans hRun₂, System.Clears.mono hClears fun i _ hi => ?_⟩
      rw [hRules, hr] at hi
      exact ⟨(Option.some.inj hi).symm, fun hSet => absurd hSet (by simp [Rule.bindToStatement, hUnset])⟩
  obtain ⟨m', hResult, hRun, hClears⟩ := System.exists_foldlM_clears (system m.rules)
    (fun m : InferenceModel => triples m.parentModel) _ (fun m' => Run createRandomUri Justified m m') _
    hTurn (s := m) .refl
  refine ⟨m', ⟨missing U m + 1, fun fuel hFuel => performInference_mono hFuel hResult⟩, hRun, ?_⟩
  refine hClears.closed fun i hi => ?_
  obtain ⟨k, hk⟩ := List.getElem?_of_mem hi.mem.1
  refine ⟨k, List.mem_range.mpr ?_, hk⟩
  have := (List.getElem?_eq_some_iff.mp hk).1
  rwa [List.length_map] at this

/-! ### `clearInference` -/

/-- The pattern of the graphs of inferred statements. -/
def clearPattern : StatementPattern :=
  ⟨.ofVariable ['g'], .resource (.ofUri RDF.type), .resource (.ofUri SIL.InferenceGraph)⟩

theorem plain_clearPattern : Plain clearPattern := by
  refine ⟨rfl, trivial, trivial, ?_, ?_⟩
  · show QString.MarkersAbove 3 ['?', 'g']
    exact QString.markersAbove_of_notMem (by decide)
  · show QString.MarkersAbove 3 ('<' :: (QString.fromLatin1 RDF.type.toEncoded ++ ['>']))
    rw [QUrl.fromLatin1_toEncoded]
    exact QString.markersAbove_of_notMem (by decide)

theorem clearQuery_eq : clearQuery =
    "select ?g where \x7b ".toList ++ (Rule.graphPatterns [clearPattern] .empty ++ ['}']) := by
  rw [clearQuery, Qt.urlToString_plain _ (by decide), Qt.urlToString_plain _ (by decide)]
  rfl

theorem mem_removeContext {store : Store} {context : Node} {q : Statement} :
    q ∈ Store.removeContext store context ↔
      q ∈ store ∧ ¬(context.isValid = true ∧ q.context = context) := by
  by_cases hValid : context.isValid = true
  · have hSome : context.isEmpty = false := by
      rw [Node.isValid, Bool.not_eq_true'] at hValid
      exact hValid
    have hEmpty : Node.empty.isEmpty = true := rfl
    simp [Store.removeContext, Store.removeAllStatements, Store.isMatch, hValid, hSome, hEmpty]
  · simp [Store.removeContext, hValid]

theorem mem_foldl_removeContext {α : Type} (context : α → Node) {l : List α} {store : Store}
    {q : Statement} :
    q ∈ l.foldl (fun store a => Store.removeContext store (context a)) store ↔
      q ∈ store ∧ ∀ a ∈ l, ¬((context a).isValid = true ∧ q.context = context a) := by
  induction l generalizing store with
  | nil => simp
  | cons a l ih => rw [List.foldl_cons, ih, mem_removeContext, List.forall_mem_cons, and_assoc]

/-- The first value of a binding set that has one name. -/
theorem head_values {b : BindingSet} {name : QString} (hDistinct : b.DistinctNames)
    (hNames : ∀ other ∈ b.bindingNames, other = name) (hValue : b.value name ≠ .empty) :
    b.values.head?.getD .empty = b.value name := by
  obtain ⟨bindings⟩ := b
  cases bindings with
  | nil => exact absurd rfl hValue
  | cons first rest =>
    obtain ⟨other, n⟩ := first
    obtain rfl : other = name := hNames other List.mem_cons_self
    exact (BindingSet.value_eq hDistinct List.mem_cons_self).symm

/-- The statement says that the graph holds an inferred statement. -/
def graphType (graph : Node) : Statement := (graphQuad graph).triple

/-- A query for the one variable `g` returns the graphs that have the predicate and the object. -/
theorem mem_graphs (hSelect : Answers select) {store : Store} (hValid : ∀ q ∈ store, q.isValid = true)
    {query : QString} {predicate object g : Node}
    (hParse : parse query = some [[⟨.ofVariable ['g'], .resource predicate, .resource object⟩]]) :
    g ∈ (select query store).map (fun b => b.values.head?.getD .empty) ↔
      ⟨g, predicate, object, .empty⟩ ∈ triples store := by
  have hHead : ∀ b ∈ select query store, b.values.head?.getD .empty = b.value ['g'] ∧
      ⟨b.value ['g'], predicate, object, .empty⟩ ∈ triples store := by
    intro b hb
    obtain ⟨patterns, hPatterns, hSolution⟩ := hSelect.sound hParse hValid hb
    obtain rfl := List.mem_singleton.mp hPatterns
    obtain ⟨hDistinct, hNames⟩ := hSelect.named hParse hValid hb
    refine ⟨head_values hDistinct (fun other hOther => ?_) ?_, ?_⟩
    · exact List.mem_singleton.mp (hNames other hOther)
    · exact hSolution.value_ne_empty hValid List.mem_cons_self
    · exact hSolution.triple _ (List.mem_singleton.mpr rfl)
  rw [List.mem_map]
  constructor
  · rintro ⟨b, hb, rfl⟩
    obtain ⟨hValue, hTriple⟩ := hHead b hb
    rw [hValue]
    exact hTriple
  · intro hTriple
    let value : QString → Node := fun name => if name = ['g'] then g else .empty
    have hSolution : Solution [⟨.ofVariable ['g'], .resource predicate, .resource object⟩] store value := by
      refine ⟨fun p hp => ?_, fun name hName => if_neg fun hEq => hName ?_⟩
      · obtain rfl := List.mem_singleton.mp hp
        exact hTriple
      · rw [hEq]
        exact List.mem_cons_self
    obtain ⟨b, hb, hEq⟩ := hSelect.complete hParse hValid List.mem_cons_self hSolution
    refine ⟨b, hb, ?_⟩
    rw [(hHead b hb).1, hEq]
    exact if_pos rfl

/-- `clearInference` leaves the statements of the graphs that are neither the one of the metadata nor
typed as graphs of inferred statements. -/
theorem mem_clearInference (hSelect : Answers select) (hValid : ∀ q ∈ m.parentModel, q.isValid = true)
    {q : Statement} : q ∈ (clearInference select m).parentModel ↔ q ∈ m.parentModel ∧
      q.context ≠ .ofUri SIL.InferenceMetaData ∧ graphType q.context ∉ triples m.parentModel := by
  have hParse := parse_graphs (.inr rfl) plain_clearPattern fun name hName => List.mem_singleton.mp hName
  rw [← clearQuery_eq] at hParse
  have hGraphs : ∀ g, g ∈ (select clearQuery m.parentModel).map (fun b => b.values.head?.getD .empty) ↔
      graphType g ∈ triples m.parentModel := fun g => mem_graphs hSelect hValid hParse
  rw [clearInference, mem_removeContext, mem_foldl_removeContext, and_assoc]
  refine and_congr_right fun hq => ?_
  rw [and_comm]
  refine and_congr (not_congr ⟨fun h => h.2, fun h => ⟨rfl, h⟩⟩) ⟨fun h hType => ?_, fun h b hb => ?_⟩
  · obtain ⟨b, hb, hEq⟩ := List.mem_map.mp ((hGraphs q.context).mpr hType)
    refine h b hb ⟨?_, hEq.symm⟩
    obtain ⟨t, ht, hTriple⟩ := hType
    have hSubject : q.context = t.subject := (congrArg Statement.subject hTriple).symm
    rw [hEq, hSubject]
    exact isValid_iff.mpr (Select.full_of_isValid (hValid t ht)).1
  · rintro ⟨-, hEq⟩
    refine h ((hGraphs q.context).mp ?_)
    rw [hEq]
    exact List.mem_map_of_mem hb

/-! ### Runs of the engine, whatever the queries return -/

/-- No condition on what is inferred. -/
def Any (_ : InferenceModel) (_ : Statement) (_ : List Statement) : Prop := True

theorem run_inferBinding (r : Rule) (acc : InferenceModel × List Statement) (b : BindingSet) :
    Run createRandomUri Any acc.1 (inferBinding createRandomUri r acc b).1 := by
  obtain ⟨m, inferedStatements⟩ := acc
  simp only [inferBinding]
  split
  · rename_i hNew
    rw [Bool.and_eq_true, Bool.not_eq_true', ← Bool.not_eq_true] at hNew
    refine .single (.infer hNew.1 rfl (fun hMem => hNew.2 ?_) trivial)
    exact (containsAnyStatement_iff hNew.1 rfl).mpr hMem
  · exact .refl

theorem run_bindings (r : Rule) (bindings : List BindingSet)
    (acc : InferenceModel × List Statement) :
    Run createRandomUri Any acc.1 (bindings.foldl (inferBinding createRandomUri r) acc).1 := by
  induction bindings generalizing acc with
  | nil => exact .refl
  | cons b bindings ih => exact (run_inferBinding r acc b).trans (ih _)

theorem run_inferRule {again : Statement → InferenceModel → Option (Nat × InferenceModel)}
    (hAgain : ∀ s m x, again s m = some x → Run createRandomUri Any m x.2) {recurse : Bool} {k : Nat}
    {x : Nat × InferenceModel}
    (h : InferenceModel.inferRule select createRandomUri again recurse k m = some x) :
    Run createRandomUri Any m x.2 := by
  simp only [InferenceModel.inferRule] at h
  cases hr : m.rules[k]? with
  | none =>
    rw [hr] at h
    cases h
    exact .refl
  | some r =>
    simp only [hr] at h
    have hLoop : Run createRandomUri Any m ((m.ruleBindings select r).foldl
        (inferBinding createRandomUri r) (m, [])).1 :=
      run_bindings r _ (m, [])
    split at h
    · refine Runs.invariant_of_forall (I := fun st => Run createRandomUri Any m st.2)
        (fun hRun hStep => ?_) hLoop h
      obtain ⟨y, hy, rfl⟩ := Option.map_eq_some_iff.mp hStep
      have hNext := hAgain _ _ _ hy
      exact hRun.trans hNext
    · cases h
      exact hLoop

theorem run_inferStatement {n : Nat} {recurse : Bool} {s : Statement} {x : Nat × InferenceModel}
    (h : InferenceModel.inferStatement select createRandomUri n recurse s m = some x) :
    Run createRandomUri Any m x.2 := by
  induction n generalizing recurse s m x with
  | zero => cases h
  | succ n ih =>
    refine Runs.invariant_of_forall (I := fun st => Run createRandomUri Any m st.2)
      (fun {st k st'} hRun hStep => ?_) (s := (0, m)) .refl h
    simp only [inferMatching] at hStep
    cases hr : st.2.rules[k]? with
    | none =>
      rw [hr] at hStep
      cases hStep
      exact hRun
    | some r =>
      simp only [hr] at hStep
      split at hStep
      · obtain ⟨y, hy, rfl⟩ := Option.map_eq_some_iff.mp hStep
        have hNext := run_inferRule
          (fun s m x (hCall : inferStatement select createRandomUri n true s m = some x) => ih hCall) hy
        exact (hRun.tail (.bind st.2 k s)).trans hNext
      · cases hStep
        exact hRun

theorem run_performInference {fuel : Nat}
    (h : performInference select createRandomUri fuel m = some m') : Run createRandomUri Any m m' := by
  refine Runs.invariant_of_forall (I := fun m' => Run createRandomUri Any m m')
    (fun {m₁ k m₂} hRun hStep => ?_) .refl h
  obtain ⟨y, hy, rfl⟩ := Option.map_eq_some_iff.mp hStep
  exact (hRun.tail (.bind m₁ k .empty)).trans
    (run_inferRule (fun _ _ _ hCall => run_inferStatement hCall) hy)

/-! ### Sequences of calls -/

inductive Call where
  | addStatement (statement : Statement)
  | performInference

def call (select : QString → Store → List BindingSet) (createRandomUri : Nat → QUrl) (fuel : Nat)
    (m : InferenceModel) : Call → Option InferenceModel
  | .addStatement s => (InferenceModel.addStatement select createRandomUri fuel m s).map Prod.snd
  | .performInference => InferenceModel.performInference select createRandomUri fuel m

/-- The statement that the call adds to its own graph. -/
def Call.explicit : Call → List Statement
  | .addStatement s => if s.isValid then [s] else []
  | .performInference => []

/-- The model holds the statements in `E`, and beside them metadata and graphs of inferred
statements. -/
structure Holds (E : Set Statement) (m : InferenceModel) : Prop where
  valid : ∀ q ∈ m.parentModel, q.isValid = true
  mem : ∀ q ∈ E, q ∈ m.parentModel
  infered : ∀ q ∈ m.parentModel, q ∈ E ∨ q.context = .ofUri SIL.InferenceMetaData ∨
    graphType q.context ∈ triples m.parentModel

theorem Holds.congr {E E' : Set Statement} (h : Holds E m) (hE : ∀ q, q ∈ E ↔ q ∈ E') : Holds E' m :=
  Set.ext hE ▸ h

theorem Holds.with_nil {E : Set Statement} (h : Holds E m) :
    Holds {q | q ∈ E ∨ q ∈ ([] : List Statement)} m :=
  h.congr fun _ => (or_iff_left List.not_mem_nil).symm

theorem Step.holds (hUris : ∀ k, (createRandomUri k).isEmpty = false) {E : Set Statement}
    (h : Holds E m) (hStep : Step createRandomUri Any m m') : Holds E m' := by
  have hGrown := hStep.grown (.refl (fun _ => True) m) fun _ _ _ => trivial
  refine ⟨hGrown.valid h.valid, fun q hq => hGrown.mem q (h.mem q hq), fun q hq => ?_⟩
  have hOld : q ∈ m.parentModel → q ∈ E ∨ q.context = .ofUri SIL.InferenceMetaData ∨
      graphType q.context ∈ triples m'.parentModel := fun hq =>
    (h.infered q hq).imp_right (Or.imp_right fun hType => hGrown.triples_subset hType)
  cases hStep with
  | bind => exact hOld hq
  | infer hValid hContext =>
    rcases (mem_addInfered createRandomUri).mp hq with hq | ⟨hq, -⟩
    · exact hOld hq
    · rcases eq_or_mem_metadata createRandomUri hq with rfl | hMeta
      · -- The graph of an inferred statement is typed along with it.
        refine .inr (.inr ⟨graphQuad (m.randomUri createRandomUri), ?_, rfl⟩)
        refine (mem_addInfered createRandomUri).mpr (.inr ⟨List.mem_cons_of_mem _ List.mem_cons_self, ?_⟩)
        rw [randomUri, Node.ofUri_self _ (hUris m.uris)]
        rfl
      · exact .inr (.inl (mem_metadata createRandomUri hMeta).1)

theorem Run.holds (hUris : ∀ k, (createRandomUri k).isEmpty = false) {E : Set Statement}
    (h : Holds E m) (hRun : Run createRandomUri Any m m') : Holds E m' := by
  induction hRun with
  | refl => exact h
  | tail _ hStep ih => exact hStep.holds hUris ih

/-- The call adds the explicit statement, beside what it infers. -/
theorem holds_call (hUris : ∀ k, (createRandomUri k).isEmpty = false) {E : Set Statement}
    (h : Holds E m) {fuel : Nat} {c : Call}
    (hCall : call select createRandomUri fuel m c = some m') :
    Holds {q | q ∈ E ∨ q ∈ c.explicit} m' := by
  cases c with
  | addStatement s =>
    obtain ⟨⟨error, m₁⟩, hAdd, rfl⟩ := Option.map_eq_some_iff.mp hCall
    simp only [InferenceModel.addStatement] at hAdd
    split at hAdd
    · rename_i hs
      obtain ⟨⟨c, m₂⟩, hInfer, hEq⟩ := Option.map_eq_some_iff.mp hAdd
      obtain rfl := (Prod.mk.inj hEq).2
      refine Run.holds hUris ?_ (run_inferStatement hInfer)
      have hMem : ∀ q, q ∈ (m.add s).parentModel ↔ q = s ∨ q ∈ m.parentModel := fun q =>
        (Store.mem_addStatement).trans (or_congr_left (and_iff_left_of_imp fun hEq => hEq ▸ hs))
      have hSubset : triples m.parentModel ⊆ triples (m.add s).parentModel := fun t ht =>
        (triples_add hs).mpr (.inr ht)
      simp only [Call.explicit, if_pos hs, List.mem_singleton]
      refine ⟨fun q hq => ?_, fun q hq => ?_, fun q hq => ?_⟩
      · rcases (hMem q).mp hq with rfl | hq
        · exact hs
        · exact h.valid q hq
      · exact (hMem q).mpr (hq.symm.imp_right (h.mem q))
      · rcases (hMem q).mp hq with rfl | hq
        · exact .inl (.inr rfl)
        · exact (h.infered q hq).imp .inl (Or.imp_right fun hType => hSubset hType)
    · rename_i hs
      obtain rfl := (Prod.mk.inj (Option.some.inj hAdd)).2
      rw [Call.explicit, if_neg hs]
      exact h.with_nil
  | performInference =>
    exact Holds.with_nil (Run.holds hUris h (run_performInference hCall))

/-- A sequence of calls adds the explicit statements, beside what it infers. -/
theorem holds_calls (hUris : ∀ k, (createRandomUri k).isEmpty = false) {E : Set Statement}
    (h : Holds E m) {fuel : Nat} {calls : List Call}
    (hRun : Runs.run (call select createRandomUri fuel) m calls = some m') :
    Holds {q | q ∈ E ∨ q ∈ calls.flatMap Call.explicit} m' := by
  induction calls generalizing m E with
  | nil =>
    cases hRun
    exact h.with_nil
  | cons c calls ih =>
    obtain ⟨m₁, hFirst, hRest⟩ := Runs.run_cons hRun
    have := ih (holds_call hUris h hFirst) hRest
    refine this.congr fun q => ?_
    show (q ∈ E ∨ q ∈ c.explicit) ∨ q ∈ calls.flatMap Call.explicit ↔
      q ∈ E ∨ q ∈ c.explicit ++ calls.flatMap Call.explicit
    rw [List.mem_append, or_assoc]

/-! ### Both together -/

/-- The triples of a store, the metadata of inferred statements aside. -/
def statedTriples (store : Store) : Set Statement :=
  {t | ∃ q ∈ store, q.context ≠ .ofUri SIL.InferenceMetaData ∧ q.triple = t}

/-- The triples beside the metadata are those that are derivable. -/
theorem Completes.stated (h : Completes createRandomUri m m')
    (hSource : ∀ q ∈ m.parentModel, q.context ≠ .ofUri SIL.InferenceMetaData)
    (hGraphs : ∀ k, createRandomUri k ≠ SIL.InferenceMetaData)
    (hFresh : ∀ k, .ofUri (createRandomUri k) ∉ nodesOf m.parentModel m.rules) (t : Statement) :
    t ∈ statedTriples m'.parentModel ↔ (system m.rules).Derivable (triples m.parentModel) t := by
  constructor
  · rintro ⟨q, hq, hContext, rfl⟩
    rcases h.new q hq with hOld | hMeta | ⟨-, hDerivable⟩
    · exact .base ⟨q, hOld, rfl⟩
    · exact absurd (mem_metadata createRandomUri hMeta).1 hContext
    · exact hDerivable
  · intro ht
    obtain ⟨q, hq, rfl⟩ := h.derivable t ht
    refine ⟨q, hq, ?_, rfl⟩
    rcases h.new q hq with hOld | hMeta | ⟨⟨k, hContext⟩, -⟩
    · exact hSource q hOld
    · -- Metadata is about resources that nothing is derived about.
      obtain ⟨k, hSubject⟩ := (mem_metadata createRandomUri hMeta).2.2
      have hClosed : (system m.rules).Closed (triplesOver (nodesOf m.parentModel m.rules)) :=
        fun i hi => hi.conclusion (conclusion_mem_triplesOver hi.mem hi.premises)
      have hNode := (ht.mem_of_closed (triples_subset_triplesOver _ _) hClosed).1
      rw [show q.triple.subject = q.subject from rfl, hSubject] at hNode
      exact absurd hNode (hFresh k)
    · rw [hContext]
      intro hEq
      have hUri : (Node.ofUri (createRandomUri k)).uri = SIL.InferenceMetaData := by rw [hEq]; rfl
      rw [Node.ofUri] at hUri
      split at hUri
      · exact hGraphs k hUri
      · cases congrArg QUrl.isEmpty hUri

/-- Where the rules are written as SPARQL writes them, `performInference` ends with the triples that
are derivable from the store, and `clearInference` leaves what was there and what was added, apart from
the graph of the metadata and the graphs that are typed as graphs of inferred statements. -/
theorem performInference_clearInference (hSelect : Answers select)
    (hUris : ∀ k, (createRandomUri k).isEmpty = false)
    (hGraphs : ∀ k, createRandomUri k ≠ SIL.InferenceMetaData)
    (hFresh : ∀ k, .ofUri (createRandomUri k) ∉ nodesOf m.parentModel m.rules)
    (hQueries : m.optimizedQueries = false)
    (hUnmatched : Unmatched createRandomUri m.rules m.compressedStatements)
    (hValid : ∀ q ∈ m.parentModel, q.isValid = true)
    (hSource : ∀ q ∈ m.parentModel, q.context ≠ .ofUri SIL.InferenceMetaData)
    (hSome : ∀ r ∈ m.rules, r.preconditions ≠ []) (hPlain : PlainRules m.rules) :
    (∃ m', (∃ n, ∀ fuel, n ≤ fuel →
        performInference select createRandomUri fuel m = some m') ∧
      ∀ t, t ∈ statedTriples m'.parentModel ↔
        (system m.rules).Derivable (triples m.parentModel) t) ∧
    ∀ fuel calls m', Runs.run (call select createRandomUri fuel) m calls = some m' →
      ∀ q, q ∈ (clearInference select m').parentModel ↔
        (q ∈ m.parentModel ∨ q ∈ calls.flatMap Call.explicit) ∧
          q.context ≠ .ofUri SIL.InferenceMetaData ∧
          graphType q.context ∉ triples m'.parentModel := by
  constructor
  · have hEngine := engine_of_plain hSelect hUris hValid hPlain hUnmatched hQueries
    obtain ⟨m', hResult, hRun, hClosed⟩ := hEngine.performInference hSome
    exact ⟨m', hResult, (hRun.completes hPlain hUnmatched hClosed).stated hSource hGraphs hFresh⟩
  · intro fuel calls m' hRun q
    have hStart : Holds {q | q ∈ m.parentModel} m := ⟨hValid, fun _ => id, fun _ => .inl⟩
    have hEnd := holds_calls hUris hStart hRun
    rw [mem_clearInference hSelect hEnd.valid]
    refine and_congr_left fun ⟨hContext, hType⟩ => ⟨fun hq => ?_, fun hq => hEnd.mem q hq⟩
    rcases hEnd.infered q hq with hExplicit | hMeta | hInfered
    · exact hExplicit
    · exact absurd hMeta hContext
    · exact absurd hInfered hType

end Qt

section Example

local instance clearingQt : Qt := asciiQt

/-- A store of one statement, and a rule that copies it. -/
def copyModel : InferenceModel := { emptyModel [copyRule] with parentModel := [plainStatement] }

theorem performInference_clearInference_copyRule :
    (∃ m', (∃ n, ∀ fuel, n ≤ fuel →
        performInference Select.select countedUri fuel copyModel = some m') ∧
      ∀ t, t ∈ statedTriples m'.parentModel ↔
        (system copyModel.rules).Derivable (triples copyModel.parentModel) t) ∧
    ∀ fuel calls m', Runs.run (call Select.select countedUri fuel) copyModel calls = some m' →
      ∀ q, q ∈ (clearInference Select.select m').parentModel ↔
        (q ∈ copyModel.parentModel ∨ q ∈ calls.flatMap Call.explicit) ∧
          q.context ≠ .ofUri SIL.InferenceMetaData ∧
          graphType q.context ∉ triples m'.parentModel := by
  have hNodes : ∀ n ∈ nodesOf copyModel.parentModel copyModel.rules,
      n.uri.encoded.head? ≠ some 'i' := by decide
  have hGraphs : ∀ k, countedUri k ≠ SIL.InferenceMetaData := by
    intro k hEq
    have hHead : some 'i' = some 'h' := congrArg (fun u => u.encoded.head?) hEq
    cases hHead
  exact performInference_clearInference Select.answers_select isEmpty_countedUri hGraphs
    (fun k hMem => hNodes _ hMem rfl) rfl (unmatched_of_predicate (by decide)) (by decide) (by decide)
    (by decide) plainRules_copyRule

/-- A statement that is added to the graph of the metadata. -/
def metadataStatement : Statement := { plainStatement with context := .ofUri SIL.InferenceMetaData }

/-- `clearInference` takes it out, although it was added explicitly. -/
theorem clearInference_metadataStatement :
    Unmatched countedUri (emptyModel []).rules true ∧ PlainRules (emptyModel []).rules ∧
      (emptyModel []).parentModel = [] ∧
      ∃ m', Runs.run (call Select.select countedUri 1) (emptyModel []) [.addStatement metadataStatement] =
          some m' ∧
        metadataStatement ∈ [Call.addStatement metadataStatement].flatMap Call.explicit ∧
        metadataStatement ∉ (clearInference Select.select m').parentModel := by
  refine ⟨fun r hr => absurd hr List.not_mem_nil, fun r hr => absurd hr List.not_mem_nil, rfl,
    (emptyModel []).add metadataStatement, rfl, by decide, fun hMem => ?_⟩
  rw [mem_clearInference Select.answers_select (by decide)] at hMem
  exact hMem.2.1 rfl

end Example

end InferenceModel

end Inference

end Soprano
