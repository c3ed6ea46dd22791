import Soprano.Inference.Closure
import Soprano.Inference.RuleSet

/-! When `addStatement` returns: the metadata of an inferred statement is seen by the queries of the
rules, so that the recursion ends only where no rule makes something new of it. -/

namespace Soprano

namespace Inference

open Saturation Sparql Vocabulary

namespace InferenceModel

section Qt

variable [Qt] {select : QString → Store → List BindingSet} {createRandomUri : Nat → QUrl}
  {m m' : InferenceModel} {s : Statement}

/-! ### Inference in any order -/

/-- The rule at a position is applied to the statement: the model behind it, and what was inferred. -/
def applyRule (select : QString → Store → List BindingSet) (createRandomUri : Nat → QUrl)
    (m : InferenceModel) (k : Nat) (r : Rule) (s : Statement) : InferenceModel × List Statement :=
  ((m.bindRule k s).ruleBindings select (r.bindToStatement s)).foldl
    (inferBinding createRandomUri (r.bindToStatement s)) (m.bindRule k s, [])

/-- The models that applying rules to the statement `s` and to what was inferred leads to, in any
order, and the statements that the rules can be applied to there. -/
inductive Explores (select : QString → Store → List BindingSet) (createRandomUri : Nat → QUrl)
    (s : Statement) (m : InferenceModel) : InferenceModel → List Statement → Prop
  | start : Explores select createRandomUri s m m [s]
  | apply {m' : InferenceModel} {statements : List Statement} {k : Nat} {r : Rule} {t : Statement}
      (h : Explores select createRandomUri s m m' statements) (ht : t ∈ statements)
      (hr : m'.rules[k]? = some r) (hMatch : r.match t = true) :
      Explores select createRandomUri s m (m'.applyRule select createRandomUri k r t).1
        (statements ++ (m'.applyRule select createRandomUri k r t).2)

/-- The nodes that every metadata has: the terms of its vocabulary. -/
def metadataNodes : List Node :=
  [.ofUri RDF.type, .ofUri RDF.Statement, .ofUri RDF.subject, .ofUri RDF.predicate, .ofUri RDF.object,
    .ofUri SIL.sourceStatement, .ofUri SIL.InferenceGraph, .ofUri SIL.context]

/-- The nodes that are there before the inference. -/
def knownNodes (m : InferenceModel) : List Node := nodesOf m.parentModel m.rules ++ metadataNodes

/-- Nothing is inferred from the statement about a node that only the metadata of the inference
brings: a random resource, or the text of a source statement. -/
def Contained (select : QString → Store → List BindingSet) (createRandomUri : Nat → QUrl)
    (m : InferenceModel) (s : Statement) : Prop :=
  s.isValid = true → ∀ m' statements, Explores select createRandomUri s (m.add s) m' statements →
    ∀ t ∈ statements, t.triple ∈ triplesOver (m.add s).knownNodes

/-! ### One rule -/

/-- What the loop over the results of a query keeps, whatever the results are. -/
structure Extends (m : InferenceModel) (acc : InferenceModel × List Statement) : Prop where
  triples_subset : triples m.parentModel ⊆ triples acc.1.parentModel
  new : ∀ t ∈ acc.2, t.triple ∉ triples m.parentModel ∧ t.triple ∈ triples acc.1.parentModel

theorem Extends.step (hUris : ∀ k, (createRandomUri k).isEmpty = false)
    {acc : InferenceModel × List Statement} (h : Extends m acc) (r : Rule) (b : BindingSet) :
    Extends m (inferBinding createRandomUri r acc b) := by
  obtain ⟨m', inferedStatements⟩ := acc
  have hContext : (r.bindEffect b).context = .empty := rfl
  simp only [inferBinding]
  split
  · rename_i hNew
    rw [Bool.and_eq_true, Bool.not_eq_true', ← Bool.not_eq_true] at hNew
    obtain ⟨hValid, hAbsent⟩ := hNew
    rw [containsAnyStatement_iff hValid hContext] at hAbsent
    have hSubset : triples m'.parentModel ⊆ triples (m'.addInfered createRandomUri (r.bindEffect b)
        (r.bindPreconditions b)).parentModel := by
      rintro _ ⟨q, hq, rfl⟩
      exact ⟨q, (mem_addInfered createRandomUri).mpr (.inl hq), rfl⟩
    refine ⟨h.triples_subset.trans hSubset, fun t ht => ?_⟩
    rcases List.mem_append.mp ht with ht | ht
    · exact ⟨(h.new t ht).1, hSubset (h.new t ht).2⟩
    · obtain rfl := List.mem_singleton.mp ht
      rw [triple_eq hContext]
      exact ⟨fun hOld => hAbsent (h.triples_subset hOld), mem_triples_addInfered hUris hValid hContext⟩
  · exact h

theorem extends_applyRule (hUris : ∀ k, (createRandomUri k).isEmpty = false) (m : InferenceModel)
    (k : Nat) (r : Rule) (s : Statement) : Extends m (m.applyRule select createRandomUri k r s) := by
  rw [applyRule]
  have hStart : Extends m (m.bindRule k s, []) := ⟨subset_rfl, fun t ht => absurd ht List.not_mem_nil⟩
  generalize (m.bindRule k s).ruleBindings select (r.bindToStatement s) = bindings
  generalize (m.bindRule k s, ([] : List Statement)) = acc at hStart
  induction bindings generalizing acc with
  | nil => exact hStart
  | cons b bindings ih => exact ih _ (hStart.step hUris _ b)

/-- `inferRule` applies the rule and then calls `inferStatement` for what was inferred. -/
theorem inferRule_bindRule {again : Statement → InferenceModel → Option (Nat × InferenceModel)}
    {k : Nat} {r : Rule} (hr : m.rules[k]? = some r) :
    inferRule select createRandomUri again true k (m.bindRule k s) =
      (m.applyRule select createRandomUri k r s).2.foldlM
        (fun (cnt, m) s => (again s m).map fun (n, m) => (cnt + n, m))
        ((m.applyRule select createRandomUri k r s).2.length,
          (m.applyRule select createRandomUri k r s).1) := by
  simp only [inferRule, rules_bindRule hr]
  rw [← applyRule]
  generalize m.applyRule select createRandomUri k r s = acc
  obtain ⟨m', inferedStatements⟩ := acc
  cases inferedStatements with
  | nil => rfl
  | cons first rest => rfl

/-! ### The recursion -/

/-- The call ends in a model that the exploration reaches, which keeps what it was at. -/
def Ends (select : QString → Store → List BindingSet) (createRandomUri : Nat → QUrl) (s : Statement)
    (m₀ m : InferenceModel) (statements : List Statement) (m' : InferenceModel) : Prop :=
  triples m.parentModel ⊆ triples m'.parentModel ∧
    ∃ later, Explores select createRandomUri s m₀ m' later ∧ statements ⊆ later

/-- The recursion is as deep as there are triples of a finite set to infer. -/
theorem exists_inferStatement (hUris : ∀ k, (createRandomUri k).isEmpty = false) {U : Set Statement}
    (hU : U.Finite) {m₀ : InferenceModel} {s₀ : Statement}
    (hContained : ∀ m' statements, Explores select createRandomUri s₀ m₀ m' statements →
      ∀ t ∈ statements, t.triple ∈ U) (n : Nat) {m : InferenceModel} {statements : List Statement}
    {s : Statement} (h : Explores select createRandomUri s₀ m₀ m statements) (hs : s ∈ statements)
    (hMissing : missing U m < n) :
    ∃ x, inferStatement select createRandomUri n true s m = some x ∧
      Ends select createRandomUri s₀ m₀ m statements x.2 := by
  induction n generalizing m statements s with
  | zero => exact absurd hMissing (Nat.not_lt_zero _)
  | succ n ih =>
    -- One turn of the loop over the rules.
    have hTurn : ∀ {st : Nat × InferenceModel} {k : Nat},
        Ends select createRandomUri s₀ m₀ m statements st.2 → True →
        ∃ st', inferMatching select createRandomUri (inferStatement select createRandomUri n true) true s
            st k = some st' ∧ Ends select createRandomUri s₀ m₀ m statements st'.2 := by
      rintro ⟨cnt, m₁⟩ k hEnds -
      obtain ⟨hSubset, later, hExplores, hLater⟩ := hEnds
      simp only [inferMatching]
      cases hr : m₁.rules[k]? with
      | none => exact ⟨(cnt, m₁), rfl, hSubset, later, hExplores, hLater⟩
      | some r =>
        by_cases hMatch : r.match s = true
        · have hNext := hExplores.apply (hLater hs) hr hMatch
          have hExtends : Extends m₁ (m₁.applyRule select createRandomUri k r s) :=
            extends_applyRule hUris m₁ k r s
          simp only [if_pos hMatch, inferRule_bindRule hr]
          generalize m₁.applyRule select createRandomUri k r s = acc at *
          have hAll := hSubset.trans hExtends.triples_subset
          -- Each inferred statement is one triple less that is missing.
          have hCall : ∀ {st : Nat × InferenceModel} {t : Statement},
              Ends select createRandomUri s₀ m₀ acc.1 (later ++ acc.2) st.2 → t ∈ acc.2 →
              ∃ st', ((inferStatement select createRandomUri n true t st.2).map
                fun (c, m) => (st.1 + c, m)) = some st' ∧
                Ends select createRandomUri s₀ m₀ acc.1 (later ++ acc.2) st'.2 := by
            rintro ⟨cnt, m₂⟩ t ⟨hSubset₂, later₂, hExplores₂, hLater₂⟩ ht
            obtain ⟨hOld, hNew⟩ := hExtends.new t ht
            have hLess : missing U m₂ < missing U m₁ :=
              missing_lt hU (hExtends.triples_subset.trans hSubset₂)
                (hContained _ _ hNext t (List.mem_append_right _ ht)) hOld (hSubset₂ hNew)
            have hLe : missing U m₁ ≤ missing U m := missing_le hU hSubset
            obtain ⟨⟨c, m₃⟩, hEnd, hSubset₃, later₃, hExplores₃, hLater₃⟩ := ih (m := m₂)
              hExplores₂ (hLater₂ (List.mem_append_right _ ht)) (by omega)
            exact ⟨(cnt + c, m₃), by rw [hEnd]; rfl, hSubset₂.trans hSubset₃, later₃, hExplores₃,
              List.Subset.trans hLater₂ hLater₃⟩
          obtain ⟨⟨c, m₂⟩, hEnd, hSubset₂, later₂, hExplores₂, hLater₂⟩ := Runs.exists_run hCall
            (s := (acc.2.length, acc.1)) ⟨subset_rfl, _, hNext, List.Subset.refl _⟩
            (Runs.AllMeet.of_forall fun _ ht _ => ht)
          refine ⟨(cnt + c, m₂), ?_, hAll.trans hSubset₂, later₂, hExplores₂, ?_⟩
          · rw [Runs.run] at hEnd
            rw [hEnd]
            rfl
          · exact List.Subset.trans hLater (List.Subset.trans (List.subset_append_left _ _) hLater₂)
        · simp only [if_neg hMatch]
          exact ⟨(cnt, m₁), rfl, hSubset, later, hExplores, hLater⟩
    exact Runs.exists_run hTurn ⟨subset_rfl, statements, h, List.Subset.refl _⟩
      (Runs.AllMeet.of_forall fun _ _ _ => trivial)

/-- A call of `addStatement` that infers nothing about new nodes returns. -/
theorem exists_addStatement (hUris : ∀ k, (createRandomUri k).isEmpty = false)
    (h : Contained select createRandomUri m s) :
    ∃ n x, addStatement select createRandomUri n m s = some x := by
  by_cases hs : s.isValid = true
  · obtain ⟨x, hCall, -⟩ := exists_inferStatement hUris (finite_triplesOver _) (h hs)
      (missing (triplesOver (m.add s).knownNodes) (m.add s) + 1) .start (List.mem_singleton.mpr rfl)
      (Nat.lt_succ_self _)
    exact ⟨_, (.errorNone, x.2), by rw [addStatement, if_pos hs, hCall]; rfl⟩
  · exact ⟨0, (.errorInvalidArgument, m), by rw [addStatement, if_neg hs]⟩

theorem addStatement_mono {n n' : Nat} (hLe : n ≤ n') {x : ErrorCode × InferenceModel}
    (h : addStatement select createRandomUri n m s = some x) :
    addStatement select createRandomUri n' m s = some x := by
  rw [addStatement] at h ⊢
  split at h
  · rename_i hs
    obtain ⟨y, hCall, rfl⟩ := Option.map_eq_some_iff.mp h
    rw [if_pos hs, inferStatement_mono hLe hCall]
    rfl
  · rename_i hs
    rwa [if_neg hs]

/-- The model behind a call of `addStatement`. -/
def added (select : QString → Store → List BindingSet) (createRandomUri : Nat → QUrl) (fuel : Nat)
    (m : InferenceModel) (s : Statement) : Option InferenceModel :=
  (addStatement select createRandomUri fuel m s).map Prod.snd

/-- A term that SPARQL writes as it is and that has no place marker in it. -/
def isPlainTerm : NodePattern → Bool
  | .ofVariable name => isName name && !name.contains '%'
  | .resource (.resource u _) => !u.encoded.contains '%'
  | .resource _ => false

theorem plain_of_isPlainTerm {p : NodePattern} (h : isPlainTerm p = true) :
    PlainPattern p ∧ QString.MarkersAbove 3 (p.createSparqlNodePattern .empty) := by
  cases p with
  | ofVariable name =>
    simp only [isPlainTerm, Bool.and_eq_true, Bool.not_eq_true', List.contains_eq_mem,
      decide_eq_false_iff_not] at h
    refine ⟨h.1, QString.markersAbove_of_notMem fun hMem => ?_⟩
    have hText : (NodePattern.ofVariable name).createSparqlNodePattern .empty = '?' :: name := rfl
    rw [hText, List.mem_cons] at hMem
    exact h.2 (hMem.resolve_left (by decide))
  | resource n =>
    cases n with
    | resource u hu =>
      simp only [isPlainTerm, Bool.not_eq_true', List.contains_eq_mem, decide_eq_false_iff_not] at h
      refine ⟨trivial, QString.markersAbove_of_notMem fun hMem => ?_⟩
      have hText : (NodePattern.resource (.resource u hu)).createSparqlNodePattern .empty =
          '<' :: (u.encoded ++ ['>']) := by
        simp [NodePattern.createSparqlNodePattern, Node.isLiteral, Node.isResource, Node.type, Node.uri]
      rw [hText, List.mem_cons, List.mem_append, List.mem_singleton] at hMem
      rcases hMem with hMem | hMem | hMem
      · revert hMem
        decide
      · exact h hMem
      · revert hMem
        decide
    | empty | blank | literal => cases h

theorem plainRules_of_isPlainTerm {rules : List Rule}
    (h : ∀ r ∈ rules, ∀ p ∈ r.preconditions, isPlainTerm p.subjectPattern = true ∧
      isPlainTerm p.predicatePattern = true ∧ isPlainTerm p.objectPattern = true) : PlainRules rules := by
  intro r hr p hp
  obtain ⟨hSubject, hPredicate, hObject⟩ := h r hr p hp
  obtain ⟨hSubject, hSubjectMarkers⟩ := plain_of_isPlainTerm hSubject
  obtain ⟨hPredicate, hPredicateMarkers⟩ := plain_of_isPlainTerm hPredicate
  exact ⟨hSubject, hPredicate, (plain_of_isPlainTerm hObject).1, hSubjectMarkers, hPredicateMarkers⟩

end Qt

section Example

local instance terminationQt : Qt := asciiQt

theorem plainRules_rdfsRules : PlainRules RuleSet.rdfsRules :=
  plainRules_of_isPlainTerm (by decide)

theorem plainRules_nrlRules : PlainRules RuleSet.nrlRules :=
  plainRules_of_isPlainTerm (by decide)

/-- Nothing is inferred from a statement that each rule of `nrl.rules` lacks a companion for. -/
theorem contained_nrlRules :
    Contained Select.select countedUri (emptyModel RuleSet.nrlRules) plainStatement := by
  intro hValid m' statements h
  have hInvariant : m'.parentModel = [plainStatement] ∧ m'.optimizedQueries = false ∧
      m'.rules.map Rule.unbound = RuleSet.nrlRules ∧ statements = [plainStatement] := by
    induction h with
    | start => exact ⟨rfl, rfl, rfl, rfl⟩
    | @apply m' statements k r t h ht hr hMatch ih =>
      obtain ⟨hStore, hQueries, hRules, rfl⟩ := ih
      have hRule : r.unbound ∈ RuleSet.nrlRules :=
        hRules ▸ List.mem_map_of_mem (List.mem_of_getElem? hr)
      obtain ⟨p, hp, hNone⟩ : ∃ p ∈ r.preconditions, p.match plainStatement = false := by
        have hAll : ∀ r ∈ RuleSet.nrlRules, ∃ p ∈ r.preconditions, p.match plainStatement = false := by
          decide
        exact hAll r.unbound hRule
      have hNothing : (m'.bindRule k t).ruleBindings Select.select (r.bindToStatement t) = [] := by
        refine ruleBindings_eq_nil Select.answers_select ?_ (plainRules_nrlRules r.unbound hRule) hQueries hp ?_
        all_goals
          intro q hq
          rw [bindRule, hStore, List.mem_singleton] at hq
          subst hq
          assumption
      rw [applyRule, hNothing]
      exact ⟨hStore, hQueries, (same_bindRule m' k t).rules.trans hRules, rfl⟩
  obtain ⟨-, -, -, rfl⟩ := hInvariant
  intro t ht
  obtain rfl := List.mem_singleton.mp ht
  refine ⟨?_, ?_, ?_, rfl⟩ <;> decide

/-- Whatever has a type is of the type `urn:c`. -/
def domainStatement : Statement :=
  ⟨.ofUri RDF.type, .ofUri RDFS.domain, .ofUri (urn "c" legal_c), .empty⟩

def typeStatement : Statement :=
  ⟨.ofUri (urn "s" legal_s), .ofUri RDF.type, .ofUri (urn "b" legal_b), .empty⟩

def domainModel (rules : List Rule) : InferenceModel :=
  { emptyModel rules with parentModel := [domainStatement] }

/-- What `rdfs2` infers about a node that has a type. -/
def ofDomain (n : Node) : Statement := ⟨n, .ofUri RDF.type, .ofUri (urn "c" legal_c), .empty⟩

/-- The types in the store. -/
def types : List Node :=
  [.ofUri (urn "b" legal_b), .ofUri (urn "c" legal_c), .ofUri SIL.InferenceGraph]

/-- A model with the rules of `rdfs.rules` and the domain, of which only `rdfs2` finds anything. -/
structure Endless (m : InferenceModel) : Prop where
  rules : ∀ r, r ∈ m.rules.map Rule.unbound ↔ r ∈ RuleSet.rdfsRules
  compressedStatements : m.compressedStatements = true
  optimizedQueries : m.optimizedQueries = false
  valid : ∀ q ∈ m.parentModel, q.isValid = true
  domain : domainStatement ∈ m.parentModel
  known : ∀ q ∈ m.parentModel, q.triple = domainStatement ∨
    q.predicate = .ofUri RDF.type ∧ q.object ∈ types ∨ q.predicate = .ofUri SIL.sourceStatement
  fresh : ∀ q ∈ m.parentModel, ∀ k, m.uris ≤ k → q.subject ≠ .ofUri (countedUri k)

/-- A node with a type is not yet of the type `urn:c`. -/
def Waiting (m : InferenceModel) : Prop :=
  ∃ q ∈ m.parentModel, q.predicate = .ofUri RDF.type ∧ ofDomain q.subject ∉ triples m.parentModel

/-- Each rule but `rdfs2` has a precondition that no statement matches. -/
theorem Endless.unmatched (h : Endless m) {r : Rule} (hr : r ∈ RuleSet.rdfsRules) (hNe : r ≠ RuleSet.rdfs2) :
    ∃ p ∈ r.preconditions, ∀ q ∈ m.parentModel, p.match q = false := by
  have hAll : ∀ r ∈ RuleSet.rdfsRules, r ≠ RuleSet.rdfs2 → ∃ p ∈ r.preconditions,
      p.predicatePattern.match (.ofUri RDFS.domain) = false ∧
      p.predicatePattern.match (.ofUri SIL.sourceStatement) = false ∧
      (p.predicatePattern.match (.ofUri RDF.type) = false ∨
        ∀ n ∈ types, p.objectPattern.match n = false) := by
    decide
  obtain ⟨p, hp, hDomain, hSource, hType⟩ := hAll r hr hNe
  refine ⟨p, hp, fun q hq => ?_⟩
  rw [StatementPattern.match]
  rcases h.known q hq with hTriple | ⟨hPredicate, hObject⟩ | hPredicate
  · have hPredicate : q.predicate = .ofUri RDFS.domain := congrArg Statement.predicate hTriple
    rw [hPredicate, hDomain, Bool.and_false, Bool.false_and]
  · rcases hType with hType | hType
    · rw [hPredicate, hType, Bool.and_false, Bool.false_and]
    · rw [hType q.object hObject, Bool.and_false]
  · rw [hPredicate, hSource, Bool.and_false, Bool.false_and]

/-- What the rules infer is that a subject of the store is of the type `urn:c`. -/
theorem Endless.conclusion (h : Endless m) {i : Rule × (QString → Node)}
    (hi : i ∈ (system m.rules).instances)
    (hPremises : ∀ p ∈ (system m.rules).premises i, p ∈ triples m.parentModel) :
    ∃ q ∈ m.parentModel, (system m.rules).conclusion i = ofDomain q.subject := by
  obtain ⟨r, value⟩ := i
  have hr : r ∈ RuleSet.rdfsRules := (h.rules r).mp hi.1
  by_cases hRule : r = RuleSet.rdfs2
  · subst hRule
    obtain ⟨q, hq, hFirst⟩ := hPremises _ (List.mem_cons_self)
    obtain ⟨q', hq', hSecond⟩ := hPremises _ (List.mem_cons_of_mem _ List.mem_cons_self)
    have hDomain : q'.predicate = .ofUri RDFS.domain := congrArg Statement.predicate hSecond
    have hTriple : q'.triple = domainStatement := by
      rcases h.known q' hq' with hTriple | ⟨hPredicate, -⟩ | hPredicate
      · exact hTriple
      · rw [hDomain] at hPredicate
        exact absurd hPredicate (by decide)
      · rw [hDomain] at hPredicate
        exact absurd hPredicate (by decide)
    have hObject : value ['c'] = .ofUri (urn "c" legal_c) :=
      congrArg Statement.object (hSecond.symm.trans hTriple)
    have hSubject : q.subject = value ['x'] := congrArg Statement.subject hFirst
    refine ⟨q, hq, ?_⟩
    rw [hSubject, ofDomain, ← hObject]
    rfl
  · obtain ⟨p, hp, hNone⟩ := h.unmatched hr hRule
    obtain ⟨q, hq, hTriple⟩ := hPremises (p.bind value) (List.mem_map_of_mem hp)
    have hMatch := StatementPattern.match_of_bind (plainRules_rdfsRules r hr p hp) hTriple.symm
    rw [hNone q hq] at hMatch
    cases hMatch

theorem length_countedUri (k : Nat) :
    (countedUri k).encoded.length = "inference://localhost#".toList.length + k := by
  show ("inference://localhost#".toList ++ List.replicate k 'a').length = _
  rw [List.length_append, List.length_replicate]

theorem countedUri_injective : Function.Injective countedUri := by
  intro k l h
  have hLength : (countedUri k).encoded.length = (countedUri l).encoded.length := by rw [h]
  rw [length_countedUri, length_countedUri] at hLength
  exact Nat.add_left_cancel hLength

theorem ofUri_countedUri_ne {k l : Nat} (h : k ≠ l) : Node.ofUri (countedUri k) ≠ .ofUri (countedUri l) := by
  rw [Node.ofUri_self _ (isEmpty_countedUri k), Node.ofUri_self _ (isEmpty_countedUri l)]
  intro hEq
  exact h (countedUri_injective (Node.resource.inj hEq))

theorem Endless.step (h : Endless m) (hStep : Step countedUri Justified m m') : Endless m' := by
  cases hStep with
  | bind k s =>
    exact ⟨fun r => by rw [(same_bindRule m k s).rules]; exact h.rules r, h.compressedStatements,
      h.optimizedQueries, h.valid, h.domain, h.known, h.fresh⟩
  | @infer t sourceStatements hValid hContext hNew hJustified =>
    obtain ⟨i, hi, rfl, rfl, hPremises⟩ := hJustified
    obtain ⟨source, hSource, hConclusion⟩ := h.conclusion hi hPremises
    have hUris : m.uris < (m.addInfered countedUri ((system m.rules).conclusion i)
        ((system m.rules).premises i)).uris := by
      rw [addInfered_eq]
      show m.uris < m.uris + 1 + _
      omega
    have hQuads : ∀ q ∈ m.inferedQuads countedUri ((system m.rules).conclusion i)
        ((system m.rules).premises i), (q.predicate = .ofUri RDF.type ∧ q.object ∈ types ∨
          q.predicate = .ofUri SIL.sourceStatement) ∧
        (q.subject = source.subject ∨ q.subject = .ofUri (countedUri m.uris)) := by
      intro q hq
      rw [inferedQuads, h.compressedStatements, hConclusion] at hq
      rcases List.mem_cons.mp hq with rfl | hq
      · exact ⟨.inl ⟨rfl, by simp [types, ofDomain]⟩, .inl rfl⟩
      rcases List.mem_cons.mp hq with rfl | hq
      · exact ⟨.inl ⟨rfl, by simp [types, graphQuad]⟩, .inr rfl⟩
      · obtain ⟨hPredicate, hSubject⟩ := mem_sourcesQuads_compressed countedUri hq
        exact ⟨.inr hPredicate, .inr hSubject⟩
    refine ⟨?_, ?_, ?_, fun q hq => ?_, ?_, fun q hq => ?_, fun q hq k hk => ?_⟩
    · rw [addInfered_eq]
      exact h.rules
    · rw [addInfered_eq]
      exact h.compressedStatements
    · rw [addInfered_eq]
      exact h.optimizedQueries
    · exact ((mem_addInfered countedUri).mp hq).elim (h.valid q) fun hq => hq.2
    · exact (mem_addInfered countedUri).mpr (.inl h.domain)
    · rcases (mem_addInfered countedUri).mp hq with hq | ⟨hq, -⟩
      · exact h.known q hq
      · exact .inr (hQuads q hq).1
    · rcases (mem_addInfered countedUri).mp hq with hq | ⟨hq, -⟩
      · exact h.fresh q hq k (by omega)
      · rcases (hQuads q hq).2 with hSubject | hSubject <;> rw [hSubject]
        · exact h.fresh source hSource k (by omega)
        · exact ofUri_countedUri_ne (by omega)

theorem Endless.run (h : Endless m) (hRun : Run countedUri Justified m m') : Endless m' := by
  induction hRun with
  | refl => exact h
  | tail _ hStep ih => exact ih.step hStep

/-- A run adds nothing, or it makes the next random resource an inference graph. -/
theorem Run.marks (hRun : Run countedUri Justified m m') :
    m'.parentModel = m.parentModel ∧ m'.uris = m.uris ∨
      graphQuad (.ofUri (countedUri m.uris)) ∈ m'.parentModel := by
  induction hRun with
  | refl => exact .inl ⟨rfl, rfl⟩
  | @tail m₁ m₂ _ hStep ih =>
    cases hStep with
    | bind k s => exact ih
    | infer =>
      right
      rcases ih with ⟨-, hUris⟩ | hMarked
      · refine (mem_addInfered countedUri).mpr (.inr ⟨?_, rfl⟩)
        rw [← hUris]
        exact List.mem_cons_of_mem _ List.mem_cons_self
      · exact (mem_addInfered countedUri).mpr (.inl hMarked)

theorem ofDomain_notMem_metadata (n : Node) :
    ofDomain n ∉ Statement.triple '' Metadata countedUri true := by
  rintro ⟨q, ⟨k, rfl | ⟨l, s, hq⟩⟩, hTriple⟩
  · have hObject : Node.ofUri SIL.InferenceGraph = .ofUri (urn "c" legal_c) :=
      congrArg Statement.object hTriple
    exact absurd hObject (by decide)
  · obtain rfl := List.mem_singleton.mp hq
    have hPredicate : Node.ofUri SIL.sourceStatement = .ofUri RDF.type :=
      congrArg Statement.predicate hTriple
    exact absurd hPredicate (by decide)

theorem ofDomain_injective {n n' : Node} (h : ofDomain n = ofDomain n') : n = n' :=
  congrArg Statement.subject h

theorem isValid_ofDomain {q : Statement} (h : q.isValid = true) : (ofDomain q.subject).isValid = true := by
  have hSubject : (q.subject.isResource || q.subject.isBlank) = true := by
    rw [Statement.isValid] at h
    split at h <;> simp_all
  have hPredicate : (Node.ofUri RDF.type).isResource = true := rfl
  have hObject : (Node.ofUri (urn "c" legal_c)).isValid = true := rfl
  have hContext : Node.empty.isValid = false := rfl
  simp only [Statement.isValid, ofDomain, hSubject, hPredicate, hObject, hContext]
  rfl

/-- The values under which `rdfs2` infers the type of the node. -/
def valuesOf (n type : Node) (name : QString) : Node :=
  if name = ['x'] then n
  else if name = ['p'] then .ofUri RDF.type
  else if name = ['y'] then type
  else if name = ['c'] then .ofUri (urn "c" legal_c)
  else .empty

theorem Endless.solution (h : Endless m) {q : Statement} (hq : q ∈ m.parentModel)
    (hType : q.predicate = .ofUri RDF.type) :
    Solution RuleSet.rdfs2.preconditions m.parentModel (valuesOf q.subject q.object) := by
  refine ⟨fun p hp => ?_, fun name hName => ?_⟩
  · have hCases : p = ⟨RuleSet.x, RuleSet.p, RuleSet.y⟩ ∨
        p = ⟨RuleSet.p, RuleSet.resource RDFS.domain, RuleSet.c⟩ := by
      simpa [RuleSet.rdfs2, RuleSet.rule] using hp
    rcases hCases with rfl | rfl
    · refine ⟨q, hq, ?_⟩
      rw [Statement.triple, hType]
      rfl
    · exact ⟨domainStatement, h.domain, rfl⟩
  · have hNames : names RuleSet.rdfs2.preconditions = [['x'], ['p'], ['y'], ['p'], ['c']] := rfl
    simp only [hNames, List.mem_cons, List.not_mem_nil, or_false, not_or] at hName
    obtain ⟨hx, hp, hy, -, hc⟩ := hName
    rw [valuesOf, if_neg hx, if_neg hp, if_neg hy, if_neg hc]

/-- The rule `rdfs2` infers the type of each node that waits for it, and the graph of the first of
these waits then. -/
theorem Endless.applyRule (h : Endless m) (hWaiting : Waiting m) {k : Nat} {r : Rule}
    (hr : m.rules[k]? = some r) (hRule : r.unbound = RuleSet.rdfs2) (s : Statement) :
    (m.applyRule Select.select countedUri k r s).2 ≠ [] ∧
      Endless (m.applyRule Select.select countedUri k r s).1 ∧
      Waiting (m.applyRule Select.select countedUri k r s).1 := by
  obtain ⟨q, hq, hType, hNot⟩ := hWaiting
  have hBound : Endless (m.bindRule k s) := h.step (.bind m k s)
  have hPreconditions : r.unbound.preconditions = RuleSet.rdfs2.preconditions :=
    congrArg Rule.preconditions hRule
  have hEffect : r.unbound.effect = RuleSet.rdfs2.effect := congrArg Rule.effect hRule
  change (r.bindToStatement s).preconditions = _ at hPreconditions
  change (r.bindToStatement s).effect = _ at hEffect
  have hPlain : ∀ p ∈ (r.bindToStatement s).preconditions, Plain p := by
    rw [hPreconditions]
    exact plainRules_rdfsRules RuleSet.rdfs2 (by decide)
  have hMember : (r.bindToStatement s).unbound ∈ (m.bindRule k s).rules.map Rule.unbound :=
    List.mem_map_of_mem (List.mem_of_getElem? (rules_bindRule hr s))
  obtain ⟨hSound, hComplete⟩ := ruleBindings_of_query Select.answers_select hBound.valid hPlain
    (by rw [hPreconditions]; decide) (.inl hBound.optimizedQueries)
  obtain ⟨hCollects, hAll⟩ := (Collects.refl countedUri (m.bindRule k s)).foldl isEmpty_countedUri
    hMember fun b hb => ⟨b.value, (hSound b hb).1, by rw [Rule.bindEffect, (hSound b hb).2],
      by rw [Rule.bindPreconditions, (hSound b hb).2]⟩
  -- The node that waits is inferred to be of the type.
  have hInfered : ofDomain q.subject ∈
      triples (m.applyRule Select.select countedUri k r s).1.parentModel := by
    obtain ⟨b, hb, hValue⟩ := hComplete (valuesOf q.subject q.object)
      (hPreconditions ▸ hBound.solution hq hType)
    refine hAll _ (.inr ⟨b, hb, ?_, ?_⟩)
    · rw [Rule.bindEffect, (hSound b hb).2, hValue, hEffect]
      rfl
    · exact isValid_ofDomain (h.valid q hq)
  rw [InferenceModel.applyRule] at *
  generalize ((m.bindRule k s).ruleBindings Select.select (r.bindToStatement s)).foldl
    (inferBinding countedUri (r.bindToStatement s)) (m.bindRule k s, []) = acc at *
  have hNew : ∀ n, ofDomain n ∈ triples acc.1.parentModel → ofDomain n ∈ triples m.parentModel ∨
      ofDomain n ∈ acc.2.map Statement.triple := by
    intro n hMem
    rcases hCollects.new _ hMem with hOld | hMeta | hInfered
    · exact .inl hOld
    · rw [hBound.compressedStatements] at hMeta
      exact absurd hMeta (ofDomain_notMem_metadata n)
    · exact .inr hInfered
  refine ⟨fun hNone => ?_, hBound.run hCollects.run, ?_⟩
  · have := (hNew _ hInfered).resolve_left hNot
    simp [hNone] at this
  · rcases hCollects.run.marks with ⟨hSame, -⟩ | hMarked
    · rw [hSame] at hInfered
      exact absurd hInfered hNot
    · refine ⟨_, hMarked, rfl, fun hMem => ?_⟩
      rcases hNew _ hMem with ⟨q', hq', hTriple⟩ | hLast
      · exact h.fresh q' hq' m.uris (Nat.le_refl _) (congrArg Statement.subject hTriple)
      · obtain ⟨t, ht, hTriple⟩ := List.mem_map.mp hLast
        obtain ⟨-, -, i, hOpen, hConclusion⟩ := hCollects.infered t ht
        obtain ⟨q', hq', hSource⟩ := hBound.conclusion hOpen.mem hOpen.premises
        have hEq := ofDomain_injective (hSource.symm.trans (hConclusion.trans hTriple))
        exact h.fresh q' hq' m.uris (Nat.le_refl _) hEq

/-- No depth is enough for the recursion. -/
theorem Endless.inferStatement (n : Nat) {m : InferenceModel} (h : Endless m) (hWaiting : Waiting m)
    (s : Statement) : inferStatement Select.select countedUri n true s m = none := by
  induction n generalizing m s with
  | zero => rfl
  | succ n ih =>
    -- The call for the first statement that `rdfs2` infers does not end.
    have hDeep : ∀ {st : Nat × InferenceModel} {k : Nat} {r : Rule}, Endless st.2 → Waiting st.2 →
        st.2.rules[k]? = some r → r.unbound = RuleSet.rdfs2 →
        inferMatching Select.select countedUri (InferenceModel.inferStatement Select.select countedUri n true)
          true s st k = none := by
      rintro ⟨cnt, m₁⟩ k r hEndless hWaits hr hRule
      have hPreconditions : r.unbound.preconditions = RuleSet.rdfs2.preconditions :=
        congrArg Rule.preconditions hRule
      have hMatch : r.match s = true := by
        rw [Rule.match]
        change r.preconditions = _ at hPreconditions
        rw [hPreconditions]
        rfl
      obtain ⟨hSome, hNext, hLater⟩ := hEndless.applyRule hWaits hr hRule s
      obtain ⟨first, rest, hInfered⟩ := List.exists_cons_of_ne_nil hSome
      simp only [inferMatching]
      rw [hr]
      simp only [if_pos hMatch, inferRule_bindRule hr]
      rw [hInfered, List.foldlM_cons, ih hNext hLater first]
      rfl
    obtain ⟨k, hk⟩ := List.getElem?_of_mem ((h.rules RuleSet.rdfs2).mpr (by decide))
    have hRange : k ∈ List.range m.rules.length := by
      have := (List.getElem?_eq_some_iff.mp hk).1
      rw [List.length_map] at this
      exact List.mem_range.mpr this
    refine Runs.run_eq_none (I := fun st => Endless st.2 ∧ Waiting st.2 ∧
      st.2.rules.map Rule.unbound = m.rules.map Rule.unbound) ?_ ⟨h, hWaiting, rfl⟩ hRange ?_
    · rintro ⟨cnt, m₁⟩ l st' ⟨hEndless, hWaits, hRules⟩ hTurn
      cases hr : m₁.rules[l]? with
      | none =>
        simp only [inferMatching, hr] at hTurn
        cases hTurn
        exact ⟨hEndless, hWaits, hRules⟩
      | some r =>
        by_cases hRule : r.unbound = RuleSet.rdfs2
        · rw [hDeep hEndless hWaits hr hRule] at hTurn
          cases hTurn
        simp only [inferMatching, hr] at hTurn
        split at hTurn
        · have hMember := (hEndless.rules _).mp (List.mem_map_of_mem (List.mem_of_getElem? hr))
          obtain ⟨p, hp, hNone⟩ := hEndless.unmatched hMember hRule
          have hNothing : (m₁.bindRule l s).ruleBindings Select.select (r.bindToStatement s) = [] :=
            ruleBindings_eq_nil Select.answers_select hEndless.valid
              (plainRules_rdfsRules r.unbound hMember) hEndless.optimizedQueries hp hNone
          rw [inferRule_bindRule hr, InferenceModel.applyRule, hNothing] at hTurn
          cases hTurn
          exact ⟨hEndless.step (.bind m₁ l s), hWaits, (same_bindRule m₁ l s).rules.trans hRules⟩
        · cases hTurn
          exact ⟨hEndless, hWaits, hRules⟩
    · rintro ⟨cnt, m₁⟩ ⟨hEndless, hWaits, hRules⟩
      rw [← hRules, List.getElem?_map, Option.map_eq_some_iff] at hk
      obtain ⟨r, hr, hRule⟩ := hk
      exact hDeep hEndless hWaits hr hRule

/-- The random resources are none of the statements' own. -/
theorem ofUri_countedUri_notMem (k : Nat) :
    Node.ofUri (countedUri k) ∉ domainStatement.nodes ++ typeStatement.nodes := by
  intro hMem
  have hOther : ∀ n ∈ domainStatement.nodes ++ typeStatement.nodes, n.uri.encoded.head? ≠ some 'i' := by
    decide
  exact hOther _ hMem rfl

end Example

end InferenceModel

end Inference

end Soprano
