import Mathlib.Logic.Relation
import Soprano.Inference.Instances

/-! What an inference model adds to its parent: the quads of an inferred statement, and the runs of the
engine as sequences of such additions. -/

namespace Soprano

namespace Inference

open Saturation Sparql Vocabulary

section Qt

variable [Qt] (createRandomUri : Nat → QUrl)

/-! ### The quads of an inferred statement -/

/-- The statement that marks a graph as inferred. -/
def graphQuad (graph : Node) : Statement :=
  ⟨graph, .ofUri RDF.type, .ofUri SIL.InferenceGraph, .ofUri SIL.InferenceMetaData⟩

/-- The metadata about one source statement of a graph, where `uri` names the source statement. -/
def sourceQuads (compressed : Bool) (graph uri : Node) (sourceStatement : Statement) :
    List Statement :=
  if compressed then
    [⟨graph, .ofUri SIL.sourceStatement, .ofLiteral (compressStatement sourceStatement),
      .ofUri SIL.InferenceMetaData⟩]
  else
    [⟨uri, .ofUri RDF.type, .ofUri RDF.Statement, .ofUri SIL.InferenceMetaData⟩,
      ⟨uri, .ofUri RDF.subject, sourceStatement.subject, .ofUri SIL.InferenceMetaData⟩,
      ⟨uri, .ofUri RDF.predicate, sourceStatement.predicate, .ofUri SIL.InferenceMetaData⟩,
      ⟨uri, .ofUri RDF.object, sourceStatement.object, .ofUri SIL.InferenceMetaData⟩] ++
    ((if sourceStatement.context.isValid then
      [⟨uri, .ofUri SIL.context, sourceStatement.context, .ofUri SIL.InferenceMetaData⟩] else []) ++
    [⟨graph, .ofUri SIL.sourceStatement, uri, .ofUri SIL.InferenceMetaData⟩])

/-- The metadata statements of the model. -/
def Metadata (compressed : Bool) : Set Statement :=
  {q | ∃ k, q = graphQuad (.ofUri (createRandomUri k)) ∨ ∃ l s,
    q ∈ sourceQuads compressed (.ofUri (createRandomUri k)) (.ofUri (createRandomUri l)) s}

/-- The predicates of the metadata statements. -/
def metadataPredicates : List Node :=
  [.ofUri RDF.type, .ofUri RDF.subject, .ofUri RDF.predicate, .ofUri RDF.object, .ofUri SIL.context,
    .ofUri SIL.sourceStatement]

theorem mem_sourceQuads {compressed : Bool} {graph uri : Node} {s q : Statement}
    (h : q ∈ sourceQuads compressed graph uri s) :
    q.context = .ofUri SIL.InferenceMetaData ∧ q.predicate ∈ metadataPredicates ∧
      (q.subject = graph ∨ q.subject = uri) := by
  rw [sourceQuads] at h
  split at h
  · obtain rfl := List.mem_singleton.mp h
    exact ⟨rfl, by simp [metadataPredicates], .inl rfl⟩
  · rw [List.mem_append, List.mem_append] at h
    rcases h with h | h | h
    · simp only [List.mem_cons, List.not_mem_nil, or_false] at h
      rcases h with rfl | rfl | rfl | rfl <;> exact ⟨rfl, by simp [metadataPredicates], .inr rfl⟩
    · split at h
      · obtain rfl := List.mem_singleton.mp h
        exact ⟨rfl, by simp [metadataPredicates], .inr rfl⟩
      · cases h
    · obtain rfl := List.mem_singleton.mp h
      exact ⟨rfl, by simp [metadataPredicates], .inl rfl⟩

theorem mem_metadata {compressed : Bool} {q : Statement}
    (h : q ∈ Metadata createRandomUri compressed) :
    q.context = .ofUri SIL.InferenceMetaData ∧ q.predicate ∈ metadataPredicates ∧
      ∃ k, q.subject = .ofUri (createRandomUri k) := by
  obtain ⟨k, rfl | ⟨l, s, hq⟩⟩ := h
  · exact ⟨rfl, List.mem_cons_self, k, rfl⟩
  · obtain ⟨hContext, hPredicate, hSubject⟩ := mem_sourceQuads hq
    exact ⟨hContext, hPredicate, hSubject.elim (⟨k, ·⟩) (⟨l, ·⟩)⟩

theorem Store.mem_foldl_addStatement {quads : List Statement} {store : Store} {q : Statement} :
    q ∈ quads.foldl addStatement store ↔ q ∈ store ∨ q ∈ quads ∧ q.isValid = true := by
  induction quads generalizing store with
  | nil => simp
  | cons s quads ih =>
    rw [List.foldl_cons, ih, mem_addStatement, List.mem_cons]
    constructor
    · rintro ((⟨rfl, hs⟩ | hq) | ⟨hq, hValid⟩)
      · exact .inr ⟨.inl rfl, hs⟩
      · exact .inl hq
      · exact .inr ⟨.inr hq, hValid⟩
    · rintro (hq | ⟨rfl | hq, hValid⟩)
      · exact .inl (.inr hq)
      · exact .inl (.inl ⟨rfl, hValid⟩)
      · exact .inr ⟨hq, hValid⟩

namespace InferenceModel

/-- How many random URIs a source statement takes. -/
def sourceUris (compressed : Bool) : Nat := if compressed then 0 else 1

/-- A source statement adds its metadata. -/
theorem addSource_eq (graph : Node) (m : InferenceModel) (s : Statement) :
    addSource createRandomUri graph m s = { m with
      parentModel := (sourceQuads m.compressedStatements graph (m.randomUri createRandomUri) s).foldl
        Store.addStatement m.parentModel
      uris := m.uris + sourceUris m.compressedStatements } := by
  cases hMode : m.compressedStatements
  · by_cases hContext : s.context.isValid = true <;>
      simp [addSource, hMode, storeUncompressedSourceStatement, sourceQuads, sourceUris, hContext, add]
  · simp [addSource, hMode, sourceQuads, sourceUris, add]

/-- The metadata about the source statements of a graph, where the random URIs from `k` on name
them. -/
def sourcesQuads (compressed : Bool) (graph : Node) (k : Nat) : List Statement → List Statement
  | [] => []
  | s :: sourceStatements =>
    sourceQuads compressed graph (.ofUri (createRandomUri k)) s ++
      sourcesQuads compressed graph (k + sourceUris compressed) sourceStatements

/-- All that an inferred statement adds. -/
def inferedQuads (m : InferenceModel) (t : Statement) (sourceStatements : List Statement) :
    List Statement :=
  { t with context := m.randomUri createRandomUri } ::
    graphQuad (m.randomUri createRandomUri) ::
      sourcesQuads createRandomUri m.compressedStatements (m.randomUri createRandomUri) (m.uris + 1)
        sourceStatements

theorem foldl_addSource (graph : Node) (m : InferenceModel) (sourceStatements : List Statement) :
    sourceStatements.foldl (addSource createRandomUri graph) m = { m with
      parentModel := (sourcesQuads createRandomUri m.compressedStatements graph m.uris
        sourceStatements).foldl Store.addStatement m.parentModel
      uris := m.uris + sourceUris m.compressedStatements * sourceStatements.length } := by
  induction sourceStatements generalizing m with
  | nil => rfl
  | cons s sourceStatements ih =>
    rw [List.foldl_cons, addSource_eq, ih, sourcesQuads, List.foldl_append, List.length_cons,
      Nat.mul_succ, Nat.add_comm (_ * _), Nat.add_assoc]
    rfl

theorem addInfered_eq (m : InferenceModel) (t : Statement) (sourceStatements : List Statement) :
    m.addInfered createRandomUri t sourceStatements = { m with
      parentModel := (m.inferedQuads createRandomUri t sourceStatements).foldl Store.addStatement
        m.parentModel
      uris := m.uris + 1 + sourceUris m.compressedStatements * sourceStatements.length } := by
  rw [addInfered, foldl_addSource]
  rfl

theorem mem_addInfered {m : InferenceModel} {t q : Statement} {sourceStatements : List Statement} :
    q ∈ (m.addInfered createRandomUri t sourceStatements).parentModel ↔ q ∈ m.parentModel ∨
      q ∈ m.inferedQuads createRandomUri t sourceStatements ∧ q.isValid = true := by
  rw [addInfered_eq]
  exact Store.mem_foldl_addStatement

theorem mem_metadata_of_mem_sourcesQuads {compressed : Bool} {k l : Nat} {q : Statement}
    {sourceStatements : List Statement}
    (h : q ∈ sourcesQuads createRandomUri compressed (.ofUri (createRandomUri k)) l sourceStatements) :
    q ∈ Metadata createRandomUri compressed := by
  induction sourceStatements generalizing l with
  | nil => cases h
  | cons s sourceStatements ih =>
    rcases List.mem_append.mp h with h | h
    · exact ⟨k, .inr ⟨l, s, h⟩⟩
    · exact ih h

theorem mem_sourcesQuads_compressed {graph : Node} {k : Nat} {q : Statement}
    {sourceStatements : List Statement}
    (h : q ∈ sourcesQuads createRandomUri true graph k sourceStatements) :
    q.predicate = .ofUri SIL.sourceStatement ∧ q.subject = graph := by
  induction sourceStatements generalizing k with
  | nil => cases h
  | cons s sourceStatements ih =>
    rcases List.mem_append.mp h with h | h
    · obtain rfl := List.mem_singleton.mp h
      exact ⟨rfl, rfl⟩
    · exact ih h

/-- Beside the inferred statement in its graph only metadata is added. -/
theorem eq_or_mem_metadata {m : InferenceModel} {t q : Statement} {sourceStatements : List Statement}
    (h : q ∈ m.inferedQuads createRandomUri t sourceStatements) :
    q = { t with context := m.randomUri createRandomUri } ∨
      q ∈ Metadata createRandomUri m.compressedStatements := by
  rcases List.mem_cons.mp h with rfl | h
  · exact .inl rfl
  · right
    rcases List.mem_cons.mp h with rfl | h
    · exact ⟨m.uris, .inl rfl⟩
    · exact mem_metadata_of_mem_sourcesQuads createRandomUri h

/-! ### Runs -/

/-- What the additions leave as it is. -/
structure Same (m m' : InferenceModel) : Prop where
  rules : m'.rules.map Rule.unbound = m.rules.map Rule.unbound
  compressedStatements : m'.compressedStatements = m.compressedStatements
  optimizedQueries : m'.optimizedQueries = m.optimizedQueries

theorem Same.refl (m : InferenceModel) : Same m m := ⟨rfl, rfl, rfl⟩

theorem Same.trans {m m' m'' : InferenceModel} (h : Same m m') (h' : Same m' m'') : Same m m'' :=
  ⟨h'.rules.trans h.rules, h'.compressedStatements.trans h.compressedStatements,
    h'.optimizedQueries.trans h.optimizedQueries⟩

theorem same_bindRule (m : InferenceModel) (k : Nat) (s : Statement) : Same m (m.bindRule k s) := by
  refine ⟨?_, rfl, rfl⟩
  apply List.ext_getElem?
  intro i
  simp only [bindRule, List.getElem?_map, List.getElem?_modify]
  split
  · cases m.rules[i]? <;> rfl
  · simp

/-- A step of the engine: a rule is bound to a statement, or a statement is inferred that is in no
graph of the parent model, where `J` says what the statement and its sources are. -/
inductive Step (J : InferenceModel → Statement → List Statement → Prop) :
    InferenceModel → InferenceModel → Prop where
  | bind (m : InferenceModel) (k : Nat) (s : Statement) : Step J m (m.bindRule k s)
  | infer {m : InferenceModel} {t : Statement} {sourceStatements : List Statement}
      (hValid : t.isValid = true) (hContext : t.context = .empty)
      (hNew : t ∉ triples m.parentModel) (h : J m t sourceStatements) :
      Step J m (m.addInfered createRandomUri t sourceStatements)

def Run (J : InferenceModel → Statement → List Statement → Prop) :
    InferenceModel → InferenceModel → Prop :=
  Relation.ReflTransGen (Step createRandomUri J)

/-- What runs add: metadata, and inferred statements in graphs of their own, of which `D` holds. -/
structure Grown (D : Statement → Prop) (m m' : InferenceModel) : Prop where
  same : Same m m'
  uris : m.uris ≤ m'.uris
  mem : ∀ q ∈ m.parentModel, q ∈ m'.parentModel
  valid : (∀ q ∈ m.parentModel, q.isValid = true) → ∀ q ∈ m'.parentModel, q.isValid = true
  new : ∀ q ∈ m'.parentModel, q ∈ m.parentModel ∨
    q ∈ Metadata createRandomUri m.compressedStatements ∨
    ∃ k, m.uris ≤ k ∧ k < m'.uris ∧ q.context = .ofUri (createRandomUri k) ∧ D q.triple

variable {createRandomUri}

theorem Grown.refl (D : Statement → Prop) (m : InferenceModel) : Grown createRandomUri D m m :=
  ⟨.refl m, Nat.le_refl _, fun _ => id, id, fun _ => .inl⟩

theorem Grown.triples_subset {D : Statement → Prop} {m m' : InferenceModel}
    (h : Grown createRandomUri D m m') : triples m.parentModel ⊆ triples m'.parentModel := by
  rintro _ ⟨q, hq, rfl⟩
  exact ⟨q, h.mem q hq, rfl⟩

theorem triple_eq {t : Statement} (h : t.context = .empty) (graph : Node) :
    ({ t with context := graph } : Statement).triple = t := by
  cases t
  cases h
  rfl

/-- One step adds what it says. -/
theorem Step.grown {J : InferenceModel → Statement → List Statement → Prop} {D : Statement → Prop}
    {m m' m'' : InferenceModel} (h : Grown createRandomUri D m m')
    (hStep : Step createRandomUri J m' m'')
    (hD : ∀ t sourceStatements, J m' t sourceStatements → D t) : Grown createRandomUri D m m'' := by
  cases hStep with
  | bind k s => exact ⟨h.same.trans (same_bindRule m' k s), h.uris, h.mem, h.valid, h.new⟩
  | @infer t sourceStatements hValid hContext hNew hJ =>
    refine ⟨?_, ?_, fun q hq => ?_, fun hAll q hq => ?_, fun q hq => ?_⟩
    · refine h.same.trans ?_
      rw [addInfered_eq]
      exact ⟨rfl, rfl, rfl⟩
    · have := h.uris
      rw [addInfered_eq]
      show m.uris ≤ m'.uris + 1 + _
      omega
    · exact (mem_addInfered createRandomUri).mpr (.inl (h.mem q hq))
    · rcases (mem_addInfered createRandomUri).mp hq with hq | hq
      · exact h.valid hAll q hq
      · exact hq.2
    · have hUris : m'.uris < (m'.addInfered createRandomUri t sourceStatements).uris := by
        rw [addInfered_eq]
        show m'.uris < m'.uris + 1 + _
        omega
      rcases (mem_addInfered createRandomUri).mp hq with hq | ⟨hq, -⟩
      · rcases h.new q hq with hOld | hMeta | ⟨k, hFrom, hTo, hGraph⟩
        · exact .inl hOld
        · exact .inr (.inl hMeta)
        · exact .inr (.inr ⟨k, hFrom, Nat.lt_trans hTo hUris, hGraph⟩)
      · rcases eq_or_mem_metadata createRandomUri hq with rfl | hMeta
        · refine .inr (.inr ⟨m'.uris, h.uris, hUris, rfl, ?_⟩)
          rw [triple_eq hContext]
          exact hD t sourceStatements hJ
        · rw [h.same.compressedStatements] at hMeta
          exact .inr (.inl hMeta)

/-- A run adds what its steps add, where `D` follows from the statements that were there before. -/
theorem Run.grown {J : InferenceModel → Statement → List Statement → Prop} {D : Statement → Prop}
    {m m' : InferenceModel}
    (hD : ∀ m' t sourceStatements, Grown createRandomUri D m m' → J m' t sourceStatements → D t)
    (h : Run createRandomUri J m m') : Grown createRandomUri D m m' := by
  induction h with
  | refl => exact .refl D m
  | tail _ hStep ih => exact hStep.grown ih fun t sources => hD _ t sources ih

/-- The inferred statement is the conclusion of an instance whose premises, its sources, are in the
model. -/
def Justified (m : InferenceModel) (t : Statement) (sourceStatements : List Statement) : Prop :=
  ∃ i ∈ (system m.rules).instances, (system m.rules).conclusion i = t ∧
    (system m.rules).premises i = sourceStatements ∧
    ∀ p ∈ sourceStatements, p ∈ triples m.parentModel

/-- No precondition matches a metadata statement of the model. -/
def Unmatched (createRandomUri : Nat → QUrl) (rules : List Rule) (compressed : Bool) : Prop :=
  ∀ r ∈ rules, ∀ p ∈ r.preconditions, ∀ q ∈ Metadata createRandomUri compressed, p.match q = false

/-- Rules that name other predicates than the metadata has. -/
theorem unmatched_of_predicate {rules : List Rule} {compressed : Bool}
    (h : ∀ r ∈ rules, ∀ p ∈ r.preconditions, ∀ n ∈ metadataPredicates,
      p.predicatePattern.match n = false) : Unmatched createRandomUri rules compressed := by
  intro r hr p hp q hq
  rw [StatementPattern.match, h r hr p hp q.predicate (mem_metadata createRandomUri hq).2.1,
    Bool.and_false, Bool.false_and]

/-- The preconditions of the rules are written as SPARQL writes them. -/
def PlainRules (rules : List Rule) : Prop := ∀ r ∈ rules, ∀ p ∈ r.preconditions, Plain p

theorem exists_precondition {rules : List Rule} {i : Rule × (QString → Node)} {t : Statement}
    (hi : i ∈ (system rules).instances) (ht : t ∈ (system rules).premises i) :
    ∃ r ∈ rules, r.unbound = i.1 ∧ ∃ p ∈ r.preconditions, p.bind i.2 = t := by
  obtain ⟨r, hr, hEq⟩ := List.mem_map.mp hi.1
  obtain ⟨p, hp, hBind⟩ := List.mem_map.mp ht
  rw [← hEq] at hp
  exact ⟨r, hr, hEq, p, hp, hBind⟩

theorem Unmatched.notMem {rules : List Rule} {compressed : Bool}
    (h : Unmatched createRandomUri rules compressed) (hPlain : PlainRules rules)
    {i : Rule × (QString → Node)} {t : Statement} (hi : i ∈ (system rules).instances)
    (ht : t ∈ (system rules).premises i) :
    t ∉ Statement.triple '' Metadata createRandomUri compressed := by
  rintro ⟨q, hq, rfl⟩
  obtain ⟨r, hr, -, p, hp, hBind⟩ := exists_precondition hi ht
  have := StatementPattern.match_of_bind (hPlain r hr p hp) hBind
  rw [h r hr p hp q hq] at this
  cases this

/-- What the engine infers is derivable from what it started from. -/
theorem Run.derives {m m' : InferenceModel}
    (hPlain : PlainRules m.rules)
    (hUnmatched : Unmatched createRandomUri m.rules m.compressedStatements) (h : Run createRandomUri Justified m m') :
    Grown createRandomUri ((system m.rules).Derives (triples m.parentModel)) m m' := by
  refine h.grown ?_
  rintro m' t _ hGrown ⟨i, hi, rfl, rfl, hPremises⟩
  rw [system_congr hGrown.same.rules] at *
  refine ⟨i, hi, rfl, fun p hp => ?_⟩
  obtain ⟨q, hq, rfl⟩ := hPremises p hp
  rcases hGrown.new q hq with hOld | hMeta | ⟨k, -, -, -, hDerives⟩
  · exact .base ⟨q, hOld, rfl⟩
  · exact absurd ⟨q, hMeta, rfl⟩ (hUnmatched.notMem hPlain hi hp)
  · exact hDerives.derivable

end InferenceModel

end Qt

end Inference

end Soprano
