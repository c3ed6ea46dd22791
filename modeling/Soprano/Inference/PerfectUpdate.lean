import Soprano.Inference.RemovedGraphs

/-! What is left of the inferred statements when an added statement is removed again.  Of each inferred statement
the first derivation alone is recorded, and it goes with a source of that one. -/

namespace Soprano

namespace Inference

open Cascade Saturation Sparql Vocabulary InferenceModel

section Qt

variable [Qt] {select : QString → Store → List BindingSet} {createRandomUri : Nat → QUrl}
  {rules : List Rule} {R : List Source} {E : Set Statement} {m m' : InferenceModel} {s : Statement}

/-- The predicates by which a source statement is found in uncompressed mode. -/
def sourcePredicates : List Node :=
  [.ofUri SIL.sourceStatement, .ofUri RDF.subject, .ofUri RDF.predicate, .ofUri RDF.object]

/-- In uncompressed mode nothing beside the metadata has one of these predicates. -/
def Unconfused (compressed : Bool) (store : Store) : Prop :=
  compressed = false → ∀ q ∈ store, q.context ≠ .ofUri SIL.InferenceMetaData → q.predicate ∉ sourcePredicates

theorem foreign_of_notMem {compressed : Bool} {q : Statement}
    (hContext : q.context ≠ .ofUri SIL.InferenceMetaData)
    (h : compressed = false → q.predicate ∉ sourcePredicates) : Foreign createRandomUri compressed q := by
  have hParts : ∀ part ∈ parts, (.ofUri part.1 : Node) ∈ sourcePredicates := by
    simp [parts, sourcePredicates]
  refine ⟨fun hEq => absurd hEq hContext, fun hEq => ⟨?_, hContext⟩, fun hMode part hPart hEq => ?_⟩
  · cases compressed with
    | true => rfl
    | false => exact absurd (hEq ▸ List.mem_cons_self) (h rfl)
  · exact absurd (hEq ▸ hParts part hPart) (h hMode)

/-! ### What a run puts on record -/

/-- Each statement was added or inferred, and the sources of the inferred ones are on record. -/
structure Accounted (createRandomUri : Nat → QUrl) (rules : List Rule) (E : Set Statement) (m : InferenceModel)
    (R : List Source) : Prop where
  kept : Kept createRandomUri m.compressedStatements m.uris R m.parentModel
  alive : ∀ r ∈ R, graphQuad (r.graphNode createRandomUri) ∈ m.parentModel
  reserved : ∀ q ∈ m.parentModel, q.context = .ofUri SIL.InferenceMetaData →
    q ∈ Metadata createRandomUri m.compressedStatements
  grounded : ∀ q ∈ (onRecord createRandomUri R m.parentModel).items,
    (ledger createRandomUri m.compressedStatements R).Grounded (onRecord createRandomUri R m.parentModel)
      (system rules) Statement.triple E q

theorem exists_mem_sourcesOf (compressed : Bool) (graph k : Nat) {sourceStatements : List Statement} {p : Statement}
    (hp : p ∈ sourceStatements) : ∃ r ∈ sourcesOf compressed graph k sourceStatements,
      r.graph = graph ∧ r.statement = p := by
  induction sourceStatements generalizing k with
  | nil => cases hp
  | cons s sourceStatements ih =>
    rcases List.mem_cons.mp hp with rfl | hp
    · exact ⟨_, List.mem_cons_self, rfl, rfl⟩
    · obtain ⟨r, hr, hRest⟩ := ih (k + sourceUris compressed) hp
      exact ⟨r, List.mem_cons_of_mem _ hr, hRest⟩

/-- What is on record stays so while a model grows. -/
theorem Accounted.grounded_mono (h : Accounted createRandomUri rules E m R) {R' : List Source} {E' : Set Statement}
    {store : Store} (hStore : m.parentModel ⊆ store) (hR : R ⊆ R') (hE : E ⊆ E') {q : Statement}
    (hq : q ∈ (onRecord createRandomUri R m.parentModel).items) :
    (ledger createRandomUri m.compressedStatements R').Grounded (onRecord createRandomUri R' store)
      (system rules) Statement.triple E' q := by
  have hItems : (onRecord createRandomUri R m.parentModel).items ⊆ (onRecord createRandomUri R' store).items :=
    fun q hq => ⟨hStore hq.1, hq.2⟩
  have hAlive : (onRecord createRandomUri R m.parentModel).alive ⊆ (onRecord createRandomUri R' store).alive := by
    rintro g ⟨hGraph, r, hr, rfl⟩
    exact ⟨hStore hGraph, r, hR hr, rfl⟩
  have hSource : ∀ a g, (ledger createRandomUri m.compressedStatements R).source a g →
      (ledger createRandomUri m.compressedStatements R').source a g := by
    rintro a g ⟨r, hr, hSource⟩
    exact ⟨r, hR hr, hSource⟩
  have hGroup : ∀ a, (ledger createRandomUri m.compressedStatements R').group a =
      (ledger createRandomUri m.compressedStatements R).group a := fun _ => rfl
  exact (h.grounded q hq).mono hGroup hSource hItems hAlive hE

/-- An inferred statement is put on record with its sources. -/
theorem Accounted.addInfered (hRandom : RandomUris createRandomUri) (hPlain : PlainRules rules)
    (hUnmatched : Unmatched createRandomUri rules m.compressedStatements)
    (h : Accounted createRandomUri rules E m R) (hRules : system m.rules = system rules) {t : Statement}
    {sourceStatements : List Statement} (hValid : t.isValid = true) (hContext : t.context = .empty)
    (hJustified : Justified m t sourceStatements)
    (hUnconfused : Unconfused m.compressedStatements
      (m.addInfered createRandomUri t sourceStatements).parentModel) :
    Accounted createRandomUri rules E (m.addInfered createRandomUri t sourceStatements)
      (R ++ sourcesOf m.compressedStatements m.uris (m.uris + 1) sourceStatements) := by
  obtain ⟨i, hi, hConclusion, hPremises, hHeld⟩ := hJustified
  rw [hRules] at hi hConclusion hPremises
  have hMode : (m.addInfered createRandomUri t sourceStatements).compressedStatements = m.compressedStatements := by
    rw [addInfered_eq]
  have hSubset : m.parentModel ⊆ (m.addInfered createRandomUri t sourceStatements).parentModel := fun q hq =>
    (mem_addInfered createRandomUri).mpr (.inl hq)
  have hGraph : graphQuad (m.randomUri createRandomUri) ∈
      (m.addInfered createRandomUri t sourceStatements).parentModel := by
    refine (mem_addInfered createRandomUri).mpr (.inr ⟨?_, isValid_metaData hRandom m.uris rfl nofun⟩)
    exact List.mem_cons_of_mem _ List.mem_cons_self
  have hInfered : { t with context := m.randomUri createRandomUri } ∈
      (m.addInfered createRandomUri t sourceStatements).parentModel := by
    refine (mem_addInfered createRandomUri).mpr (.inr ⟨List.mem_cons_self, ?_⟩)
    exact isValid_withContext hValid hContext (hRandom.isEmpty m.uris)
  have hRecordable : Recordable createRandomUri m t sourceStatements := by
    refine ⟨fun hOff => ?_, fun _ p hp => ?_⟩
    · have hOther : m.randomUri createRandomUri ≠ .ofUri SIL.InferenceMetaData := hRandom.ofUri_ne m.uris
      exact foreign_of_notMem hOther fun _ => hUnconfused hOff _ hInfered hOther
    · obtain ⟨q, hq, rfl⟩ := hHeld p hp
      have hFull : Select.Full q := Select.full_of_isValid (h.kept.valid q hq)
      exact hFull
  -- a premise is held by a statement beside the metadata
  have hPremise : ∀ p ∈ sourceStatements, ∃ q ∈ (onRecord createRandomUri R m.parentModel).items, q.triple = p := by
    intro p hp
    obtain ⟨q, hq, hTriple⟩ := hHeld p hp
    refine ⟨q, ⟨hq, fun hMeta => ?_⟩, hTriple⟩
    exact hUnmatched.notMem hPlain hi (hPremises ▸ hp) ⟨q, h.reserved q hq hMeta, hTriple⟩
  have hOld : ∀ q ∈ (onRecord createRandomUri R m.parentModel).items, _ := fun q hq =>
    h.grounded_mono hSubset (List.subset_append_left R
      (sourcesOf m.compressedStatements m.uris (m.uris + 1) sourceStatements)) (Set.Subset.refl E) hq
  refine ⟨?_, fun r hr => ?_, fun q hq hMeta => ?_, fun q hq => ?_⟩
  · rw [hMode]
    exact h.kept.addInfered hRandom hRecordable
  · rcases List.mem_append.mp hr with hr | hr
    · exact hSubset (h.alive r hr)
    · rw [Source.graphNode, (mem_sourcesOf hr).1]
      exact hGraph
  · rw [hMode]
    rcases (mem_addInfered createRandomUri).mp hq with hq | ⟨hq, -⟩
    · exact h.reserved q hq hMeta
    · rcases eq_or_mem_metadata createRandomUri hq with rfl | hq
      · exact absurd hMeta (hRandom.ofUri_ne m.uris)
      · exact hq
  · rw [hMode]
    rcases (mem_addInfered createRandomUri).mp hq.1 with hIn | ⟨hIn, -⟩
    · exact hOld q ⟨hIn, hq.2⟩
    · rcases eq_or_mem_metadata createRandomUri hIn with rfl | hMeta
      · choose! premise hItem hTriple using hPremise
        refine .derived hq hi (hConclusion.trans (triple_eq hContext _).symm) (fun p hp => ?_)
          fun p hp => hOld (premise p) (hItem p (hPremises ▸ hp))
        rw [hPremises] at hp
        obtain ⟨r, hr, hAt, hStatement⟩ := exists_mem_sourcesOf m.compressedStatements m.uris
          (m.uris + 1) hp
        have hNode : r.graphNode createRandomUri = m.randomUri createRandomUri := by
          rw [Source.graphNode, hAt]
          rfl
        refine ⟨hTriple p hp, ⟨hGraph, r, List.mem_append_right R hr, hNode⟩, r, List.mem_append_right R hr,
          hNode, .of_triple ?_⟩
        rw [hStatement]
        exact (congrArg Statement.triple (hTriple p hp)).symm
      · exact absurd (mem_metadata createRandomUri hMeta).1 hq.2

theorem Unconfused.of_subset {compressed : Bool} {store store' : Store} (h : Unconfused compressed store')
    (hSubset : store ⊆ store') : Unconfused compressed store := fun hMode q hq => h hMode q (hSubset hq)

/-- Whatever a run of the engine infers is put on record. -/
theorem Accounted.run (hRandom : RandomUris createRandomUri) (hPlain : PlainRules rules)
    (hUnmatched : Unmatched createRandomUri rules m.compressedStatements)
    (h : Accounted createRandomUri rules E m R) (hRules : system m.rules = system rules)
    (hRun : Run createRandomUri Justified m m') (hUnconfused : Unconfused m.compressedStatements m'.parentModel) :
    ∃ R', Accounted createRandomUri rules E m' R' := by
  induction hRun with
  | refl => exact ⟨R, h⟩
  | @tail mid m' hRun hStep ih =>
    have hSame : Same m mid := Run.same hRun
    have hSystem : system mid.rules = system rules := (system_congr hSame.rules).trans hRules
    cases hStep with
    | bind k s =>
      obtain ⟨R', hMid⟩ := ih hUnconfused
      exact ⟨R', hMid.kept, hMid.alive, hMid.reserved, hMid.grounded⟩
    | @infer t sourceStatements hValid hContext _ hJustified =>
      obtain ⟨R', hMid⟩ := ih (hUnconfused.of_subset fun q hq => (mem_addInfered createRandomUri).mpr (.inl hq))
      refine ⟨_, hMid.addInfered hRandom hPlain ?_ hSystem hValid hContext hJustified ?_⟩
      · rw [hSame.compressedStatements]
        exact hUnmatched
      · rw [hSame.compressedStatements]
        exact hUnconfused

theorem Accounted.add (h : Accounted createRandomUri rules E m R) (hValid : s.isValid = true)
    (hContext : s.context ≠ .ofUri SIL.InferenceMetaData)
    (hUnconfused : Unconfused m.compressedStatements (m.add s).parentModel) :
    Accounted createRandomUri rules {q | q ∈ E ∨ q = s} (m.add s) R := by
  have hMem : ∀ q, q ∈ (m.add s).parentModel ↔ q = s ∨ q ∈ m.parentModel := fun q =>
    Store.mem_addStatement.trans (or_congr_left (and_iff_left_of_imp fun hEq => hEq ▸ hValid))
  have hSubset : m.parentModel ⊆ (m.add s).parentModel := fun q hq => (hMem q).mpr (.inr hq)
  refine ⟨h.kept.add fun _ => ?_, fun r hr => hSubset (h.alive r hr), fun q hq hMeta => ?_, fun q hq => ?_⟩
  · exact foreign_of_notMem hContext fun hMode => hUnconfused hMode s ((hMem s).mpr (.inl rfl)) hContext
  · rcases (hMem q).mp hq with rfl | hq
    · exact absurd hMeta hContext
    · exact h.reserved q hq hMeta
  · rcases (hMem q).mp hq.1 with rfl | hIn
    · exact .given (.inr rfl) hq
    · exact h.grounded_mono hSubset (List.Subset.refl R) (fun _ => .inl) ⟨hIn, hq.2⟩

/-! ### Added statements -/

theorem exists_rule {later : List Rule} (h : later.map Rule.unbound = rules.map Rule.unbound) {r : Rule}
    (hr : r ∈ later) : ∃ r₀ ∈ rules, r₀.preconditions = r.preconditions := by
  have hMem : r.unbound ∈ rules.map Rule.unbound := h ▸ List.mem_map_of_mem hr
  obtain ⟨r₀, hr₀, hEq⟩ := List.mem_map.mp hMem
  exact ⟨r₀, hr₀, congrArg (fun r => r.preconditions) hEq⟩

/-- `addStatement` infers the conclusions of instances, whose premises it records. -/
theorem run_addStatement (hSelect : Answers select) (hUris : ∀ k, (createRandomUri k).isEmpty = false)
    {m₀ : InferenceModel} (hSame : Same m₀ m) (hPlain : PlainRules m₀.rules)
    (hUnmatched : Unmatched createRandomUri m₀.rules m₀.compressedStatements)
    (hQueries : m₀.optimizedQueries = false) (hStore : ∀ q ∈ m.parentModel, q.isValid = true)
    (hValid : s.isValid = true) {fuel : Nat} {c : ErrorCode}
    (hCall : m.addStatement select createRandomUri fuel s = some (c, m')) :
    Run createRandomUri Justified (m.add s) m' := by
  have hAdded : ∀ q ∈ (m.add s).parentModel, q.isValid = true := by
    intro q hq
    rcases Store.mem_addStatement.mp hq with ⟨rfl, hq⟩ | hq
    · exact hq
    · exact hStore q hq
  have hPlain' : PlainRules (m.add s).rules := by
    intro r hr p hp
    obtain ⟨r₀, hr₀, hEq⟩ := exists_rule hSame.rules hr
    exact hPlain r₀ hr₀ p (hEq ▸ hp)
  have hUnmatched' : Unmatched createRandomUri (m.add s).rules (m.add s).compressedStatements := by
    intro r hr p hp q hq
    obtain ⟨r₀, hr₀, hEq⟩ := exists_rule hSame.rules hr
    have hMode : (m.add s).compressedStatements = m₀.compressedStatements := hSame.compressedStatements
    exact hUnmatched r₀ hr₀ p (hEq ▸ hp) q (hMode ▸ hq)
  have hEngine := engine_of_plain (m := m.add s) hSelect hUris hAdded hPlain' hUnmatched'
    (hSame.optimizedQueries.trans hQueries)
  obtain ⟨depth, hDepth⟩ := exists_gt (missing (triplesOver (nodesOf (m.add s).parentModel (m.add s).rules)) (m.add s))
  obtain ⟨x, hResult, hRun, -⟩ := hEngine.inferStatement depth .refl hValid ((triples_add hValid).mpr (.inl rfl))
    hDepth
  rw [InferenceModel.addStatement, if_pos hValid] at hCall
  obtain ⟨y, hInfer, hEq⟩ := Option.map_eq_some_iff.mp hCall
  obtain rfl := (Prod.mk.inj hEq).2
  -- the result does not depend on the depth that is allowed
  have hMore := inferStatement_mono (Nat.le_max_left fuel depth) hInfer
  rw [inferStatement_mono (Nat.le_max_right fuel depth) hResult] at hMore
  obtain rfl := Option.some.inj hMore
  exact hRun

/-- Nothing is lost while statements are added. -/
theorem store_subset_calls {fuel : Nat} {added : List Statement}
    (hRun : Runs.run (InferenceModel.call select createRandomUri fuel) m (added.map Call.addStatement) = some m') :
    m.parentModel ⊆ m'.parentModel := by
  induction added generalizing m with
  | nil =>
    cases hRun
    exact List.Subset.refl _
  | cons s added ih =>
    obtain ⟨m₁, hFirst, hRest⟩ := Runs.run_cons hRun
    refine List.Subset.trans (fun q hq => ?_) (ih hRest)
    obtain ⟨⟨c, m₂⟩, hAdd, rfl⟩ := Option.map_eq_some_iff.mp hFirst
    rw [InferenceModel.addStatement] at hAdd
    split at hAdd
    · obtain ⟨x, hInfer, hEq⟩ := Option.map_eq_some_iff.mp hAdd
      obtain rfl := (Prod.mk.inj hEq).2
      have hGrown := (run_inferStatement hInfer).grown (D := fun _ => True) fun _ _ _ _ _ => trivial
      exact hGrown.mem q (Store.mem_addStatement.mpr (.inr hq))
    · obtain rfl := (Prod.mk.inj (Option.some.inj hAdd)).2
      exact hq

section Calls

variable (hSelect : Answers select) (hRandom : RandomUris createRandomUri) {m₀ : InferenceModel}
  (hPlain : PlainRules m₀.rules) (hUnmatched : Unmatched createRandomUri m₀.rules m₀.compressedStatements)
  (hQueries : m₀.optimizedQueries = false)

include hSelect hRandom hPlain hUnmatched hQueries

theorem Accounted.call (hSame : Same m₀ m) (h : Accounted createRandomUri m₀.rules E m R) {fuel : Nat}
    (hCall : InferenceModel.call select createRandomUri fuel m (.addStatement s) = some m')
    (hContext : s.context ≠ .ofUri SIL.InferenceMetaData)
    (hUnconfused : Unconfused m₀.compressedStatements m'.parentModel) :
    Same m₀ m' ∧ ∃ R', Accounted createRandomUri m₀.rules {q | q ∈ E ∨ q = s ∧ q.isValid = true} m' R' := by
  obtain ⟨⟨c, m₁⟩, hAdd, rfl⟩ := Option.map_eq_some_iff.mp hCall
  cases hValid : s.isValid with
  | false =>
    rw [InferenceModel.addStatement, if_neg (by simp [hValid])] at hAdd
    obtain rfl := (Prod.mk.inj (Option.some.inj hAdd)).2
    have hSet : {q | q ∈ E ∨ q = s ∧ q.isValid = true} = E := by
      ext q
      refine or_iff_left ?_
      rintro ⟨rfl, hTrue⟩
      exact Bool.false_ne_true (hValid.symm.trans hTrue)
    rw [hSet]
    exact ⟨hSame, R, h⟩
  | true =>
    have hRun := run_addStatement hSelect hRandom.isEmpty hSame hPlain hUnmatched hQueries h.kept.valid hValid hAdd
    have hGrown := hRun.grown (D := fun _ => True) fun _ _ _ _ _ => trivial
    have hMode : m.compressedStatements = m₀.compressedStatements := hSame.compressedStatements
    have hAdded := h.add hValid hContext (hMode ▸ hUnconfused.of_subset hGrown.mem)
    have hSet : {q | q ∈ E ∨ q = s ∧ q.isValid = true} = {q | q ∈ E ∨ q = s} := by
      ext q
      exact or_congr_right (and_iff_left_of_imp fun hEq => hEq ▸ hValid)
    rw [hSet]
    have hSameAdd : Same m₀ (m.add s) := ⟨hSame.rules, hSame.compressedStatements, hSame.optimizedQueries⟩
    exact ⟨hSameAdd.trans hGrown.same, hAdded.run hRandom hPlain (hMode ▸ hUnmatched) (system_congr hSame.rules)
      hRun (hMode ▸ hUnconfused)⟩

theorem Accounted.calls (hSame : Same m₀ m) (h : Accounted createRandomUri m₀.rules E m R) {fuel : Nat}
    {added : List Statement}
    (hRun : Runs.run (InferenceModel.call select createRandomUri fuel) m (added.map Call.addStatement) = some m')
    (hContext : ∀ q ∈ added, q.context ≠ .ofUri SIL.InferenceMetaData)
    (hUnconfused : Unconfused m₀.compressedStatements m'.parentModel) :
    Same m₀ m' ∧ ∃ R', Accounted createRandomUri m₀.rules {q | q ∈ E ∨ q ∈ added ∧ q.isValid = true} m' R' := by
  induction added generalizing m E R with
  | nil =>
    cases hRun
    have hSet : {q | q ∈ E ∨ q ∈ ([] : List Statement) ∧ q.isValid = true} = E := by
      ext q
      exact or_iff_left fun hq => absurd hq.1 List.not_mem_nil
    rw [hSet]
    exact ⟨hSame, R, h⟩
  | cons s added ih =>
    obtain ⟨m₁, hFirst, hRest⟩ := Runs.run_cons hRun
    have hLater : ∀ q ∈ m₁.parentModel, q ∈ m'.parentModel := by
      intro q hq
      exact store_subset_calls hRest hq
    obtain ⟨hSame₁, R₁, h₁⟩ := h.call hSelect hRandom hPlain hUnmatched hQueries hSame hFirst
      (hContext s List.mem_cons_self) (hUnconfused.of_subset hLater)
    obtain ⟨hSame', R', h'⟩ := ih hSame₁ h₁ hRest fun q hq => hContext q (List.mem_cons_of_mem s hq)
    refine ⟨hSame', R', ?_⟩
    have hSet : {q | q ∈ E ∨ q ∈ s :: added ∧ q.isValid = true} =
        {q | q ∈ {q | q ∈ E ∨ q = s ∧ q.isValid = true} ∨ q ∈ added ∧ q.isValid = true} := by
      ext q
      rw [Set.mem_ofPred_eq, List.mem_cons, or_and_right]
      exact or_assoc.symm
    rw [hSet]
    exact h'

end Calls

/-! ### The update -/

/-- The graphs that lead back to the statement: those that are found for it, and those that are found for the
statements in such graphs. -/
inductive LeadsTo (select : QString → Store → List BindingSet) (compressed : Bool) (store : Store) (s : Statement) :
    Node → Prop
  | source {g : Node} (h : g ∈ inferedGraphsForStatement (.ofStore select) compressed s store) :
      LeadsTo select compressed store s g
  | member {q : Statement} {g : Node} (hMember : LeadsTo select compressed store s q.context) (hq : q ∈ store)
      (h : g ∈ inferedGraphsForStatement (.ofStore select) compressed q store) : LeadsTo select compressed store s g

theorem Kept.leadsTo_iff {compressed : Bool} {uris : Nat} {store : Store}
    (h : Kept createRandomUri compressed uris R store) (hRandom : RandomUris createRandomUri)
    (hSelect : Answers select) (hs : s ∈ store) {g : Node} :
    LeadsTo select compressed store s g ↔
      (ledger createRandomUri compressed R).Lost (onRecord createRandomUri R store) s g := by
  have hFound : ∀ {q g}, q ∈ store → (g ∈ inferedGraphsForStatement (.ofStore select) compressed q store ↔
      g ∈ (onRecord createRandomUri R store).alive ∧ (ledger createRandomUri compressed R).source q g) :=
    fun hq => h.mem_inferedGraphs hRandom hSelect (Select.full_of_isValid (h.valid _ hq))
  constructor
  · intro hLeads
    induction hLeads with
    | source hg =>
      obtain ⟨hAlive, hSource⟩ := (hFound hs).mp hg
      exact .source hAlive hSource
    | member _ hq hg ih =>
      obtain ⟨hAlive, hSource⟩ := (hFound hq).mp hg
      obtain ⟨-, r, -, hGraph⟩ := ih.alive
      exact .member ih ⟨hq, hGraph ▸ hRandom.ofUri_ne r.graph⟩ hAlive hSource
  · intro hLost
    induction hLost with
    | source hAlive hSource => exact .source ((hFound hs).mpr ⟨hAlive, hSource⟩)
    | member _ hq hAlive hSource ih => exact .member ih hq.1 ((hFound hq.1).mpr ⟨hAlive, hSource⟩)

/-- The statements that were added, without the one that is removed. -/
def remaining (added : List Statement) (s : Statement) : Set Statement :=
  {q | q ∈ added ∧ q.isValid = true ∧ q ≠ s}

theorem accounted_of_empty (createRandomUri : Nat → QUrl) (rules : List Rule) (hEmpty : m.parentModel = []) :
    Accounted createRandomUri rules ∅ m [] := by
  have hNone : ∀ q, q ∉ m.parentModel := by simp [hEmpty]
  have hNoSource : ∀ r : Source, r ∉ [] := fun _ => List.not_mem_nil
  refine ⟨⟨fun q hq => absurd hq (hNone q), fun r hr => absurd hr (hNoSource r), fun _ r hr => absurd hr (hNoSource r),
    fun q hq => absurd hq (hNone q), fun r hr => absurd hr (hNoSource r), fun r hr => absurd hr (hNoSource r)⟩,
    fun r hr => absurd hr (hNoSource r), fun q hq => absurd hq (hNone q), fun q hq => absurd hq.1 (hNone q)⟩

/-- What was added is in the model. -/
theorem mem_of_added {fuel : Nat} {added : List Statement}
    (hRun : Runs.run (InferenceModel.call select createRandomUri fuel) m (added.map Call.addStatement) = some m')
    (hs : s ∈ added) (hValid : s.isValid = true) : s ∈ m'.parentModel := by
  induction added generalizing m with
  | nil => cases hs
  | cons a added ih =>
    obtain ⟨m₁, hFirst, hRest⟩ := Runs.run_cons hRun
    rcases List.mem_cons.mp hs with rfl | hs
    · refine store_subset_calls hRest ?_
      obtain ⟨⟨c, m₂⟩, hAdd, rfl⟩ := Option.map_eq_some_iff.mp hFirst
      rw [InferenceModel.addStatement, if_pos hValid] at hAdd
      obtain ⟨x, hInfer, hEq⟩ := Option.map_eq_some_iff.mp hAdd
      obtain rfl := (Prod.mk.inj hEq).2
      have hGrown := (run_inferStatement hInfer).grown (D := fun _ => True) fun _ _ _ _ _ => trivial
      exact hGrown.mem s (Store.mem_addStatement.mpr (.inl ⟨rfl, hValid⟩))
    · exact ih hRest hs

theorem statedTriples_eq (createRandomUri : Nat → QUrl) (R : List Source) (store : Store) :
    statedTriples store = Statement.triple '' (onRecord createRandomUri R store).items := by
  ext t
  exact exists_congr fun q => and_assoc.symm

/-- The triples in the store, metadata aside, are those that are derivable from the remaining statements. -/
def PerfectUpdate (rules : List Rule) (added : List Statement) (s : Statement) (store : Store) : Prop :=
  ∀ t, t ∈ statedTriples store ↔ (system rules).Derivable (Statement.triple '' remaining added s) t

/-- Behind `removeStatement` the triples are those that are derivable from the remaining statements exactly if
none of these is stored only as the statement itself or in graphs that lead back to it. -/
theorem removeStatement_perfect_iff (hSelect : Answers select) (hRandom : RandomUris createRandomUri)
    {m₀ : InferenceModel} (hEmpty : m₀.parentModel = []) (hPlain : PlainRules m₀.rules)
    (hUnmatched : Unmatched createRandomUri m₀.rules m₀.compressedStatements)
    (hQueries : m₀.optimizedQueries = false) {fuel : Nat} {added : List Statement}
    (hRun : Runs.run (InferenceModel.call select createRandomUri fuel) m₀ (added.map Call.addStatement) = some m)
    (hReserved : ∀ q ∈ added, q.context ≠ .ofUri SIL.InferenceMetaData)
    (hUnconfused : Unconfused m₀.compressedStatements m.parentModel) (hs : s ∈ added) (hValid : s.isValid = true)
    {depth : Nat} {store : Store} (hRemoved : removeStatement (.ofStore select) m.compressedStatements depth s
      m.parentModel = some (.errorNone, store)) :
    PerfectUpdate m₀.rules added s store ↔
      ∀ t, (system m₀.rules).Derivable (Statement.triple '' remaining added s) t →
        ∃ q ∈ m.parentModel, q.context ≠ .ofUri SIL.InferenceMetaData ∧ q.triple = t ∧ q ≠ s ∧
          ¬LeadsTo select m.compressedStatements m.parentModel s q.context := by
  have hStart := accounted_of_empty createRandomUri m₀.rules hEmpty
  obtain ⟨hSame, R, h⟩ := hStart.calls hSelect hRandom hPlain hUnmatched hQueries (.refl m₀) hRun hReserved hUnconfused
  have hIn : s ∈ m.parentModel := mem_of_added hRun hs hValid
  obtain ⟨hCascades, hGone⟩ := h.kept.removeStatement_cascades hRandom hSelect hIn (hReserved s hs) hRemoved
  have hFacts := hCascades.facts_iff ⟨hIn, hReserved s hs⟩ hGone h.grounded
  have hSet : {q | q ∈ (∅ : Set Statement) ∨ q ∈ added ∧ q.isValid = true} \ {s} = remaining added s := by
    ext q
    simp [remaining, and_assoc]
  rw [hSet, ← statedTriples_eq] at hFacts
  refine hFacts.trans (forall_congr' fun t => imp_congr_right fun _ => exists_congr fun q => ?_)
  rw [h.kept.leadsTo_iff hRandom hSelect hIn]
  exact and_assoc

end Qt

section Example

local instance perfectUpdateQt : Qt := asciiQt

/-- Another rule for the statements that `copyRule` infers. -/
def otherCopyRule : Rule where
  preconditions := [⟨.ofVariable ['x'], .resource (.ofUri (urn "r" legal_r)), .ofVariable ['y']⟩]
  effect := copyRule.effect
  bindingStatement := .empty

def otherStatement : Statement := { plainStatement with predicate := .ofUri (urn "r" legal_r) }

theorem removeStatement_perfect_iff_example :
    PerfectUpdate [copyRule] [plainStatement] plainStatement [] := by
  have hRemoved : (Runs.run (InferenceModel.call Select.select countedUri 2) (emptyModel [copyRule])
      ([plainStatement].map Call.addStatement)).bind (fun m =>
        removeStatement (.ofStore Select.select) m.compressedStatements 2 plainStatement m.parentModel) =
      some (.errorNone, []) := by decide
  obtain ⟨m, hRun, hStore⟩ := Option.bind_eq_some_iff.mp hRemoved
  have hUnconfused : Unconfused (emptyModel [copyRule]).compressedStatements m.parentModel := nofun
  have hNone : remaining [plainStatement] plainStatement = ∅ := by
    ext q
    simp +contextual [remaining]
  refine (removeStatement_perfect_iff Select.answers_select randomUris_countedUri rfl plainRules_copyRule
    (unmatched_of_predicate (by decide)) rfl hRun (by decide) hUnconfused (List.mem_singleton_self _) (by decide)
    hStore).mpr fun t ht => ?_
  have hClosed : (system [copyRule]).Closed (triples []) :=
    @closed_emptyModel [copyRule] (by decide)
  rw [hNone, Set.image_empty] at ht
  obtain ⟨q, hq, -⟩ := ht.mem_of_closed (Set.empty_subset _) hClosed
  cases hq

/-- A statement with two derivations is removed with the source of the first. -/
theorem not_perfectUpdate :
    Unmatched countedUri [copyRule, otherCopyRule] true ∧
      ∃ m store, Runs.run (InferenceModel.call Select.select countedUri 3) (emptyModel [copyRule, otherCopyRule])
          ([plainStatement, otherStatement].map Call.addStatement) = some m ∧
        (∀ q ∈ m.parentModel, q.triple = plainStatement.triple → q = plainStatement) ∧
        removeStatement (.ofStore Select.select) m.compressedStatements 3 plainStatement m.parentModel =
          some (.errorNone, store) ∧
        ¬PerfectUpdate [copyRule, otherCopyRule] [plainStatement, otherStatement] plainStatement store := by
  let run := Runs.run (InferenceModel.call Select.select countedUri 3) (emptyModel [copyRule, otherCopyRule])
    ([plainStatement, otherStatement].map Call.addStatement)
  have hRemoved : (run.bind fun m => removeStatement (.ofStore Select.select) m.compressedStatements 3 plainStatement
      m.parentModel) = some (.errorNone, [otherStatement]) := by decide
  have hAlone : (run.all fun m => m.parentModel.all fun q =>
      q.triple ≠ plainStatement.triple || q = plainStatement) = true := by decide
  obtain ⟨m, hRun, hStore⟩ := Option.bind_eq_some_iff.mp hRemoved
  refine ⟨unmatched_of_predicate (by decide), m, _, hRun, fun q hq hTriple => ?_, hStore, fun hPerfect => ?_⟩
  · have hAll : (m.parentModel.all fun q => q.triple ≠ plainStatement.triple || q = plainStatement) = true := by
      have hSome : run = some m := hRun
      rw [hSome] at hAlone
      exact hAlone
    simpa [hTriple] using List.all_eq_true.mp hAll q hq
  · let value : QString → Node := fun name =>
      if name = ['x'] then plainStatement.subject else if name = ['y'] then plainStatement.object else .empty
    have hInstance : (otherCopyRule, value) ∈ (system [copyRule, otherCopyRule]).instances := by
      refine ⟨List.mem_cons_of_mem _ (List.mem_singleton.mpr rfl), fun name hName => ?_, by decide⟩
      have hNames : names otherCopyRule.preconditions = [['x'], ['y']] := rfl
      rw [hNames, List.mem_cons, List.mem_singleton, not_or] at hName
      exact (if_neg hName.1).trans (if_neg hName.2)
    have hDerivable : (system [copyRule, otherCopyRule]).Derivable
        (Statement.triple '' remaining [plainStatement, otherStatement] plainStatement)
        (otherCopyRule.effect.bind value) := by
      refine .step hInstance fun p hp => ?_
      obtain rfl := List.mem_singleton.mp hp
      exact .base ⟨otherStatement, ⟨by decide, by decide, by decide⟩, by decide⟩
    obtain ⟨q, hq, -, hTriple⟩ := (hPerfect _).mpr hDerivable
    obtain rfl := List.mem_singleton.mp hq
    revert hTriple
    decide

end Example

end Inference

end Soprano
