import Soprano.Inference.Sources

/-! Every operation keeps the metadata of an inference model exact, as long as nothing else that reads as
metadata comes in or is taken out. -/

namespace Soprano

namespace Inference

open Sparql Vocabulary

section Qt

variable [Qt] {select : QString → Store → List BindingSet} {createRandomUri : Nat → QUrl}
  {compressed : Bool} {uris : Nat} {R : List Source} {store store' : Store}

/-! ### What is recorded -/

/-- A step of the engine, with the sources that have been recorded. -/
inductive Records (createRandomUri : Nat → QUrl) (J : InferenceModel → Statement → List Statement → Prop) :
    InferenceModel × List Source → InferenceModel × List Source → Prop where
  | bind (m : InferenceModel) (R : List Source) (k : Nat) (s : Statement) :
      Records createRandomUri J (m, R) (m.bindRule k s, R)
  | infer {m : InferenceModel} {t : Statement} {sourceStatements : List Statement} (R : List Source)
      (hValid : t.isValid = true) (hContext : t.context = .empty) (hNew : t ∉ triples m.parentModel)
      (h : J m t sourceStatements) :
      Records createRandomUri J (m, R) (m.addInfered createRandomUri t sourceStatements,
        R ++ sourcesOf m.compressedStatements m.uris (m.uris + 1) sourceStatements)

/-- What a run of the engine records. -/
def Recorded (createRandomUri : Nat → QUrl) (J : InferenceModel → Statement → List Statement → Prop) :
    InferenceModel × List Source → InferenceModel × List Source → Prop :=
  Relation.ReflTransGen (Records createRandomUri J)

theorem exists_recorded {J : InferenceModel → Statement → List Statement → Prop} {m m' : InferenceModel}
    (h : InferenceModel.Run createRandomUri J m m') (R : List Source) :
    ∃ R', Recorded createRandomUri J (m, R) (m', R') := by
  induction h with
  | refl => exact ⟨R, .refl⟩
  | tail _ hStep ih =>
    obtain ⟨R', hRecorded⟩ := ih
    cases hStep with
    | bind k s => exact ⟨R', hRecorded.tail (.bind _ R' k s)⟩
    | infer hValid hContext hNew h => exact ⟨_, hRecorded.tail (.infer R' hValid hContext hNew h)⟩

/-- What an engine may infer: in uncompressed mode the inferred statement must not read as metadata, and
its sources must have no empty nodes. -/
structure Recordable (createRandomUri : Nat → QUrl) (m : InferenceModel) (t : Statement)
    (sourceStatements : List Statement) : Prop where
  foreign : m.compressedStatements = false →
    Foreign createRandomUri false { t with context := m.randomUri createRandomUri }
  full : m.compressedStatements = false → ∀ s ∈ sourceStatements, Select.Full s

open InferenceModel

theorem mem_sourcesOf {graph k : Nat} {sourceStatements : List Statement} {r : Source}
    (h : r ∈ sourcesOf compressed graph k sourceStatements) :
    r.graph = graph ∧ r.statement ∈ sourceStatements ∧
      (compressed = false → k ≤ r.uri ∧ r.uri < k + sourceUris compressed * sourceStatements.length) := by
  induction sourceStatements generalizing k with
  | nil => cases h
  | cons s sourceStatements ih =>
    rcases List.mem_cons.mp h with rfl | h
    · refine ⟨rfl, List.mem_cons_self, ?_⟩
      rintro rfl
      simp [sourceUris]
    · obtain ⟨hGraph, hMem, hUri⟩ := ih h
      refine ⟨hGraph, List.mem_cons_of_mem s hMem, ?_⟩
      rintro rfl
      have := hUri rfl
      simp only [sourceUris, List.length_cons, Bool.false_eq_true, if_false] at this ⊢
      omega

/-- The source statements of a graph have names of their own. -/
theorem eq_of_mem_sourcesOf {graph k : Nat} {sourceStatements : List Statement} {r r' : Source}
    (h : r ∈ sourcesOf false graph k sourceStatements) (h' : r' ∈ sourcesOf false graph k sourceStatements)
    (hUri : r.uri = r'.uri) : r = r' := by
  induction sourceStatements generalizing k with
  | nil => cases h
  | cons s sourceStatements ih =>
    have hLater : ∀ {r}, r ∈ sourcesOf false graph (k + sourceUris false) sourceStatements → k < r.uri :=
      fun h => ((mem_sourcesOf h).2.2 rfl).1
    rcases List.mem_cons.mp h with rfl | h <;> rcases List.mem_cons.mp h' with rfl | h'
    · rfl
    · have := hLater h'
      simp only at hUri
      omega
    · have := hLater h
      simp only at hUri
      omega
    · exact ih h h'

theorem mem_sourcesQuads {graph k : Nat} {sourceStatements : List Statement} {q : Statement} :
    q ∈ sourcesQuads createRandomUri compressed (.ofUri (createRandomUri graph)) k sourceStatements ↔
      ∃ r ∈ sourcesOf compressed graph k sourceStatements, q ∈ r.quads createRandomUri compressed := by
  induction sourceStatements generalizing k with
  | nil => simp [sourcesQuads, sourcesOf]
  | cons s sourceStatements ih =>
    rw [sourcesQuads, sourcesOf, List.mem_append, ih, List.exists_mem_cons_iff]
    rfl

/-- A statement about a resource of the model is valid in the graph of the metadata. -/
theorem isValid_metaData (hRandom : RandomUris createRandomUri) (k : Nat) {x : QUrl} (hx : x.isEmpty = false)
    {o : Node} (ho : o ≠ .empty) :
    (⟨.ofUri (createRandomUri k), .ofUri x, o, .ofUri SIL.InferenceMetaData⟩ : Statement).isValid = true := by
  have hObject : o.isValid = true := isValid_iff.mpr ho
  rw [Node.ofUri_self _ (hRandom.isEmpty k), Node.ofUri_self x hx]
  simp [Statement.isValid, hObject, Node.isResource, Node.type]
  exact .inr rfl

/-- The metadata about a source can be stored. -/
theorem Source.isValid_quads {r : Source} (hRandom : RandomUris createRandomUri)
    (hFull : compressed = false → Select.Full r.statement) :
    ∀ q ∈ r.quads createRandomUri compressed, q.isValid = true := by
  have hUri : r.uriNode createRandomUri ≠ .empty := by
    rw [Source.uriNode, Node.ofUri_self _ (hRandom.isEmpty r.uri)]
    rintro ⟨⟩
  intro q hq
  cases compressed with
  | true =>
    obtain rfl := List.mem_singleton.mp hq
    refine isValid_metaData hRandom r.graph rfl ?_
    rw [Node.ofLiteral_self _ (compressStatement_valid r.statement)]
    rintro ⟨⟩
  | false =>
    obtain ⟨hSubject, hPredicate, hObject⟩ := hFull rfl
    rw [quads, sourceQuads, if_neg (by decide), List.mem_append, List.mem_append] at hq
    rcases hq with hq | hq | hq
    · simp only [List.mem_cons, List.not_mem_nil, or_false] at hq
      rcases hq with rfl | rfl | rfl | rfl
      · exact isValid_metaData hRandom r.uri rfl (by rintro ⟨⟩)
      · exact isValid_metaData hRandom r.uri rfl hSubject
      · exact isValid_metaData hRandom r.uri rfl hPredicate
      · exact isValid_metaData hRandom r.uri rfl hObject
    · split at hq
      · rename_i hContext
        obtain rfl := List.mem_singleton.mp hq
        exact isValid_metaData hRandom r.uri rfl (isValid_iff.mp hContext)
      · cases hq
    · obtain rfl := List.mem_singleton.mp hq
      exact isValid_metaData hRandom r.graph rfl hUri

/-- What an inference adds to the graph of the metadata is about resources that are made for it. -/
theorem subject_of_mem_inferedQuads (hRandom : RandomUris createRandomUri) {m : InferenceModel}
    {t q : Statement} {sourceStatements : List Statement}
    (hq : q ∈ m.inferedQuads createRandomUri t sourceStatements)
    (hContext : q.context = .ofUri SIL.InferenceMetaData) :
    ∃ k, m.uris ≤ k ∧ q.subject = .ofUri (createRandomUri k) := by
  rcases List.mem_cons.mp hq with rfl | hq
  · exact absurd hContext (hRandom.ofUri_ne m.uris)
  · rcases List.mem_cons.mp hq with rfl | hq
    · exact ⟨m.uris, Nat.le_refl _, rfl⟩
    · obtain ⟨r, hr, hQuad⟩ := mem_sourcesQuads.mp hq
      obtain ⟨hGraph, -, hUri⟩ := mem_sourcesOf hr
      rcases Source.mem_quads hQuad with rfl | ⟨hMode, hDescribes⟩
      · exact ⟨r.graph, Nat.le_of_eq hGraph.symm, rfl⟩
      · exact ⟨r.uri, Nat.le_of_succ_le (hUri hMode).1, hDescribes.subject⟩

theorem foreign_infered (hRandom : RandomUris createRandomUri) {m : InferenceModel} {t : Statement}
    {sourceStatements : List Statement} (h : Recordable createRandomUri m t sourceStatements) :
    Foreign createRandomUri m.compressedStatements { t with context := m.randomUri createRandomUri } := by
  cases hMode : m.compressedStatements with
  | false => exact h.foreign hMode
  | true =>
    have hContext : m.randomUri createRandomUri ≠ .ofUri SIL.InferenceMetaData := hRandom.ofUri_ne m.uris
    exact ⟨fun hEq => absurd hEq hContext, fun _ => ⟨rfl, hContext⟩, nofun⟩

namespace Kept

/-- An inference adds its sources to those that are recorded. -/
theorem addInfered (hRandom : RandomUris createRandomUri) {m : InferenceModel} {t : Statement}
    {sourceStatements : List Statement}
    (h : Kept createRandomUri m.compressedStatements m.uris R m.parentModel)
    (hInfer : Recordable createRandomUri m t sourceStatements) :
    Kept createRandomUri m.compressedStatements (m.addInfered createRandomUri t sourceStatements).uris
      (R ++ sourcesOf m.compressedStatements m.uris (m.uris + 1) sourceStatements)
      (m.addInfered createRandomUri t sourceStatements).parentModel := by
  have hUris : (m.addInfered createRandomUri t sourceStatements).uris =
      m.uris + 1 + sourceUris m.compressedStatements * sourceStatements.length := by
    rw [addInfered_eq]
  have hOld : ∀ {q : Statement} {k : Nat}, q.context = .ofUri SIL.InferenceMetaData → k < m.uris →
      q.subject = .ofUri (createRandomUri k) →
      q ∈ (m.addInfered createRandomUri t sourceStatements).parentModel → q ∈ m.parentModel := by
    intro q k hContext hk hSubject hq
    rcases (mem_addInfered createRandomUri).mp hq with hq | ⟨hq, -⟩
    · exact hq
    · obtain ⟨l, hl, hSubject'⟩ := subject_of_mem_inferedQuads hRandom hq hContext
      have := hRandom.ofUri_inj.mp (hSubject.symm.trans hSubject')
      omega
  have hNew : ∀ {r}, r ∈ sourcesOf m.compressedStatements m.uris (m.uris + 1) sourceStatements →
      graphQuad (r.graphNode createRandomUri) ∈
          (m.addInfered createRandomUri t sourceStatements).parentModel ∧
        ∀ q ∈ r.quads createRandomUri m.compressedStatements,
          q ∈ (m.addInfered createRandomUri t sourceStatements).parentModel := by
    intro r hr
    obtain ⟨hGraph, hMem, -⟩ := mem_sourcesOf hr
    refine ⟨(mem_addInfered createRandomUri).mpr (.inr ⟨?_, ?_⟩), fun q hq => ?_⟩
    · rw [Source.graphNode, hGraph]
      exact List.mem_cons_of_mem _ List.mem_cons_self
    · exact isValid_metaData hRandom r.graph rfl nofun
    · refine (mem_addInfered createRandomUri).mpr (.inr ⟨?_, ?_⟩)
      · exact List.mem_cons_of_mem _ (List.mem_cons_of_mem _ (mem_sourcesQuads.mpr ⟨r, hr, hq⟩))
      · exact r.isValid_quads hRandom (fun hMode => hInfer.full hMode _ hMem) q hq
  refine ⟨fun q hq => ?_, fun r hr => ?_, fun hMode r hr r' hr' => ?_, fun q hq => ?_, fun r hr hAlive q hQuad => ?_,
    fun r hr hMark => ?_⟩
  · rcases (mem_addInfered createRandomUri).mp hq with hq | hq
    · exact h.valid q hq
    · exact hq.2
  · rw [hUris]
    rcases List.mem_append.mp hr with hr | hr
    · have := h.below r hr
      refine ⟨by omega, fun hMode => ?_⟩
      have := this.2 hMode
      omega
    · obtain ⟨hGraph, -, hUri⟩ := mem_sourcesOf hr
      exact ⟨by omega, fun hMode => (hUri hMode).2⟩
  · have hFrom : ∀ {r}, r ∈ R → r.graph < m.uris ∧ r.uri < m.uris := fun hr =>
      ⟨(h.below _ hr).1, (h.below _ hr).2 hMode⟩
    have hAt : ∀ {r}, r ∈ sourcesOf m.compressedStatements m.uris (m.uris + 1) sourceStatements →
        r.graph = m.uris ∧ m.uris < r.uri := fun hr =>
      ⟨(mem_sourcesOf hr).1, ((mem_sourcesOf hr).2.2 hMode).1⟩
    rcases List.mem_append.mp hr with hr | hr <;> rcases List.mem_append.mp hr' with hr' | hr'
    · exact h.distinct hMode r hr r' hr'
    · have := hFrom hr
      have := hAt hr'
      exact ⟨by omega, fun hEq => by omega⟩
    · have := hAt hr
      have := hFrom hr'
      exact ⟨by omega, fun hEq => by omega⟩
    · have := hAt hr
      have := hAt hr'
      rw [hMode] at hr hr'
      exact ⟨by omega, eq_of_mem_sourcesOf hr hr'⟩
  · rcases (mem_addInfered createRandomUri).mp hq with hq | ⟨hq, -⟩
    · rcases h.known q hq with hForeign | hGraph | ⟨r, hr, hQuad⟩
      · exact .inl hForeign
      · exact .inr (.inl hGraph)
      · exact .inr (.inr ⟨r, List.mem_append_left _ hr, hQuad⟩)
    · rcases List.mem_cons.mp hq with rfl | hq
      · exact .inl (foreign_infered hRandom hInfer)
      · rcases List.mem_cons.mp hq with rfl | hq
        · exact .inr (.inl ⟨m.uris, rfl⟩)
        · obtain ⟨r, hr, hQuad⟩ := mem_sourcesQuads.mp hq
          exact .inr (.inr ⟨r, List.mem_append_right _ hr, hQuad⟩)
  · rcases List.mem_append.mp hr with hr | hr
    · have hAlive := hOld rfl (h.below r hr).1 rfl hAlive
      exact (mem_addInfered createRandomUri).mpr (.inl (h.stored r hr hAlive q hQuad))
    · exact (hNew hr).2 q hQuad
  · rcases List.mem_append.mp hr with hr | hr
    · have hMark := hOld rfl (h.below r hr).1 rfl hMark
      exact (mem_addInfered createRandomUri).mpr (.inl (h.marked r hr hMark))
    · exact (hNew hr).1

/-- A step of the engine that records what it may. -/
theorem records (hRandom : RandomUris createRandomUri) {m m' : InferenceModel} {R' : List Source}
    (h : Kept createRandomUri m.compressedStatements m.uris R m.parentModel)
    (hStep : Records createRandomUri (Recordable createRandomUri) (m, R) (m', R')) :
    m'.compressedStatements = m.compressedStatements ∧
      Kept createRandomUri m'.compressedStatements m'.uris R' m'.parentModel := by
  cases hStep with
  | bind k s => exact ⟨rfl, h⟩
  | @infer _ t sourceStatements _ hValid hContext hNew hInfer =>
    have hMode : (m.addInfered createRandomUri t sourceStatements).compressedStatements =
        m.compressedStatements := by
      rw [addInfered_eq]
    refine ⟨hMode, ?_⟩
    rw [hMode]
    exact h.addInfered hRandom hInfer

theorem recorded (hRandom : RandomUris createRandomUri) {a b : InferenceModel × List Source}
    (h : Kept createRandomUri a.1.compressedStatements a.1.uris a.2 a.1.parentModel)
    (hRun : Recorded createRandomUri (Recordable createRandomUri) a b) :
    b.1.compressedStatements = a.1.compressedStatements ∧
      Kept createRandomUri b.1.compressedStatements b.1.uris b.2 b.1.parentModel := by
  induction hRun with
  | refl => exact ⟨rfl, h⟩
  | tail _ hStep ih =>
    obtain ⟨hMode, hKept⟩ := ih
    obtain ⟨hMode', hKept'⟩ := hKept.records hRandom hStep
    exact ⟨hMode'.trans hMode, hKept'⟩

/-! ### What is removed -/

/-- A removal keeps the metadata exact if it leaves the metadata of every graph, or takes it all. -/
theorem shrink (h : Kept createRandomUri compressed uris R store) (hSubset : store' ⊆ store)
    (hAlive : ∀ r ∈ R, graphQuad (r.graphNode createRandomUri) ∈ store' →
      ∀ q ∈ r.quads createRandomUri compressed, q ∈ store → q ∈ store')
    (hMark : ∀ r ∈ R, r.mark createRandomUri compressed ∈ store' →
      graphQuad (r.graphNode createRandomUri) ∈ store → graphQuad (r.graphNode createRandomUri) ∈ store') :
    Kept createRandomUri compressed uris R store' where
  valid q hq := h.valid q (hSubset hq)
  below := h.below
  distinct := h.distinct
  known q hq := h.known q (hSubset hq)
  stored r hr hGraph q hQuad := hAlive r hr hGraph q hQuad (h.stored r hr (hSubset hGraph) q hQuad)
  marked r hr hIn := hMark r hr hIn (h.marked r hr (hSubset hIn))

/-- Metadata is not foreign. -/
theorem not_foreign {r : Source} {q : Statement}
    (hq : q = graphQuad (r.graphNode createRandomUri) ∨ q ∈ r.quads createRandomUri compressed) :
    ¬Foreign createRandomUri compressed q := by
  intro hForeign
  rcases hq with rfl | hq
  · exact hForeign.metaData rfl r.graph rfl
  · obtain ⟨hContext, -, hSubject | hSubject⟩ := mem_sourceQuads hq
    · exact hForeign.metaData hContext r.graph hSubject
    · exact hForeign.metaData hContext r.uri hSubject

theorem removeForeign (h : Kept createRandomUri compressed uris R store) (hSubset : store' ⊆ store)
    (hForeign : ∀ q ∈ store, q ∉ store' → Foreign createRandomUri compressed q) :
    Kept createRandomUri compressed uris R store' := by
  have hStays : ∀ {r : Source} {q : Statement}, q = graphQuad (r.graphNode createRandomUri) ∨
      q ∈ r.quads createRandomUri compressed → q ∈ store → q ∈ store' := by
    intro r q hq hMem
    by_contra hGone
    exact not_foreign hq (hForeign q hMem hGone)
  exact h.shrink hSubset (fun r _ _ q hQuad hq => hStays (.inr hQuad) hq)
    fun r _ _ hGraph => hStays (r := r) (.inl rfl) hGraph

/-- A graph goes with its sources. -/
theorem removeMetadata (hRandom : RandomUris createRandomUri)
    (h : Kept createRandomUri compressed uris R store) {r : Source} (hr : r ∈ R)
    (hMem : ∀ q, q ∈ store' ↔ q ∈ store ∧ ¬(q.context = .ofUri SIL.InferenceMetaData ∧
      (q.subject = r.graphNode createRandomUri ∨ compressed = false ∧ ∃ p ∈ store,
        p.subject = r.graphNode createRandomUri ∧ p.predicate = .ofUri SIL.sourceStatement ∧
          p.context = .ofUri SIL.InferenceMetaData ∧ q.subject = p.object))) :
    Kept createRandomUri compressed uris R store' := by
  -- what is taken is about the graph or about a source of it
  have hTaken : ∀ {q : Statement}, q ∈ store → q ∉ store' →
      q.subject = r.graphNode createRandomUri ∨ compressed = false ∧ ∃ t ∈ R,
        t.graph = r.graph ∧ q.subject = t.uriNode createRandomUri := by
    intro q hq hGone
    rw [hMem, not_and, not_not] at hGone
    obtain ⟨-, hSubject | ⟨hMode, p, hp, hGraph, hPredicate, hContext, hObject⟩⟩ := hGone hq
    · exact .inl hSubject
    · obtain ⟨t, ht, -, rfl⟩ := h.of_mark hp hPredicate fun _ => hContext
      refine .inr ⟨hMode, t, ht, hRandom.ofUri_inj.mp hGraph, ?_⟩
      rw [hObject, Source.mark, hMode]
      rfl
  have hStays : ∀ {t : Source} {q : Statement}, t ∈ R → t.graph ≠ r.graph →
      q = graphQuad (t.graphNode createRandomUri) ∨ q ∈ t.quads createRandomUri compressed →
        q ∈ store → q ∈ store' := by
    intro t q ht hOther hq hIn
    have hAbout : q.subject = t.graphNode createRandomUri ∨
        compressed = false ∧ q.subject = t.uriNode createRandomUri := by
      rcases hq with rfl | hq
      · exact .inl rfl
      · rcases Source.mem_quads hq with rfl | ⟨hMode, hDescribes⟩
        · exact .inl rfl
        · exact .inr ⟨hMode, hDescribes.subject⟩
    by_contra hNot
    rcases hTaken hIn hNot with hGraph | ⟨hMode, t', ht', hSame, hUri⟩
    · rcases hAbout with hSubject | ⟨hMode, hSubject⟩
      · exact hOther (hRandom.ofUri_inj.mp (hSubject.symm.trans hGraph))
      · exact (h.distinct hMode t ht r hr).1 (hRandom.ofUri_inj.mp (hSubject.symm.trans hGraph))
    · rcases hAbout with hSubject | ⟨-, hSubject⟩
      · exact (h.distinct hMode t' ht' t ht).1 (hRandom.ofUri_inj.mp (hUri.symm.trans hSubject))
      · obtain rfl := (h.distinct hMode t ht t' ht').2 (hRandom.ofUri_inj.mp (hSubject.symm.trans hUri))
        exact hOther hSame
  have hGone : ∀ {q : Statement}, q.context = .ofUri SIL.InferenceMetaData →
      q.subject = r.graphNode createRandomUri → q ∉ store' := fun hContext hSubject hq =>
    ((hMem _).mp hq).2 ⟨hContext, .inl hSubject⟩
  refine h.shrink (fun q hq => ((hMem q).mp hq).1) (fun t ht hGraph q hQuad hq => ?_) fun t ht hMark hGraph => ?_
  · refine hStays ht (fun hEq => hGone rfl ?_ hGraph) (.inr hQuad) hq
    exact congrArg (fun k => Node.ofUri (createRandomUri k)) hEq
  · refine hStays (t := t) ht (fun hEq => hGone rfl ?_ hMark) (.inl rfl) hGraph
    exact congrArg (fun k => Node.ofUri (createRandomUri k)) hEq

end Kept

theorem Outcome.forEach_eq {α : Type} (f : α → Store → Store) (l : List α) (store : Store) :
    Outcome.forEach (fun a store => some (.errorNone, f a store)) l store =
      some (.errorNone, l.foldl (fun store a => f a store) store) := by
  induction l generalizing store with
  | nil => rfl
  | cons a l ih =>
    rw [Outcome.forEach, List.foldl_cons, ← ih]
    rfl

/-- What holds behind each turn of a loop holds behind the loop. -/
theorem Outcome.forEach_invariant {α : Type} {I : Store → Prop} {f : α → Store → Outcome} {l : List α}
    {c : ErrorCode}
    (hStep : ∀ a ∈ l, ∀ store c store', I store → f a store = some (c, store') → I store')
    (h : I store) (hRun : Outcome.forEach f l store = some (c, store')) : I store' := by
  induction l generalizing store with
  | nil =>
    obtain ⟨-, rfl⟩ := Prod.mk.inj (Option.some.inj hRun)
    exact h
  | cons a l ih =>
    rcases Outcome.unlessError_eq_some hRun with ⟨mid, hFirst, hRest⟩ | ⟨-, hFirst⟩
    · have hMid := hStep a List.mem_cons_self store _ mid h hFirst
      exact ih (fun b hb => hStep b (List.mem_cons_of_mem a hb)) hMid hRest
    · exact hStep a List.mem_cons_self store _ store' h hFirst

/-- The metadata about a subject is removed. -/
theorem mem_removeAbout {n : Node} (hn : n ≠ .empty) {q : Statement} :
    q ∈ Store.removeAllStatements store ⟨n, .empty, .empty, .ofUri SIL.InferenceMetaData⟩ ↔
      q ∈ store ∧ ¬(q.context = .ofUri SIL.InferenceMetaData ∧ q.subject = n) := by
  rw [Store.removeAllStatements, List.mem_filter, Bool.not_eq_true', ← Bool.not_eq_true, Store.isMatch_iff]
  refine and_congr_right fun _ => not_congr ⟨fun h => ⟨h.2.2.2 (by rintro ⟨⟩), h.1 hn⟩, fun h => ?_⟩
  exact ⟨fun _ => h.2, fun hNot => absurd rfl hNot, fun hNot => absurd rfl hNot, fun _ => h.1⟩

theorem mem_foldl_removeAbout {l : List Node} (hl : ∀ n ∈ l, n ≠ .empty) {q : Statement} :
    q ∈ l.foldl (fun store n => Store.removeAllStatements store
        ⟨n, .empty, .empty, .ofUri SIL.InferenceMetaData⟩) store ↔
      q ∈ store ∧ ¬(q.context = .ofUri SIL.InferenceMetaData ∧ q.subject ∈ l) := by
  induction l generalizing store with
  | nil => simp
  | cons n l ih =>
    rw [List.foldl_cons, ih fun m hm => hl m (List.mem_cons_of_mem n hm),
      mem_removeAbout (hl n List.mem_cons_self), List.mem_cons]
    tauto

variable (select compressed) in
/-- What is left of the metadata before the statements of the graph are removed. -/
theorem removeGraph_eq (again : Statement → Store → Outcome) {g : Node} (hg : g ≠ .empty)
    (hValid : ∀ q ∈ store, q.isValid = true) :
    ∃ mid, removeGraph (.ofStore select) compressed again g store = removeContextWith again g mid ∧
      ∀ q, q ∈ mid ↔ q ∈ store ∧ ¬(q.context = .ofUri SIL.InferenceMetaData ∧
        (q.subject = g ∨ compressed = false ∧ ∃ p ∈ store, p.subject = g ∧
          p.predicate = .ofUri SIL.sourceStatement ∧ p.context = .ofUri SIL.InferenceMetaData ∧
            q.subject = p.object)) := by
  cases compressed with
  | true =>
    refine ⟨_, rfl, fun q => (mem_removeAbout hg).trans ?_⟩
    simp
  | false =>
    let sources := (Store.listStatements store
      ⟨g, .ofUri SIL.sourceStatement, .empty, .ofUri SIL.InferenceMetaData⟩).map Statement.object
    have hSources : removeSources (.ofStore select) false g store = some (.errorNone, sources.foldl
        (fun store n => Store.removeAllStatements store ⟨n, .empty, .empty, .ofUri SIL.InferenceMetaData⟩)
        store) :=
      Outcome.forEach_eq (fun n store => Store.removeAllStatements store
        ⟨n, .empty, .empty, .ofUri SIL.InferenceMetaData⟩) sources store
    have hMem : ∀ n, n ∈ sources ↔ ∃ p ∈ store, p.subject = g ∧ p.predicate = .ofUri SIL.sourceStatement ∧
        p.context = .ofUri SIL.InferenceMetaData ∧ n = p.object := by
      intro n
      rw [List.mem_map]
      constructor
      · rintro ⟨p, hp, rfl⟩
        obtain ⟨hIn, hMatch⟩ := List.mem_filter.mp hp
        obtain ⟨hSubject, hPredicate, -, hContext⟩ := Store.isMatch_iff.mp hMatch
        exact ⟨p, hIn, hSubject hg, hPredicate nofun, hContext nofun, rfl⟩
      · rintro ⟨p, hIn, hSubject, hPredicate, hContext, rfl⟩
        refine ⟨p, List.mem_filter.mpr ⟨hIn, Store.isMatch_iff.mpr ?_⟩, rfl⟩
        exact ⟨fun _ => hSubject, fun _ => hPredicate, fun hNot => absurd rfl hNot, fun _ => hContext⟩
    have hSome : ∀ n ∈ sources, n ≠ .empty := by
      intro n hn
      obtain ⟨p, hIn, -, -, -, rfl⟩ := (hMem n).mp hn
      exact (Select.full_of_isValid (hValid p hIn)).2.2
    rw [removeGraph, hSources]
    refine ⟨_, rfl, fun q => (mem_removeAbout hg).trans ?_⟩
    rw [mem_foldl_removeAbout hSome, hMem, and_assoc, ← not_or, ← and_or_left, or_comm]
    simp only [true_and]

namespace Kept

section Removal

variable {again : Statement → Store → Outcome} (hRandom : RandomUris createRandomUri)
  (hSelect : Answers select)
  (hAgain : ∀ p store c store', Kept createRandomUri compressed uris R store →
    (∀ q ∈ store, Store.isMatch p q = true → Foreign createRandomUri compressed q) →
    again p store = some (c, store') → Kept createRandomUri compressed uris R store')

include hRandom hAgain

theorem removeGraph (h : Kept createRandomUri compressed uris R store) {r : Source} (hr : r ∈ R)
    {c : ErrorCode} (hRun : InferenceModel.removeGraph (.ofStore select) compressed again
      (r.graphNode createRandomUri) store = some (c, store')) :
    Kept createRandomUri compressed uris R store' := by
  have hGraph : r.graphNode createRandomUri ≠ .empty := by
    rw [Source.graphNode, Node.ofUri_self _ (hRandom.isEmpty r.graph)]
    rintro ⟨⟩
  obtain ⟨mid, hEq, hMem⟩ := removeGraph_eq select compressed again hGraph h.valid
  have hMid := h.removeMetadata hRandom hr hMem
  rw [hEq, removeContextWith] at hRun
  split at hRun
  · refine hAgain _ mid c store' hMid (fun q hq hMatch => ?_) hRun
    have hContext : q.context = r.graphNode createRandomUri := (Store.isMatch_iff.mp hMatch).2.2.2 hGraph
    have hOther : q.context ≠ .ofUri SIL.InferenceMetaData := by
      rw [hContext]
      exact hRandom.ofUri_ne r.graph
    rcases hMid.known q hq with hForeign | ⟨k, rfl⟩ | ⟨t, -, hQuad⟩
    · exact hForeign
    · exact absurd rfl hOther
    · exact absurd (mem_sourceQuads hQuad).1 hOther
  · obtain ⟨-, rfl⟩ := Prod.mk.inj (Option.some.inj hRun)
    exact hMid

include hSelect

theorem removeStatementWith (h : Kept createRandomUri compressed uris R store) {s : Statement}
    (hForeign : Foreign createRandomUri compressed s) {c : ErrorCode}
    (hRun : InferenceModel.removeStatementWith (.ofStore select) compressed again s store =
      some (c, store')) : Kept createRandomUri compressed uris R store' := by
  have hFirst : Kept createRandomUri compressed uris R (Store.removeStatement store s) := by
    refine h.removeForeign List.filter_sublist.subset fun q hq hGone => ?_
    obtain rfl : q = s := by
      by_contra hNe
      exact hGone (List.mem_filter.mpr ⟨hq, by simpa using hNe⟩)
    exact hForeign
  rcases Outcome.unlessError_eq_some hRun with ⟨mid, hMid, hRest⟩ | ⟨-, hMid⟩
  · obtain ⟨-, rfl⟩ := Prod.mk.inj (Option.some.inj hMid)
    refine Outcome.forEach_invariant (fun g hg store c store' hStore hTurn => ?_) hFirst hRest
    obtain ⟨r, hr, rfl⟩ := hFirst.exists_source hRandom hSelect hg
    exact hStore.removeGraph hRandom hAgain hr hTurn
  · obtain ⟨-, rfl⟩ := Prod.mk.inj (Option.some.inj hMid)
    exact hFirst

end Removal

/-- Removing statements that are no metadata keeps the metadata exact, to any depth of the recursion. -/
theorem removeAllStatements (hRandom : RandomUris createRandomUri) (hSelect : Answers select) (fuel : Nat)
    {p : Statement} {c : ErrorCode} (h : Kept createRandomUri compressed uris R store)
    (hForeign : ∀ q ∈ store, Store.isMatch p q = true → Foreign createRandomUri compressed q)
    (hRun : InferenceModel.removeAllStatements (.ofStore select) compressed fuel p store = some (c, store')) :
    Kept createRandomUri compressed uris R store' := by
  induction fuel generalizing p c store store' with
  | zero => cases hRun
  | succ fuel ih =>
    rw [InferenceModel.removeAllStatements] at hRun
    split at hRun
    · refine Outcome.forEach_invariant (fun s hs store c store' hStore hTurn => ?_) h hRun
      obtain ⟨hIn, hMatch⟩ := (Parent.ofStore select).mem_listStatements.mp hs
      exact hStore.removeStatementWith hRandom hSelect (fun p store c store' h hForeign => ih h hForeign)
        (hForeign s hIn hMatch) hTurn
    · obtain ⟨-, rfl⟩ := Prod.mk.inj (Option.some.inj hRun)
      exact h

theorem removeStatement (hRandom : RandomUris createRandomUri) (hSelect : Answers select) {fuel : Nat}
    {s : Statement} {c : ErrorCode} (h : Kept createRandomUri compressed uris R store)
    (hForeign : Foreign createRandomUri compressed s)
    (hRun : InferenceModel.removeStatement (.ofStore select) compressed fuel s store = some (c, store')) :
    Kept createRandomUri compressed uris R store' :=
  h.removeStatementWith hRandom hSelect
    (fun _ _ _ _ h hForeign => h.removeAllStatements hRandom hSelect fuel hForeign) hForeign hRun

theorem add (h : Kept createRandomUri compressed uris R store) {s : Statement}
    (hForeign : s.isValid = true → Foreign createRandomUri compressed s) :
    Kept createRandomUri compressed uris R (Store.addStatement store s) := by
  have hOld : ∀ {r : Source} {q : Statement}, q = graphQuad (r.graphNode createRandomUri) ∨
      q ∈ r.quads createRandomUri compressed → q ∈ Store.addStatement store s → q ∈ store := by
    intro r q hq hIn
    rcases Store.mem_addStatement.mp hIn with ⟨rfl, hValid⟩ | hIn
    · exact absurd (hForeign hValid) (not_foreign hq)
    · exact hIn
  refine ⟨fun q hq => ?_, h.below, h.distinct, fun q hq => ?_, fun r hr hGraph q hQuad => ?_,
    fun r hr hMark => ?_⟩
  · rcases Store.mem_addStatement.mp hq with ⟨rfl, hValid⟩ | hq
    · exact hValid
    · exact h.valid q hq
  · rcases Store.mem_addStatement.mp hq with ⟨rfl, hValid⟩ | hq
    · exact .inl (hForeign hValid)
    · exact h.known q hq
  · exact Store.mem_addStatement.mpr (.inr (h.stored r hr (hOld (r := r) (.inl rfl) hGraph) q hQuad))
  · exact Store.mem_addStatement.mpr (.inr (h.marked r hr (hOld (r := r) (.inr Source.mark_mem) hMark)))

/-- A store without metadata. -/
theorem removeAll (h : Kept createRandomUri compressed uris R store) (hSubset : store' ⊆ store)
    (hNone : ∀ q ∈ store', q.context ≠ .ofUri SIL.InferenceMetaData) :
    Kept createRandomUri compressed uris R store' :=
  h.shrink hSubset (fun _ _ hGraph => absurd rfl (hNone _ hGraph))
    fun _ _ hMark => absurd rfl (hNone _ hMark)

end Kept

/-! ### Runs -/

/-- An operation of the model, with the sources that have been recorded; `F` says what is added and
removed, and `J` what is inferred. -/
inductive Operation (select : QString → Store → List BindingSet) (createRandomUri : Nat → QUrl)
    (F : InferenceModel → Statement → Prop) (J : InferenceModel → Statement → List Statement → Prop) :
    InferenceModel × List Source → InferenceModel × List Source → Prop where
  | addStatement {m m' : InferenceModel} {R R' : List Source} {fuel : Nat} {s : Statement} {c : ErrorCode}
      (hAdded : s.isValid = true → F m s)
      (hCall : m.addStatement select createRandomUri fuel s = some (c, m'))
      (hRecorded : Recorded createRandomUri J (m.add s, R) (m', R')) :
      Operation select createRandomUri F J (m, R) (m', R')
  | performInference {m m' : InferenceModel} {R R' : List Source} {fuel : Nat}
      (hCall : m.performInference select createRandomUri fuel = some m')
      (hRecorded : Recorded createRandomUri J (m, R) (m', R')) :
      Operation select createRandomUri F J (m, R) (m', R')
  | clearInference (m : InferenceModel) (R : List Source) :
      Operation select createRandomUri F J (m, R) (m.clearInference select, R)
  | removeStatement {m : InferenceModel} {R : List Source} {fuel : Nat} {s : Statement} {c : ErrorCode}
      {store : Store} (hRemoved : F m s)
      (hCall : removeStatement (.ofStore select) m.compressedStatements fuel s m.parentModel = some (c, store)) :
      Operation select createRandomUri F J (m, R) ({ m with parentModel := store }, R)
  | removeAllStatements {m : InferenceModel} {R : List Source} {fuel : Nat} {p : Statement} {c : ErrorCode}
      {store : Store} (hRemoved : ∀ q ∈ m.parentModel, Store.isMatch p q = true → F m q)
      (hCall : removeAllStatements (.ofStore select) m.compressedStatements fuel p m.parentModel =
        some (c, store)) :
      Operation select createRandomUri F J (m, R) ({ m with parentModel := store }, R)
  | clear {m : InferenceModel} {R : List Source} {fuel : Nat} {store : Store}
      (hCall : clear (.ofStore select) m.compressedStatements fuel m.parentModel =
        some (.errorNone, store)) :
      Operation select createRandomUri F J (m, R) ({ m with parentModel := store }, R)
  | setRules (m : InferenceModel) (R : List Source) (rules : List Rule) :
      Operation select createRandomUri F J (m, R) ({ m with rules := rules }, R)
  | setOptimizedQueriesEnabled (m : InferenceModel) (R : List Source) (b : Bool) :
      Operation select createRandomUri F J (m, R) ({ m with optimizedQueries := b }, R)

/-- Whatever a call infers, its sources are recorded. -/
theorem exists_addStatement {m m' : InferenceModel} {fuel : Nat} {s : Statement} {c : ErrorCode}
    (hCall : m.addStatement select createRandomUri fuel s = some (c, m')) (R : List Source) :
    ∃ R', Operation select createRandomUri (fun _ _ => True) Any (m, R) (m', R') := by
  have hRun : Run createRandomUri Any (m.add s) m' := by
    simp only [InferenceModel.addStatement] at hCall
    split at hCall
    · obtain ⟨x, hInfer, hEq⟩ := Option.map_eq_some_iff.mp hCall
      obtain rfl := (Prod.mk.inj hEq).2
      exact run_inferStatement hInfer
    · rename_i hValid
      obtain rfl := (Prod.mk.inj (Option.some.inj hCall)).2
      rw [InferenceModel.add, Store.addStatement, if_neg hValid]
      exact .refl
  obtain ⟨R', hRecorded⟩ := exists_recorded hRun R
  exact ⟨R', .addStatement (fun _ => trivial) hCall hRecorded⟩

theorem exists_performInference {m m' : InferenceModel} {fuel : Nat}
    (hCall : m.performInference select createRandomUri fuel = some m') (R : List Source) :
    ∃ R', Operation select createRandomUri (fun _ _ => True) Any (m, R) (m', R') := by
  obtain ⟨R', hRecorded⟩ := exists_recorded (run_performInference hCall) R
  exact ⟨R', .performInference hCall hRecorded⟩

/-- An operation keeps the metadata exact if nothing that reads as metadata is added or removed. -/
theorem Kept.operation (hRandom : RandomUris createRandomUri) (hSelect : Answers select)
    {a b : InferenceModel × List Source}
    (h : Kept createRandomUri a.1.compressedStatements a.1.uris a.2 a.1.parentModel)
    (hStep : Operation select createRandomUri
      (fun m => Foreign createRandomUri m.compressedStatements) (Recordable createRandomUri) a b) :
    Kept createRandomUri b.1.compressedStatements b.1.uris b.2 b.1.parentModel := by
  cases hStep with
  | addStatement hAdded hCall hRecorded => exact (Kept.recorded hRandom (h.add hAdded) hRecorded).2
  | performInference hCall hRecorded => exact (h.recorded hRandom hRecorded).2
  | clearInference m R =>
    refine h.removeAll (fun q hq => ?_) fun q hq => ?_
    · exact ((mem_clearInference hSelect h.valid).mp hq).1
    · exact ((mem_clearInference hSelect h.valid).mp hq).2.1
  | removeStatement hRemoved hCall => exact h.removeStatement hRandom hSelect hRemoved hCall
  | removeAllStatements hRemoved hCall =>
    exact h.removeAllStatements hRandom hSelect _ hRemoved hCall
  | @clear m R fuel store hCall =>
    have hGone := (removeAllStatements_gone _ _ hCall).1 rfl
    have hNone : ∀ q, q ∉ store := fun q hq => nomatch hGone q hq
    exact h.removeAll (fun q hq => absurd hq (hNone q)) fun q hq => absurd hq (hNone q)
  | setRules | setOptimizedQueriesEnabled => exact h

/-- The lookup of the statement does not confuse it with another source: in compressed mode the texts tell
them apart, in uncompressed mode it has no empty nodes. -/
structure Told (createRandomUri : Nat → QUrl) (m : InferenceModel) (R : List Source) (s : Statement) : Prop where
  compressed : m.compressedStatements = true → Legible s ∧ ∀ r ∈ R,
    graphQuad (r.graphNode createRandomUri) ∈ m.parentModel → Legible r.statement ∧ ToldApart r.statement s
  uncompressed : m.compressedStatements = false → Select.Full s

/-- In every run that adds, removes and infers nothing that reads as metadata the graphs found for a statement
are those that it was recorded as a source of, if it is told apart from the other sources. -/
theorem sources_exact (hSelect : Answers select) (hRandom : RandomUris createRandomUri)
    {m₀ m : InferenceModel} (hStart : ∀ q ∈ m₀.parentModel,
      q.isValid = true ∧ Foreign createRandomUri m₀.compressedStatements q)
    (hRun : Relation.ReflTransGen (Operation select createRandomUri
      (fun m => Foreign createRandomUri m.compressedStatements) (Recordable createRandomUri)) (m₀, []) (m, R))
    (s : Statement) (hTold : Told createRandomUri m R s) (g : Node) :
    g ∈ inferedGraphsForStatement (.ofStore select) m.compressedStatements s m.parentModel ↔
      ∃ r ∈ R, .ofUri (createRandomUri r.graph) = g ∧ graphQuad g ∈ m.parentModel ∧
        r.statement.triple = s.triple := by
  have hKept : ∀ b : InferenceModel × List Source, Relation.ReflTransGen (Operation select createRandomUri
      (fun m => Foreign createRandomUri m.compressedStatements) (Recordable createRandomUri)) (m₀, []) b →
      Kept createRandomUri b.1.compressedStatements b.1.uris b.2 b.1.parentModel := by
    intro b hRun
    induction hRun with
    | refl =>
      exact ⟨fun q hq => (hStart q hq).1, fun r hr => absurd hr List.not_mem_nil,
        fun _ r hr => absurd hr List.not_mem_nil, fun q hq => .inl (hStart q hq).2,
        fun r hr => absurd hr List.not_mem_nil, fun r hr => absurd hr List.not_mem_nil⟩
    | tail _ hStep ih => exact ih.operation hRandom hSelect hStep
  have h := hKept _ hRun
  cases hMode : m.compressedStatements with
  | false =>
    rw [hMode] at h
    exact h.mem_uncompressed hRandom hSelect (hTold.uncompressed hMode)
  | true =>
    rw [hMode] at h
    obtain ⟨hLegible, hSources⟩ := hTold.compressed hMode
    rw [h.mem_compressed]
    refine exists_congr fun r => and_congr_right fun hr => and_congr_right fun hGraph => and_congr_right fun hAlive => ?_
    obtain ⟨hLegible', hApart⟩ := hSources r hr (hGraph ▸ hAlive)
    exact compressText_inj hLegible' hLegible hApart

end Qt

section Example

open InferenceModel

local instance bookkeepingQt : Qt := asciiQt

theorem randomUris_countedUri : RandomUris countedUri where
  isEmpty := isEmpty_countedUri
  injective k l hEq := by
    have hEncoded : "inference://localhost#".toList ++ List.replicate k 'a' =
        "inference://localhost#".toList ++ List.replicate l 'a' := congrArg QUrl.encoded hEq
    have hLength := congrArg List.length hEncoded
    simpa using hLength
  plain _ := rfl
  ne_metaData k hEq := by
    have hHead : some 'i' = some 'h' := congrArg (fun u => u.encoded.head?) hEq
    cases hHead

/-- A statement about a literal, and the copy that is inferred from it. -/
def literalStatement (name : String) (h : name.toList.all isUrlChar = true) (lang : String) : Statement :=
  ⟨.ofUri (urn "s" legal_s), .ofUri (urn name h),
    .ofLiteral (.createPlainLiteral "x".toList (.ofString lang.toList)), .empty⟩

def english : Statement := literalStatement "p" legal_p "en"

def german : Statement := literalStatement "p" legal_p "de"

def copiedModel : InferenceModel :=
  (((emptyModel [copyRule]).add english).bindRule 0 english).addInfered countedUri
    (literalStatement "q" legal_q "en") [english]

theorem addStatement_english : (emptyModel [copyRule]).addStatement Select.select countedUri 2 english =
    some (.errorNone, copiedModel) := rfl

theorem recorded_copiedModel {J : InferenceModel → Statement → List Statement → Prop} {R : List Source}
    (h : J (((emptyModel [copyRule]).add english).bindRule 0 english) (literalStatement "q" legal_q "en")
      [english]) :
    Recorded countedUri J ((emptyModel [copyRule]).add english, R) (copiedModel, R ++ [⟨0, 1, english⟩]) :=
  .tail (.single (.bind _ R 0 english)) (.infer R (by decide) rfl (by
    rintro ⟨q, hq, hTriple⟩
    have hMem : q ∈ [english] := hq
    obtain rfl := List.mem_singleton.mp hMem
    revert hTriple
    decide) h)

theorem sources_exact_english :
    .ofUri (countedUri 0) ∈ inferedGraphsForStatement (.ofStore Select.select) true english
      copiedModel.parentModel := by
  have hForeign : Foreign countedUri true english := ⟨nofun, fun h => absurd h (by decide), nofun⟩
  have hLegible : Legible english := by
    refine ⟨⟨by decide, QString.markersAbove_of_notMem (by decide)⟩, by decide, fun _ => ⟨?_, by decide⟩⟩
    exact QString.markersAbove_of_notMem (by decide)
  have hTold : Told countedUri copiedModel [⟨0, 1, english⟩] english := by
    refine ⟨fun _ => ⟨hLegible, fun r hr _ => ?_⟩, nofun⟩
    obtain rfl := List.mem_singleton.mp hr
    exact ⟨hLegible, fun _ => rfl, fun _ => rfl, fun _ _ _ => rfl⟩
  have hStart : ∀ q ∈ (emptyModel [copyRule]).parentModel, q.isValid = true ∧
      Foreign countedUri (emptyModel [copyRule]).compressedStatements q :=
    fun q hq => absurd hq List.not_mem_nil
  exact (sources_exact Select.answers_select randomUris_countedUri hStart
    (.single (.addStatement (fun _ => hForeign) addStatement_english
      (recorded_copiedModel ⟨nofun, nofun⟩))) english hTold _).mpr
    ⟨_, List.mem_singleton.mpr rfl, rfl, by decide, rfl⟩

/-- The language of a literal is not in the text of a compressed statement. -/
theorem sources_confused :
    compressStatement german = compressStatement english ∧ german.triple ≠ english.triple ∧
      Relation.ReflTransGen (Operation Select.select countedUri (fun _ _ => True) Any)
        (emptyModel [copyRule], []) (copiedModel, [⟨0, 1, english⟩]) ∧
      .ofUri (countedUri 0) ∈ inferedGraphsForStatement (.ofStore Select.select)
        copiedModel.compressedStatements german copiedModel.parentModel ∧
      ¬∃ r ∈ [(⟨0, 1, english⟩ : Source)], .ofUri (countedUri r.graph) = Node.ofUri (countedUri 0) ∧
        graphQuad (.ofUri (countedUri 0)) ∈ copiedModel.parentModel ∧ r.statement.triple = german.triple := by
  refine ⟨by decide, by decide, .single ?_, by decide +kernel, ?_⟩
  · exact .addStatement (fun _ => trivial) addStatement_english (recorded_copiedModel trivial)
  · rintro ⟨r, hr, -, -, hTriple⟩
    obtain rfl := List.mem_singleton.mp hr
    revert hTriple
    decide

end Example

end Inference

end Soprano
