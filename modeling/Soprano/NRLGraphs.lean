import Soprano.Inference.Sources
import Soprano.Library.Runs
import Soprano.NRLModel

/-! Creating a graph and removing it are inverse: over the statements that were there at first, each graph
that was created and not removed holds what was added to it, and nothing else is in the store. -/

namespace Soprano

namespace NRLModel

namespace Graphs

open Inference Vocabulary Runs

section Qt

variable [Qt]

/-! ### The query -/

/-- The query for the metadata graphs of the graph with that IRI. -/
def metadataText (iri : QString) : QString :=
  "select ?mg where \x7b ?mg ".toList ++ ('<' :: (NRL.coreGraphMetadataFor.encoded ++ ['>']) ++
    ' ' :: ('<' :: (iri ++ ['>']) ++ ' ' :: ". \x7d".toList))

/-- The parent evaluates the query: it finds what a statement of any graph says. -/
structure AnswersMetadata (select : QString → Store → List BindingSet) : Prop where
  mem_allNodes : ∀ {u store n}, u.isEmpty = false →
    (n ∈ allNodes (select (metadataText u.encoded) store) ↔
      ∃ q ∈ store, q.subject = n ∧ q.predicate = .ofUri NRL.coreGraphMetadataFor ∧ q.object = .ofUri u)

omit [Qt] in
theorem metadataTemplate_arg (a : QString) : QString.arg metadataTemplate a =
    "select ?mg where \x7b ?mg ".toList ++ (a ++ ' ' :: '%' :: '2' :: ' ' :: ". \x7d".toList) := (rfl)

omit [Qt] in
/-- No part before the second marker has another one. -/
theorem arg_second {head a b tail : QString} (hHead : '%' ∉ head) (ha : '%' ∉ a) (hTail : '%' ∉ tail) :
    QString.arg (head ++ (a ++ ' ' :: '%' :: '2' :: ' ' :: tail)) b =
      head ++ (a ++ ' ' :: (b ++ ' ' :: tail)) := by
  have hMarkers : QString.MarkersAbove 2 (head ++ a) := .of_notMem_append hHead (QString.markersAbove_of_notMem ha)
  have hTail' : QString.MarkersAbove 2 (' ' :: tail) := (QString.markersAbove_of_notMem hTail).cons (by decide)
  have := QString.arg_once (a := b) (d := ' ') (m := '2') rfl hMarkers rfl rfl hTail' rfl
  rwa [List.append_assoc, List.append_assoc] at this

omit [Qt] in
theorem metadataQuery_eq (graph : QUrl) : metadataQuery graph = metadataText graph.encoded := by
  have hName : '%' ∉ '<' :: (NRL.coreGraphMetadataFor.encoded ++ ['>']) := by decide
  rw [metadataQuery, metadataTemplate_arg, Node.resourceToN3_eq, Node.resourceToN3_eq, arg_second (by decide) hName (by decide)]
  rfl

/-! ### The graphs -/

/-- A graph that `createGraph` made and no call has removed, with its metadata graph and the statements
of both. -/
structure Entry where
  graph : QUrl
  metadataGraph : QUrl
  statements : List Statement

/-- The node is one of the two graphs. -/
def Entry.Names (e : Entry) (n : Node) : Prop := n = .ofUri e.graph ∨ n = .ofUri e.metadataGraph

/-- The graph after the statement is added to it, if it is a statement of the graph. -/
def Entry.add (e : Entry) (statement : Statement) : Entry :=
  if statement.context = .ofUri e.graph ∧ statement.isValid = true then
    { e with statements := statement :: e.statements }
  else e

/-- The calls that remove a graph. -/
inductive Removal where
  | removeContext
  | removeGraph
  | removeAllStatements
deriving DecidableEq

inductive Operation where
  | createGraph (type graph metadatagraph : QUrl) (now : QDateTime)
  | addStatement (statement : Statement)
  | remove (removal : Removal) (graph : QUrl)

/-- The parent answers each call. -/
def works : Answer := fun _ => .none

variable (select : QString → Store → List BindingSet)

def Removal.apply (store : Store) (graph : QUrl) : Removal → Result
  | removeContext => NRLModel.removeContext works select store (.ofUri graph)
  | removeGraph => NRLModel.removeGraph works select store graph
  | removeAllStatements =>
    NRLModel.removeAllStatements works select store ⟨.empty, .empty, .empty, .ofUri graph⟩

namespace Operation

/-- The statements of the parent after the call. -/
def apply (store : Store) : Operation → Store
  | createGraph type graph metadatagraph now =>
    (NRLModel.createGraph works type graph metadatagraph now store).store
  | addStatement statement => (FilterModel.addStatement works store statement).store
  | remove removal graph => (removal.apply select store graph).store

/-- What the call is for: it makes a graph, adds to one, or removes one. -/
def effect (graphs : List Entry) : Operation → List Entry
  | createGraph type graph metadatagraph now =>
    ⟨graph, metadatagraph, (graphMetadata type graph metadatagraph now).filter (·.isValid)⟩ :: graphs
  | addStatement statement => graphs.map (·.add statement)
  | remove _ graph => graphs.filter (·.graph ≠ graph)

end Operation

/-- The statements of the parent, and the graphs that there are. -/
structure State where
  store : Store
  graphs : List Entry

def step (s : State) (operation : Operation) : Option State :=
  some ⟨operation.apply select s.store, operation.effect s.graphs⟩

/-- Nothing that is stored mentions the resource. -/
def Fresh (store : Store) (u : QUrl) : Prop := u.isEmpty = false ∧ ∀ q ∈ store, Node.ofUri u ∉ q.nodes

/-- New graphs have new URIs, and only graphs that there are are added to and removed. -/
def Allowed (s : State) : Operation → Prop
  | .createGraph _ graph metadatagraph _ =>
    Fresh s.store graph ∧ Fresh s.store metadatagraph
  | .addStatement statement => ∃ e ∈ s.graphs, statement.context = .ofUri e.graph
  | .remove _ graph => ∃ e ∈ s.graphs, e.graph = graph

/-- A statement that is added calls nothing else the metadata graph of a graph. -/
def Sincere (s : State) : Operation → Prop
  | .addStatement statement => ∀ e ∈ s.graphs, statement.predicate = .ofUri NRL.coreGraphMetadataFor →
      statement.object = .ofUri e.graph → e.Names statement.subject
  | _ => True

/-! ### What a removal leaves -/

variable {select} {store start : Store} {graph : QUrl} {s t : State} {operation : Operation}
  {operations : List Operation} {e e' : Entry} {q : Statement}

theorem isMatch_context {n : Node} (hn : n ≠ .empty) :
    Store.isMatch ⟨.empty, .empty, .empty, n⟩ q = true ↔ q.context = n := by
  rw [Store.isMatch_iff]
  exact ⟨fun h => h.2.2.2 hn, fun h => ⟨fun h => absurd rfl h, fun h => absurd rfl h,
    fun h => absurd rfl h, fun _ => h⟩⟩

theorem mem_removeAllStatements {n : Node} (hn : n ≠ .empty) :
    q ∈ (FilterModel.removeAllStatements works store ⟨.empty, .empty, .empty, n⟩).store ↔
      q ∈ store ∧ q.context ≠ n := by
  rw [FilterModel.removeAllStatements, if_neg (show ¬ works.Fails .removeAllStatements by decide)]
  show q ∈ store.filter _ ↔ _
  rw [List.mem_filter, Bool.not_eq_true', ← Bool.not_eq_true, isMatch_context hn]

/-- The loop over the metadata graphs. -/
theorem mem_foldl_removeAllStatements {nodes : List Node} (hNodes : ∀ n ∈ nodes, n ≠ .empty) :
    q ∈ nodes.foldl (fun store mg =>
      (FilterModel.removeAllStatements works store ⟨.empty, .empty, .empty, mg⟩).store) store ↔
      q ∈ store ∧ q.context ∉ nodes := by
  induction nodes generalizing store with
  | nil => simp
  | cons n nodes ih =>
    rw [List.foldl_cons, ih fun m hm => hNodes m (List.mem_cons_of_mem n hm),
      mem_removeAllStatements (hNodes n List.mem_cons_self), List.mem_cons, not_or, and_assoc]

theorem ofUri_ne_empty {u : QUrl} (h : u.isEmpty = false) : Node.ofUri u ≠ .empty := by
  rw [Node.ofUri_self u h]
  nofun

theorem removal_eq (h : graph.isEmpty = false) (removal : Removal) :
    removal.apply select store graph = removeGraph works select store graph := by
  have hValid : (Node.ofUri graph).isValid = true := by
    rw [Node.ofUri_self graph h]
    rfl
  have hUri : (Node.ofUri graph).uri = graph := by
    rw [Node.ofUri_self graph h]
    rfl
  have hAll : removeAllStatements works select store ⟨.empty, .empty, .empty, .ofUri graph⟩ =
      removeGraph works select store graph := by
    rw [removeAllStatements, if_pos ⟨hValid, nofun, nofun, nofun⟩, hUri]
  cases removal with
  | removeContext =>
    show removeContext works select store (.ofUri graph) = _
    rw [removeContext, if_pos hValid, hAll]
  | removeGraph => rfl
  | removeAllStatements => exact hAll

/-- What is removed lies in the graph, or in what a statement calls its metadata graph. -/
theorem mem_removeGraph (h : AnswersMetadata select) (hGraph : graph.isEmpty = false)
    (hSubjects : ∀ m ∈ store, m.predicate = .ofUri NRL.coreGraphMetadataFor → m.object = .ofUri graph →
      m.subject ≠ .empty) :
    q ∈ (removeGraph works select store graph).store ↔ q ∈ store ∧ q.context ≠ .ofUri graph ∧
      ∀ m ∈ store, m.predicate = .ofUri NRL.coreGraphMetadataFor → m.object = .ofUri graph →
        q.context ≠ m.subject := by
  have hNodes : ∀ n ∈ allNodes (select (metadataText graph.encoded) store), n ≠ .empty := by
    intro n hn
    obtain ⟨m, hm, rfl, hPredicate, hObject⟩ := (h.mem_allNodes hGraph).mp hn
    exact hSubjects m hm hPredicate hObject
  simp only [removeGraph]
  rw [if_neg (show ¬ works.Fails .executeQuery by decide), metadataQuery_eq,
    mem_removeAllStatements (ofUri_ne_empty hGraph), mem_foldl_removeAllStatements hNodes,
    h.mem_allNodes hGraph, and_assoc]
  refine and_congr_right fun _ => ⟨fun ⟨hNone, hOther⟩ => ⟨hOther, fun m hm hP hO hEq => ?_⟩,
    fun ⟨hOther, hNone⟩ => ⟨fun ⟨m, hm, hEq, hP, hO⟩ => hNone m hm hP hO hEq.symm, hOther⟩⟩
  exact hNone ⟨m, hm, hEq.symm, hP, hO⟩

/-! ### The invariant -/

/-- The statement by which a removal finds the metadata graph. -/
def Entry.mark (e : Entry) : Statement :=
  ⟨.ofUri e.metadataGraph, .ofUri NRL.coreGraphMetadataFor, .ofUri e.graph, .ofUri e.metadataGraph⟩

structure Entry.WellFormed (e : Entry) : Prop where
  graph : e.graph.isEmpty = false
  metadataGraph : e.metadataGraph.isEmpty = false
  mark : e.mark ∈ e.statements
  names : ∀ q ∈ e.statements, e.Names q.context

/-- No graph is one of both. -/
def Entry.Apart (e e' : Entry) : Prop := ∀ n, e.Names n → ¬ e'.Names n

instance : Std.Symm Entry.Apart := ⟨fun _ _ h n hn hn' => h n hn' hn⟩

/-- The store is what there was at first and what the graphs hold, and no graph holds what is in
another one. -/
structure Holds (start : Store) (s : State) : Prop where
  mem_store : ∀ q, q ∈ s.store ↔ q ∈ start ∨ ∃ e ∈ s.graphs, q ∈ e.statements
  wellFormed : ∀ e ∈ s.graphs, e.WellFormed
  apart : s.graphs.Pairwise Entry.Apart
  start : ∀ q ∈ start, ∀ e ∈ s.graphs, ¬ e.Names q.context
  metadata : ∀ q ∈ s.store, q.predicate = .ofUri NRL.coreGraphMetadataFor → ∀ e ∈ s.graphs,
    q.object = .ofUri e.graph → e.Names q.subject

theorem Entry.WellFormed.ne_empty {n : Node} (h : e.WellFormed) (hn : e.Names n) : n ≠ .empty := by
  rcases hn with rfl | rfl
  · exact ofUri_ne_empty h.graph
  · exact ofUri_ne_empty h.metadataGraph

theorem Holds.init (store : Store) : Holds store ⟨store, []⟩ where
  mem_store q := by simp
  wellFormed e he := absurd he List.not_mem_nil
  apart := .nil
  start q hq e he := absurd he List.not_mem_nil
  metadata q hq hPredicate e he := absurd he List.not_mem_nil

/-- Two graphs that share a node are one. -/
theorem Holds.eq_of_names {n : Node} (h : Holds start s) (he : e ∈ s.graphs) (he' : e' ∈ s.graphs)
    (hn : e.Names n) (hn' : e'.Names n) : e = e' := by
  by_contra hNe
  exact h.apart.forall he he' hNe n hn hn'

/-- A removal leaves what lies neither in the graph nor in its metadata graph. -/
theorem Holds.mem_removeGraph (hSelect : AnswersMetadata select) (h : Holds start s) (he : e ∈ s.graphs) :
    q ∈ (removeGraph works select s.store e.graph).store ↔ q ∈ s.store ∧ ¬ e.Names q.context := by
  have hWellFormed := h.wellFormed e he
  have hMark : e.mark ∈ s.store := (h.mem_store _).mpr (.inr ⟨e, he, hWellFormed.mark⟩)
  have hNames {m : Statement} (hm : m ∈ s.store) (hPredicate : m.predicate = .ofUri NRL.coreGraphMetadataFor)
      (hObject : m.object = .ofUri e.graph) : e.Names m.subject := h.metadata m hm hPredicate e he hObject
  rw [Graphs.mem_removeGraph hSelect hWellFormed.graph fun m hm hPredicate hObject =>
    hWellFormed.ne_empty (hNames hm hPredicate hObject)]
  refine and_congr_right fun _ => ⟨fun ⟨hGraph, hNone⟩ hq => ?_, fun hq => ⟨fun hEq => hq (.inl hEq), ?_⟩⟩
  · rcases hq with hEq | hEq
    · exact hGraph hEq
    · exact hNone e.mark hMark rfl rfl hEq
  · intro m hm hPredicate hObject hEq
    exact hq (hEq ▸ hNames hm hPredicate hObject)

theorem Holds.remove (hSelect : AnswersMetadata select) (h : Holds start s) (he : e ∈ s.graphs)
    (removal : Removal) :
    Holds start ⟨(removal.apply select s.store e.graph).store, s.graphs.filter (·.graph ≠ e.graph)⟩ := by
  have hStore {q : Statement} : q ∈ (removal.apply select s.store e.graph).store ↔
      q ∈ s.store ∧ ¬ e.Names q.context := by
    rw [removal_eq (h.wellFormed e he).graph, h.mem_removeGraph hSelect he]
  have hOther {e' : Entry} : e' ∈ s.graphs.filter (·.graph ≠ e.graph) ↔ e' ∈ s.graphs ∧ e' ≠ e := by
    rw [List.mem_filter, decide_eq_true_iff]
    refine and_congr_right fun he' => ⟨fun hNe hEq => hNe (hEq ▸ rfl), fun hNe hEq => hNe ?_⟩
    exact h.eq_of_names he' he (.inl rfl) (.inl (hEq ▸ rfl))
  refine ⟨fun q => ?_, fun e' he' => h.wellFormed e' (hOther.mp he').1, h.apart.filter _,
    fun q hq e' he' => h.start q hq e' (hOther.mp he').1,
    fun q hq hPredicate e' he' => h.metadata q (hStore.mp hq).1 hPredicate e' (hOther.mp he').1⟩
  rw [hStore, h.mem_store]
  constructor
  · rintro ⟨hq | ⟨e', he', hq⟩, hNames⟩
    · exact .inl hq
    · refine .inr ⟨e', hOther.mpr ⟨he', ?_⟩, hq⟩
      rintro rfl
      exact hNames ((h.wellFormed e' he').names q hq)
  · rintro (hq | ⟨e', he', hq⟩)
    · exact ⟨.inl hq, h.start q hq e he⟩
    · obtain ⟨he', hNe⟩ := hOther.mp he'
      refine ⟨.inr ⟨e', he', hq⟩, fun hNames => hNe ?_⟩
      exact h.eq_of_names he' he ((h.wellFormed e' he').names q hq) hNames

/-- What is added to the store that the parent keeps. -/
theorem mem_addStatement {statement : Statement} :
    q ∈ (FilterModel.addStatement works store statement).store ↔
      q ∈ store ∨ q = statement ∧ statement.isValid = true := by
  rw [FilterModel.addStatement, if_neg (show ¬ works.Fails .addStatement by decide)]
  split
  · rw [Store.mem_addStatement]
    exact or_comm
  · next hInvalid =>
    simp only [invalidArgument, hInvalid]
    simp

theorem Entry.add_graph (e : Entry) (statement : Statement) : (e.add statement).graph = e.graph := by
  rw [Entry.add]
  split <;> rfl

theorem Entry.names_add {n : Node} {statement : Statement} : (e.add statement).Names n ↔ e.Names n := by
  rw [Entry.add]
  split <;> exact Iff.rfl

theorem Entry.mem_add {statement : Statement} : q ∈ (e.add statement).statements ↔
    q ∈ e.statements ∨ q = statement ∧ statement.context = .ofUri e.graph ∧ statement.isValid = true := by
  rw [Entry.add]
  split
  · next hAdds => simp [hAdds, or_comm]
  · next hNot => simp [hNot]

theorem Entry.WellFormed.add (h : e.WellFormed) (statement : Statement) :
    (e.add statement).WellFormed := by
  have hMetadata : (e.add statement).metadataGraph = e.metadataGraph := by
    rw [Entry.add]
    split <;> rfl
  refine ⟨by rw [e.add_graph]; exact h.graph, by rw [hMetadata]; exact h.metadataGraph, ?_, fun q hq => ?_⟩
  · rw [Entry.mark, hMetadata, e.add_graph]
    exact Entry.mem_add.mpr (.inl h.mark)
  · rw [Entry.names_add]
    rcases Entry.mem_add.mp hq with hq | ⟨rfl, hContext, -⟩
    · exact h.names q hq
    · exact .inl hContext

theorem Holds.add {statement : Statement} (h : Holds start s) (he : e ∈ s.graphs)
    (hContext : statement.context = .ofUri e.graph)
    (hSincere : Sincere s (.addStatement statement)) :
    Holds start ⟨(FilterModel.addStatement works s.store statement).store,
      s.graphs.map (·.add statement)⟩ where
  mem_store q := by
    rw [mem_addStatement, h.mem_store]
    constructor
    · rintro ((hq | ⟨e', he', hq⟩) | ⟨rfl, hValid⟩)
      · exact .inl hq
      · exact .inr ⟨_, List.mem_map_of_mem he', Entry.mem_add.mpr (.inl hq)⟩
      · exact .inr ⟨_, List.mem_map_of_mem he, Entry.mem_add.mpr (.inr ⟨rfl, hContext, hValid⟩)⟩
    · rintro (hq | ⟨_, hAdded, hq⟩)
      · exact .inl (.inl hq)
      · obtain ⟨e', he', rfl⟩ := List.mem_map.mp hAdded
        rcases Entry.mem_add.mp hq with hq | ⟨rfl, -, hValid⟩
        · exact .inl (.inr ⟨e', he', hq⟩)
        · exact .inr ⟨rfl, hValid⟩
  wellFormed := by
    intro _ hAdded
    obtain ⟨e', he', rfl⟩ := List.mem_map.mp hAdded
    exact (h.wellFormed e' he').add statement
  apart := by
    refine List.pairwise_map.mpr (h.apart.imp fun hApart n hn hn' => ?_)
    exact hApart n (Entry.names_add.mp hn) (Entry.names_add.mp hn')
  start := by
    intro q hq _ hAdded hNames
    obtain ⟨e', he', rfl⟩ := List.mem_map.mp hAdded
    exact h.start q hq e' he' (Entry.names_add.mp hNames)
  metadata := by
    intro q hq hPredicate _ hAdded hObject
    obtain ⟨e', he', rfl⟩ := List.mem_map.mp hAdded
    rw [Entry.add_graph] at hObject
    rw [Entry.names_add]
    rcases mem_addStatement.mp hq with hq | ⟨rfl, -⟩
    · exact h.metadata q hq hPredicate e' he' hObject
    · exact hSincere e' he' hPredicate hObject

theorem mem_foldl_addStatement {statements : List Statement} {result : Result} :
    q ∈ (statements.foldl (fun result statement => FilterModel.addStatement works result.store statement)
      result).store ↔ q ∈ result.store ∨ q ∈ statements.filter (·.isValid) := by
  induction statements generalizing result with
  | nil => simp
  | cons statement statements ih =>
    rw [List.foldl_cons, ih, mem_addStatement, List.mem_filter, List.mem_filter, List.mem_cons, or_assoc]
    refine or_congr_right ⟨?_, ?_⟩
    · rintro (⟨rfl, hValid⟩ | ⟨hq, hValid⟩)
      · exact ⟨.inl rfl, hValid⟩
      · exact ⟨.inr hq, hValid⟩
    · rintro ⟨rfl | hq, hValid⟩
      · exact .inl ⟨rfl, hValid⟩
      · exact .inr ⟨hq, hValid⟩

/-- What describes a new graph. -/
theorem graphMetadata_spec {type graph metadatagraph : QUrl} {now : QDateTime}
    (hq : q ∈ graphMetadata type graph metadatagraph now) : q.context = .ofUri metadatagraph ∧
      (q.predicate = .ofUri NRL.coreGraphMetadataFor →
        q.subject = .ofUri metadatagraph ∧ q.object = .ofUri graph) := by
  have hType : Node.ofUri RDF.type ≠ .ofUri NRL.coreGraphMetadataFor := fun h =>
    absurd ((Node.ofUri_inj (u := RDF.type) rfl).mp h) (by decide)
  have hCreated : Node.ofUri NAO.created ≠ .ofUri NRL.coreGraphMetadataFor := fun h =>
    absurd ((Node.ofUri_inj (u := NAO.created) rfl).mp h) (by decide)
  simp only [graphMetadata, List.mem_cons, List.not_mem_nil, or_false] at hq
  rcases hq with rfl | rfl | rfl | rfl
  · exact ⟨rfl, fun _ => ⟨rfl, rfl⟩⟩
  · exact ⟨rfl, fun h => absurd h hType⟩
  · exact ⟨rfl, fun h => absurd h hType⟩
  · exact ⟨rfl, fun h => absurd h hCreated⟩

/-- A resource that nothing mentions is neither of the graphs that there are. -/
theorem Holds.not_names {u : QUrl} (h : Holds start s) (hu : Fresh s.store u) (he : e ∈ s.graphs) :
    ¬ e.Names (.ofUri u) := by
  have hMark := hu.2 e.mark ((h.mem_store _).mpr (.inr ⟨e, he, (h.wellFormed e he).mark⟩))
  rintro (hEq | hEq)
  · exact hMark (by rw [hEq]; simp [Statement.nodes, Entry.mark])
  · exact hMark (by rw [hEq]; simp [Statement.nodes, Entry.mark])

theorem Holds.create {graph metadatagraph : QUrl} (h : Holds start s) (type : QUrl) (now : QDateTime)
    (hGraph : Fresh s.store graph) (hMetadata : Fresh s.store metadatagraph) :
    Holds start ⟨(createGraph works type graph metadatagraph now s.store).store,
      ⟨graph, metadatagraph, (graphMetadata type graph metadatagraph now).filter (·.isValid)⟩ ::
        s.graphs⟩ := by
  have hNotNames {q : Statement} (hq : q ∈ s.store) {n : Node} (hn : n ∈ q.nodes) :
      ¬ (n = .ofUri graph ∨ n = .ofUri metadatagraph) := by
    rintro (rfl | rfl)
    · exact hGraph.2 q hq hn
    · exact hMetadata.2 q hq hn
  have hStore {q : Statement} : q ∈ (createGraph works type graph metadatagraph now s.store).store ↔
      q ∈ s.store ∨ q ∈ (graphMetadata type graph metadatagraph now).filter (·.isValid) :=
    mem_foldl_addStatement
  constructor
  case mem_store =>
    intro q
    rw [hStore, h.mem_store, List.exists_mem_cons_iff, or_assoc, or_comm (a := ∃ e ∈ s.graphs, _)]
  case wellFormed =>
    refine List.forall_mem_cons.mpr ⟨⟨hGraph.1, hMetadata.1, ?_, fun q hq => ?_⟩, h.wellFormed⟩
    · refine List.mem_filter.mpr ⟨List.mem_cons_self, ?_⟩
      rw [Entry.mark, Node.ofUri_self _ hGraph.1, Node.ofUri_self _ hMetadata.1]
      rfl
    · exact .inr (graphMetadata_spec (List.mem_filter.mp hq).1).1
  case apart =>
    refine List.pairwise_cons.mpr ⟨fun e he n hn hn' => ?_, h.apart⟩
    rcases hn with rfl | rfl
    · exact h.not_names hGraph he hn'
    · exact h.not_names hMetadata he hn'
  case start =>
    refine fun q hq => List.forall_mem_cons.mpr ⟨?_, h.start q hq⟩
    exact hNotNames ((h.mem_store q).mpr (.inl hq)) (by simp [Statement.nodes])
  case metadata =>
    intro q hq hPredicate
    refine List.forall_mem_cons.mpr ⟨fun hObject => ?_, fun e he hObject => ?_⟩
    · rcases hStore.mp hq with hq | hq
      · exact absurd (.inl hObject) (hNotNames hq (by simp [Statement.nodes]))
      · exact .inr ((graphMetadata_spec (List.mem_filter.mp hq).1).2 hPredicate).1
    · rcases hStore.mp hq with hq | hq
      · exact h.metadata q hq hPredicate e he hObject
      · -- the new statement is about the new graph
        have hEq := ((graphMetadata_spec (List.mem_filter.mp hq).1).2 hPredicate).2
        exact absurd (.inl (hObject.symm.trans hEq).symm) (h.not_names hGraph he)

theorem Holds.step (hSelect : AnswersMetadata select) (h : Holds start s)
    (hMeets : Allowed s operation ∧ Sincere s operation) (hStep : step select s operation = some t) :
    Holds start t := by
  obtain ⟨hAllowed, hSincere⟩ := hMeets
  cases hStep
  cases operation with
  | createGraph type graph metadatagraph now => exact h.create type now hAllowed.1 hAllowed.2
  | addStatement statement =>
    obtain ⟨e, he, hContext⟩ := hAllowed
    exact h.add he hContext hSincere
  | remove removal graph =>
    obtain ⟨e, he, rfl⟩ := hAllowed
    exact h.remove hSelect he removal

theorem Holds.run (hSelect : AnswersMetadata select) (h : Holds start s)
    (hMeets : AllMeet (Graphs.step select) (fun s o => Allowed s o ∧ Sincere s o) s operations)
    (hRun : run (Graphs.step select) s operations = some t) : Holds start t :=
  Runs.invariant (I := Holds start) (fun h hMeets => h.step hSelect hMeets) h hMeets hRun

/-- What is added to one graph leaves the others as they are. -/
theorem Holds.addAll {graphs : List Entry} (h : Holds start ⟨store, e :: graphs⟩) (added : List Statement)
    (hAdded : ∀ statement ∈ added, statement.context = .ofUri e.graph ∧
      Sincere ⟨store, e :: graphs⟩ (.addStatement statement)) :
    ∃ statements, Holds start
      ⟨added.foldl (fun store statement => (FilterModel.addStatement works store statement).store) store,
        { e with statements } :: graphs⟩ := by
  induction added generalizing store e with
  | nil => exact ⟨e.statements, h⟩
  | cons statement added ih =>
    obtain ⟨⟨hContext, hSincere⟩, hRest⟩ := List.forall_mem_cons.mp hAdded
    have hOther : graphs.map (·.add statement) = graphs := by
      refine (List.map_congr_left fun e' he' => if_neg fun hAdds => ?_).trans (List.map_id graphs)
      exact (List.pairwise_cons.mp h.apart).1 e' he' _ (.inl hContext) (.inl hAdds.1)
    have hNext := h.add List.mem_cons_self hContext hSincere
    rw [List.map_cons, hOther] at hNext
    have hMetadata : (e.add statement).metadataGraph = e.metadataGraph := by
      rw [Entry.add]
      split <;> rfl
    obtain ⟨statements, hEnd⟩ := ih hNext fun later hLater => by
      obtain ⟨hContext, hSincere⟩ := hRest later hLater
      obtain ⟨hFirst, hGraphs⟩ := List.forall_mem_cons.mp hSincere
      refine ⟨by rw [e.add_graph]; exact hContext, List.forall_mem_cons.mpr ⟨?_, hGraphs⟩⟩
      rw [e.add_graph, Entry.names_add]
      exact hFirst
    rw [e.add_graph, hMetadata] at hEnd
    exact ⟨statements, hEnd⟩

/-- In every state that calls lead to, the store is what there was at first and what the graphs hold that
were created and not removed; and removing a graph gives back the store before it was created, however it
is removed and whatever was added to it. -/
theorem holds_run (hSelect : AnswersMetadata select)
    (hMeets : AllMeet (step select) (fun s o => Allowed s o ∧ Sincere s o) ⟨start, []⟩ operations)
    (hRun : run (step select) ⟨start, []⟩ operations = some t) :
    (∀ q, q ∈ t.store ↔ q ∈ start ∨ ∃ e ∈ t.graphs, q ∈ e.statements) ∧
      ∀ (type graph metadatagraph : QUrl) (now : QDateTime) (added : List Statement) (removal : Removal),
        Fresh t.store graph → Fresh t.store metadatagraph →
        (∀ statement ∈ added, statement.context = .ofUri graph ∧
          Sincere ⟨t.store, ⟨graph, metadatagraph, []⟩ :: t.graphs⟩ (.addStatement statement)) →
        ∀ q, q ∈ (removal.apply select
          (added.foldl (fun store statement => (FilterModel.addStatement works store statement).store)
            (createGraph works type graph metadatagraph now t.store).store) graph).store ↔ q ∈ t.store := by
  have hHolds : Holds start t := (Holds.init start).run hSelect hMeets hRun
  refine ⟨hHolds.mem_store, fun type graph metadatagraph now added removal hGraph hMetadata hAdded q => ?_⟩
  have hCreated : Holds start _ := hHolds.create type now hGraph hMetadata
  obtain ⟨statements, hEnd⟩ := hCreated.addAll added fun statement hMem => by
    obtain ⟨hContext, hSincere⟩ := hAdded statement hMem
    exact ⟨hContext, List.forall_mem_cons.mpr (List.forall_mem_cons.mp hSincere)⟩
  have hRemoved := hEnd.remove hSelect List.mem_cons_self removal
  have hGraphs : t.graphs.filter (·.graph ≠ graph) = t.graphs := by
    refine List.filter_eq_self.mpr fun e he => decide_eq_true fun hEq => ?_
    exact hHolds.not_names hGraph he (.inl (hEq ▸ rfl))
  rw [List.filter_cons_of_neg (by simp), hGraphs] at hRemoved
  exact (hRemoved.mem_store q).trans (hHolds.mem_store q).symm

/-! ### An implementation of the query -/

def selectMetadata (query : QString) (store : Store) : List BindingSet :=
  store.filterMap fun q =>
    match q.object with
    | .resource u _ =>
      if q.predicate = .ofUri NRL.coreGraphMetadataFor ∧ query = metadataText u.encoded then
        some (BindingSet.empty.insert "mg".toList q.subject)
      else none
    | _ => none

omit [Qt] in
theorem metadataText_inj {u v : QUrl} (h : metadataText u.encoded = metadataText v.encoded) : u = v := by
  have hIri := List.append_cancel_left (List.append_cancel_left h)
  have hBracket := List.append_cancel_right (List.tail_eq_of_cons_eq hIri)
  exact QUrl.ext (List.append_cancel_right (List.tail_eq_of_cons_eq hBracket))

theorem answersMetadata : AnswersMetadata selectMetadata where
  mem_allNodes {u store n} hu := by
    simp only [allNodes, selectMetadata, List.map_filterMap, List.mem_filterMap]
    refine exists_congr fun q => and_congr_right fun _ => ?_
    cases hObject : q.object with
    | resource v hv =>
      simp only
      constructor
      · intro h
        split at h
        · next hRow =>
          obtain ⟨hPredicate, hText⟩ := hRow
          obtain rfl := metadataText_inj hText
          exact ⟨Option.some.inj h, hPredicate, (Node.ofUri_self u hv).symm⟩
        · cases h
      · rintro ⟨rfl, hPredicate, hEq⟩
        rw [Node.ofUri_self u hu] at hEq
        obtain rfl := Node.resource.inj hEq
        rw [if_pos ⟨hPredicate, rfl⟩]
        rfl
    | _ =>
      refine ⟨(by intros; contradiction), fun h => ?_⟩
      rw [Node.ofUri_self u hu] at h
      cases h.2.2

end Qt

section Example

local instance graphsQt : Qt := asciiQt

/-- A URI for each number. -/
local instance tenNames : NeZero 10 := ⟨by decide⟩

theorem legal_name (i : Fin 10) : ['u', 'r', 'n', ':', Nat.digitChar i].all isUrlChar = true := by
  revert i
  decide

def name (i : Fin 10) : QUrl := ⟨['u', 'r', 'n', ':', Nat.digitChar i], legal_name i⟩

def midnight : QDateTime := ⟨.ofYmd 2000 1 1, .ofHms 0 0 0 0⟩

/-- A statement in the graph of that number. -/
def note (subject predicate object : QUrl) (i : Fin 10) : Statement :=
  ⟨.ofUri subject, .ofUri predicate, .ofUri object, .ofUri (name i)⟩

def created (i j : Fin 10) : Operation := .createGraph (name 0) (name i) (name j) midnight

theorem name_inj {i j : Fin 10} : name i = name j ↔ i = j := by
  revert i j
  decide

theorem fresh_note {i : Fin 10} (h : i ≠ 0 ∧ i ≠ 5) : Fresh [note (name 0) (name 0) (name 0) 5] (name i) := by
  refine ⟨rfl, List.forall_mem_singleton.mpr ?_⟩
  simp [note, Statement.nodes, Node.ofUri_inj (u := name i) rfl, name_inj, h]

theorem fresh_iff {store : Store} {u : QUrl} (h : u.isEmpty = false) :
    Fresh store u ↔ ∀ q ∈ store, Node.ofUri u ∉ q.nodes := and_iff_right h

/-- A graph is created and filled while there is another one, and its context removed. -/
theorem holds_run_example :
    ∃ t, run (step selectMetadata) ⟨[note (name 0) (name 0) (name 0) 5], []⟩ [created 1 2] = some t ∧
      ∀ q, q ∈ (Removal.removeContext.apply selectMetadata
        ([note (name 5) (name 0) (name 1) 3].foldl
          (fun store statement => (FilterModel.addStatement works store statement).store)
          (createGraph works (name 0) (name 3) (name 4) midnight t.store).store) (name 3)).store ↔
        q ∈ t.store := by
  have hMeets : AllMeet (step selectMetadata) (fun s o => Allowed s o ∧ Sincere s o)
      ⟨[note (name 0) (name 0) (name 0) 5], []⟩ [created 1 2] :=
    .cons ⟨⟨fresh_note (by decide), fresh_note (by decide)⟩, trivial⟩ rfl trivial
  refine ⟨_, rfl, (holds_run answersMetadata hMeets rfl).2 (name 0) (name 3) (name 4) midnight
    [note (name 5) (name 0) (name 1) 3] .removeContext ?_ ?_ ?_⟩
  · exact (fresh_iff rfl).mpr (by decide)
  · exact (fresh_iff rfl).mpr (by decide)
  · refine List.forall_mem_singleton.mpr ⟨rfl, fun e _ h => absurd h ?_⟩
    decide

/-- The other graph, and what calls it the metadata graph of the new one. -/
theorem other_notMem (store : Store) (hSubjects : ∀ m ∈ store, m.subject ≠ .empty) :
    note (name 0) (name 0) (name 0) 5 ∉ (Removal.removeContext.apply selectMetadata
      (FilterModel.addStatement works store (note (name 5) NRL.coreGraphMetadataFor (name 1) 1)).store
      (name 1)).store := by
  rw [removal_eq rfl, mem_removeGraph answersMetadata rfl fun m hm _ _ => ?_]
  · exact fun h => h.2.2 _ (mem_addStatement.mpr (.inr ⟨rfl, rfl⟩)) rfl rfl rfl
  · rcases mem_addStatement.mp hm with hm | ⟨rfl, -⟩
    · exact hSubjects m hm
    · nofun

/-- A statement of the graph calls another one its metadata graph. -/
theorem not_holds_run :
    ¬ ∀ start operations t, AllMeet (step selectMetadata) Allowed ⟨start, []⟩ operations →
      run (step selectMetadata) ⟨start, []⟩ operations = some t →
        ∀ q, q ∈ t.store ↔ q ∈ start ∨ ∃ e ∈ t.graphs, q ∈ e.statements := by
  intro h
  have hCall := h [note (name 0) (name 0) (name 0) 5]
    [created 1 2, .addStatement (note (name 5) NRL.coreGraphMetadataFor (name 1) 1),
      .remove .removeContext (name 1)] _ ?_ rfl (note (name 0) (name 0) (name 0) 5)
  · have hKept : note (name 0) (name 0) (name 0) 5 ∈ (Removal.removeContext.apply selectMetadata
        (FilterModel.addStatement works
          (createGraph works (name 0) (name 1) (name 2) midnight [note (name 0) (name 0) (name 0) 5]).store
          (note (name 5) NRL.coreGraphMetadataFor (name 1) 1)).store (name 1)).store :=
      hCall.mpr (.inl List.mem_cons_self)
    refine other_notMem _ (fun m hm => ?_) hKept
    rcases mem_foldl_addStatement.mp hm with hm | hm
    · obtain rfl := List.mem_singleton.mp hm
      nofun
    · simp only [graphMetadata, List.mem_filter, List.mem_cons, List.not_mem_nil, or_false] at hm
      rcases hm.1 with rfl | rfl | rfl | rfl <;> nofun
  · refine .cons ⟨fresh_note (by decide), fresh_note (by decide)⟩ rfl ?_
    refine .cons ⟨_, List.mem_cons_self, rfl⟩ rfl (.cons ⟨_, List.mem_cons_self, ?_⟩ rfl trivial)
    exact Entry.add_graph _ _

end Example

end Graphs

end NRLModel

end Soprano
