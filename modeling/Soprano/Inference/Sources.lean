import Soprano.Inference.Clearing
import Soprano.Inference.Removal

/-! What the metadata of an inference model records: the graphs of inferred statements with their source
statements, and what `inferedGraphsForStatement` reads of it. -/

namespace Soprano

namespace Inference

open Sparql Vocabulary

section Qt

variable [Qt]

/-- A statement that was recorded as a source of a graph. The numbers are those of the random URIs of
the graph and, in uncompressed mode, of the source statement. -/
structure Source where
  graph : Nat
  uri : Nat
  statement : Statement

/-- The random URIs are distinct and have no special characters. -/
structure RandomUris (createRandomUri : Nat → QUrl) : Prop where
  isEmpty : ∀ k, (createRandomUri k).isEmpty = false
  injective : Function.Injective createRandomUri
  plain : ∀ k, Qt.urlToString (createRandomUri k) = (createRandomUri k).encoded
  ne_metaData : ∀ k, createRandomUri k ≠ SIL.InferenceMetaData

section Quads

variable (createRandomUri : Nat → QUrl) (compressed : Bool)

namespace Source

def graphNode (r : Source) : Node := .ofUri (createRandomUri r.graph)

def uriNode (r : Source) : Node := .ofUri (createRandomUri r.uri)

def quads (r : Source) : List Statement :=
  sourceQuads compressed (r.graphNode createRandomUri) (r.uriNode createRandomUri) r.statement

/-- The statement that links the graph to its source. -/
def mark (r : Source) : Statement :=
  ⟨r.graphNode createRandomUri, .ofUri SIL.sourceStatement,
    if compressed then .ofLiteral (compressStatement r.statement) else r.uriNode createRandomUri,
    .ofUri SIL.InferenceMetaData⟩

end Source

/-- The sources that a graph is given, where the random URIs from `k` on name them. -/
def sourcesOf (graph : Nat) : Nat → List Statement → List Source
  | _, [] => []
  | k, s :: sourceStatements =>
    ⟨graph, k, s⟩ :: sourcesOf graph (k + InferenceModel.sourceUris compressed) sourceStatements

/-- The properties that describe a source statement. -/
def parts : List (QUrl × (Statement → Node)) :=
  [(RDF.subject, Statement.subject), (RDF.predicate, Statement.predicate), (RDF.object, Statement.object)]

/-- A resource that the text of a query names. -/
def PlainResource (n : Node) : Prop := ∃ uri h, n = .resource uri h ∧ Qt.urlToString uri = uri.encoded

/-- A statement that is not read as metadata of the model: in the graph of the metadata it is about no
resource that the model has made, and it neither links a graph to a source nor describes one. -/
structure Foreign (q : Statement) : Prop where
  metaData : q.context = .ofUri SIL.InferenceMetaData → ∀ k, q.subject ≠ .ofUri (createRandomUri k)
  marks : q.predicate = .ofUri SIL.sourceStatement →
    compressed = true ∧ q.context ≠ .ofUri SIL.InferenceMetaData
  described : compressed = false → ∀ part ∈ parts, q.predicate = .ofUri part.1 →
    PlainResource q.subject ∧ ∀ k, q.subject ≠ .ofUri (createRandomUri k)

/-- The metadata in a store is exactly that of the recorded sources whose graphs are still typed as graphs
of inferred statements; below `uris` are the numbers of the random URIs that are taken. -/
structure Kept (uris : Nat) (R : List Source) (store : Store) : Prop where
  valid : ∀ q ∈ store, q.isValid = true
  below : ∀ r ∈ R, r.graph < uris ∧ (compressed = false → r.uri < uris)
  distinct : compressed = false → ∀ r ∈ R, ∀ r' ∈ R, r.uri ≠ r'.graph ∧ (r.uri = r'.uri → r = r')
  known : ∀ q ∈ store, Foreign createRandomUri compressed q ∨
    (∃ k, q = graphQuad (.ofUri (createRandomUri k))) ∨ ∃ r ∈ R, q ∈ r.quads createRandomUri compressed
  stored : ∀ r ∈ R, graphQuad (r.graphNode createRandomUri) ∈ store →
    ∀ q ∈ r.quads createRandomUri compressed, q ∈ store
  marked : ∀ r ∈ R, r.mark createRandomUri compressed ∈ store →
    graphQuad (r.graphNode createRandomUri) ∈ store

end Quads

variable {createRandomUri : Nat → QUrl} {compressed : Bool}

theorem triple_eq_iff_parts {s t : Statement} :
    s.triple = t.triple ↔ ∀ part ∈ parts, part.2 s = part.2 t := by
  simp only [parts, List.forall_mem_cons, List.not_mem_nil, false_implies, implies_true, and_true,
    Statement.triple, Statement.mk.injEq]

theorem RandomUris.ofUri_inj (h : RandomUris createRandomUri) {k l : Nat} :
    Node.ofUri (createRandomUri k) = .ofUri (createRandomUri l) ↔ k = l :=
  (Node.ofUri_inj (h.isEmpty k)).trans h.injective.eq_iff

theorem RandomUris.ofUri_ne (h : RandomUris createRandomUri) (k : Nat) :
    Node.ofUri (createRandomUri k) ≠ .ofUri SIL.InferenceMetaData :=
  mt (Node.ofUri_inj (h.isEmpty k)).mp (h.ne_metaData k)

theorem RandomUris.plainResource (h : RandomUris createRandomUri) (k : Nat) :
    PlainResource (.ofUri (createRandomUri k)) :=
  ⟨_, h.isEmpty k, Node.ofUri_self _ _, h.plain k⟩

namespace Source

variable {r : Source} {q : Statement}

theorem mark_mem : r.mark createRandomUri compressed ∈ r.quads createRandomUri compressed := by
  cases compressed <;> simp [mark, quads, sourceQuads]

theorem part_mem {part : QUrl × (Statement → Node)} (h : part ∈ parts) :
    ⟨r.uriNode createRandomUri, .ofUri part.1, part.2 r.statement, .ofUri SIL.InferenceMetaData⟩ ∈
      r.quads createRandomUri false := by
  simp only [parts, List.mem_cons, List.not_mem_nil, or_false] at h
  rcases h with rfl | rfl | rfl <;> simp [quads, sourceQuads]

/-- A statement that describes a source: it is about the source, and it names its parts. -/
structure Describes (createRandomUri : Nat → QUrl) (r : Source) (q : Statement) : Prop where
  subject : q.subject = r.uriNode createRandomUri
  context : q.context = .ofUri SIL.InferenceMetaData
  predicate : q.predicate ≠ .ofUri SIL.sourceStatement
  type : q.predicate = .ofUri RDF.type → q.object = .ofUri RDF.Statement
  part : ∀ part ∈ parts, q.predicate = .ofUri part.1 → q.object = part.2 r.statement

/-- A statement with one of the properties, and one with none of them. -/
theorem Describes.ofPart {x : QUrl} {f : Statement → Node} (h : (x, f) ∈ parts) :
    r.Describes createRandomUri
      ⟨r.uriNode createRandomUri, .ofUri x, f r.statement, .ofUri SIL.InferenceMetaData⟩ := by
  simp only [parts, List.mem_cons, Prod.mk.injEq, List.not_mem_nil, or_false] at h
  have hParts : ∀ part ∈ parts, x = part.1 → f r.statement = part.2 r.statement := by
    simp only [parts, List.forall_mem_cons, List.not_mem_nil, false_implies, implies_true, and_true]
    rcases h with ⟨rfl, rfl⟩ | ⟨rfl, rfl⟩ | ⟨rfl, rfl⟩
    · exact ⟨fun _ => rfl, fun h => absurd h (by decide), fun h => absurd h (by decide)⟩
    · exact ⟨fun h => absurd h (by decide), fun _ => rfl, fun h => absurd h (by decide)⟩
    · exact ⟨fun h => absurd h (by decide), fun h => absurd h (by decide), fun _ => rfl⟩
  have hx : x.isEmpty = false ∧ x ≠ SIL.sourceStatement ∧ x ≠ RDF.type := by
    rcases h with ⟨rfl, -⟩ | ⟨rfl, -⟩ | ⟨rfl, -⟩ <;> decide
  refine ⟨rfl, rfl, mt (Node.ofUri_inj hx.1).mp hx.2.1, fun hType => ?_, fun part hPart hEq => ?_⟩
  · exact absurd ((Node.ofUri_inj hx.1).mp hType) hx.2.2
  · exact hParts part hPart ((Node.ofUri_inj hx.1).mp hEq)

theorem Describes.ofOther {x : QUrl} {o : Node} (hx : x.isEmpty = false) (hSource : x ≠ SIL.sourceStatement)
    (hType : x = RDF.type → o = .ofUri RDF.Statement) (hParts : x ∉ [RDF.subject, RDF.predicate, RDF.object]) :
    r.Describes createRandomUri ⟨r.uriNode createRandomUri, .ofUri x, o, .ofUri SIL.InferenceMetaData⟩ := by
  refine ⟨rfl, rfl, mt (Node.ofUri_inj hx).mp hSource, fun hEq => hType ((Node.ofUri_inj hx).mp hEq), ?_⟩
  intro part hPart hEq
  obtain rfl := (Node.ofUri_inj hx).mp hEq
  exact absurd (List.mem_map_of_mem (f := Prod.fst) hPart) hParts

theorem mem_quads (h : q ∈ r.quads createRandomUri compressed) :
    q = r.mark createRandomUri compressed ∨ compressed = false ∧ r.Describes createRandomUri q := by
  cases compressed with
  | true => exact .inl (List.mem_singleton.mp h)
  | false =>
    rw [quads, sourceQuads, if_neg (by decide), List.mem_append, List.mem_append] at h
    rcases h with h | h | h
    · simp only [List.mem_cons, List.not_mem_nil, or_false] at h
      rcases h with rfl | rfl | rfl | rfl
      · exact .inr ⟨rfl, .ofOther rfl (by decide) (fun _ => rfl) (by decide)⟩
      · exact .inr ⟨rfl, .ofPart (by simp [parts])⟩
      · exact .inr ⟨rfl, .ofPart (by simp [parts])⟩
      · exact .inr ⟨rfl, .ofPart (by simp [parts])⟩
    · split at h
      · obtain rfl := List.mem_singleton.mp h
        exact .inr ⟨rfl, .ofOther rfl (by decide) (fun hType => absurd hType (by decide)) (by decide)⟩
      · cases h
    · exact .inl (List.mem_singleton.mp h)

end Source

namespace Store

theorem isMatch_iff {p q : Statement} : isMatch p q = true ↔
    (p.subject ≠ .empty → q.subject = p.subject) ∧ (p.predicate ≠ .empty → q.predicate = p.predicate) ∧
      (p.object ≠ .empty → q.object = p.object) ∧ (p.context ≠ .empty → q.context = p.context) := by
  have hNode : ∀ n m : Node, (n.isEmpty || decide (m = n)) = true ↔ (n ≠ .empty → m = n) := fun n m => by
    rw [Bool.or_eq_true, isEmpty_eq, decide_eq_true_iff, or_iff_not_imp_left]
  rw [isMatch, Bool.and_eq_true, Bool.and_eq_true, Bool.and_eq_true, hNode, hNode, hNode, hNode, and_assoc,
    and_assoc]

end Store

/-! ### The lookups -/

namespace Kept

variable {uris : Nat} {R : List Source} {store : Store} {q s : Statement} {g : Node}
  {select : QString → Store → List BindingSet}

/-- What reads as a link from a graph to a source is one. -/
theorem of_mark (h : Kept createRandomUri compressed uris R store) (hq : q ∈ store)
    (hPredicate : q.predicate = .ofUri SIL.sourceStatement)
    (hContext : compressed = true → q.context = .ofUri SIL.InferenceMetaData) :
    ∃ r ∈ R, graphQuad (r.graphNode createRandomUri) ∈ store ∧ q = r.mark createRandomUri compressed := by
  rcases h.known q hq with hForeign | ⟨k, rfl⟩ | ⟨r, hr, hQuad⟩
  · obtain ⟨hMode, hNot⟩ := hForeign.marks hPredicate
    exact absurd (hContext hMode) hNot
  · exact absurd ((Node.ofUri_inj (u := RDF.type) rfl).mp hPredicate) (by decide)
  · rcases Source.mem_quads hQuad with rfl | ⟨-, hDescribes⟩
    · exact ⟨r, hr, h.marked r hr hq, rfl⟩
    · exact absurd hPredicate hDescribes.predicate

/-- What reads as a part of a source is one, unless its subject is no resource of the model. -/
theorem of_part (h : Kept createRandomUri false uris R store) (hq : q ∈ store)
    {part : QUrl × (Statement → Node)} (hPart : part ∈ parts) (hPredicate : q.predicate = .ofUri part.1) :
    (PlainResource q.subject ∧ ∀ k, q.subject ≠ .ofUri (createRandomUri k)) ∨
      ∃ r ∈ R, q.subject = r.uriNode createRandomUri ∧ q.object = part.2 r.statement := by
  have hNe : part.1 ≠ RDF.type ∧ part.1 ≠ SIL.sourceStatement :=
    (by decide : ∀ x ∈ [RDF.subject, RDF.predicate, RDF.object], x ≠ RDF.type ∧ x ≠ SIL.sourceStatement)
      part.1 (List.mem_map_of_mem (f := Prod.fst) hPart)
  rcases h.known q hq with hForeign | ⟨k, rfl⟩ | ⟨r, hr, hQuad⟩
  · exact .inl (hForeign.described rfl part hPart hPredicate)
  · exact absurd ((Node.ofUri_inj (u := RDF.type) rfl).mp hPredicate).symm hNe.1
  · rcases Source.mem_quads hQuad with rfl | ⟨-, hDescribes⟩
    · exact absurd ((Node.ofUri_inj (u := SIL.sourceStatement) rfl).mp hPredicate).symm hNe.2
    · exact .inr ⟨r, hr, hDescribes.subject, hDescribes.part part hPart hPredicate⟩

end Kept

open InferenceModel

/-- The text of a compressed statement. -/
def compressText (s : Statement) : QString :=
  QString.arg (QString.arg "<%1> <%2> ".toList s.subject.toString) s.predicate.toString ++
    if s.object.isLiteral then
      QString.arg (QString.arg "\"%1\"^^<%2>".toList s.object.toString) (Qt.urlToString s.object.dataType)
    else '<' :: (s.object.toString ++ ['>'])

theorem compressStatement_eq (s : Statement) :
    compressStatement s = .ofVariant (.string (compressText s)) := by
  rw [compressStatement, compressText]
  split <;> rfl

theorem compressStatement_valid (s : Statement) : (compressStatement s).isValid = true := by
  rw [compressStatement_eq]
  rfl

theorem ofLiteral_compressStatement_inj {s t : Statement} :
    Node.ofLiteral (compressStatement t) = .ofLiteral (compressStatement s) ↔ compressText t = compressText s := by
  have hText : ∀ s, (Node.ofLiteral (compressStatement s)).toString = compressText s := fun s => by
    rw [Node.ofLiteral_self _ (compressStatement_valid s)]
    exact congrArg LiteralValue.toString (compressStatement_eq s)
  constructor
  · intro hEq
    rw [← hText t, hEq, hText s]
  · intro hEq
    rw [compressStatement_eq, compressStatement_eq, hEq]

/-- No text in the statement looks like an end of it, or like a place marker of `compressStatement`. -/
structure Legible (s : Statement) : Prop where
  subject : '>' ∉ s.subject.toString ∧ QString.MarkersAbove 2 s.subject.toString
  predicate : '>' ∉ s.predicate.toString
  object : s.object.isLiteral = true →
    QString.MarkersAbove 2 s.object.toString ∧ '"' ∉ Qt.urlToString s.object.dataType

/-- The nodes of the statements differ in their texts if they differ. -/
structure ToldApart (t s : Statement) : Prop where
  subject : t.subject.toString = s.subject.toString → t.subject = s.subject
  predicate : t.predicate.toString = s.predicate.toString → t.predicate = s.predicate
  object : t.object.isLiteral = s.object.isLiteral → t.object.toString = s.object.toString →
    (t.object.isLiteral = true → Qt.urlToString t.object.dataType = Qt.urlToString s.object.dataType) →
      t.object = s.object

omit [Qt] in
theorem arg_brackets {a b : QString} (ha : QString.MarkersAbove 2 a) :
    QString.arg (QString.arg "<%1> <%2> ".toList a) b =
      '<' :: (a ++ '>' :: ' ' :: '<' :: (b ++ ['>', ' '])) := by
  have hFirst : QString.arg "<%1> <%2> ".toList a = '<' :: (a ++ "> <%2> ".toList) := rfl
  have hSecond : QString.arg ('>' :: " <%2> ".toList) b = '>' :: ' ' :: '<' :: (b ++ ['>', ' ']) := rfl
  have hBracket : QString.MarkersAbove 2 ('<' :: a) := ⟨fun m hm => (by cases hm), ha⟩
  have := QString.arg_append (t := " <%2> ".toList) (a := b) hBracket (d := '>') rfl (n := 2) rfl (by decide)
  rw [hSecond] at this
  rw [hFirst]
  exact this

theorem Legible.compressText_eq {s : Statement} (h : Legible s) : compressText s =
    '<' :: (s.subject.toString ++ '>' :: ' ' :: '<' :: (s.predicate.toString ++ '>' :: ' ' ::
      if s.object.isLiteral then '"' :: (s.object.toString ++
        '"' :: '^' :: '^' :: '<' :: (Qt.urlToString s.object.dataType ++ ['>']))
      else '<' :: (s.object.toString ++ ['>']))) := by
  rw [compressText, arg_brackets h.subject.2]
  split
  · rename_i hLiteral
    rw [QString.arg_type (h.object hLiteral).1]
    simp
  · simp

/-- Legible statements whose nodes are told apart by their texts have the same text only if they are the
same triple. -/
theorem compressText_inj {t s : Statement} (ht : Legible t) (hs : Legible s) (hApart : ToldApart t s) :
    compressText t = compressText s ↔ t.triple = s.triple := by
  constructor
  · intro hEq
    rw [ht.compressText_eq, hs.compressText_eq, List.cons_inj_right,
      Codec.Reads.append_cons_inj ht.subject.1 hs.subject.1, List.cons_inj_right, List.cons_inj_right,
      Codec.Reads.append_cons_inj ht.predicate hs.predicate, List.cons_inj_right] at hEq
    obtain ⟨hSubject, hPredicate, hEq⟩ := hEq
    have hObject : t.object = s.object := by
      cases hLiteral : t.object.isLiteral <;> cases hLiteral' : s.object.isLiteral <;>
        simp only [hLiteral, hLiteral', if_true, if_false, Bool.false_eq_true, List.cons.injEq] at hEq
      · -- resources and blank nodes
        refine hApart.object (hLiteral.trans hLiteral'.symm) ?_ (by rw [hLiteral]; exact nofun)
        exact List.append_cancel_right hEq.2
      · exact absurd hEq.1 (by decide)
      · exact absurd hEq.1 (by decide)
      · -- literals: the last quote ends the text
        have hQuote : ∀ {n : Node}, '"' ∉ Qt.urlToString n.dataType →
            '"' ∉ '^' :: '^' :: '<' :: (Qt.urlToString n.dataType ++ ['>']) := by
          intro n h
          simpa using h
        obtain ⟨hText, hType⟩ := (Codec.Reads.append_cons_inj_last (hQuote (ht.object hLiteral).2)
          (hQuote (hs.object hLiteral').2)).mp hEq.2
        simp only [List.cons.injEq, true_and] at hType
        exact hApart.object (hLiteral.trans hLiteral'.symm) hText fun _ => List.append_cancel_right hType
    rw [Statement.triple, Statement.triple, hApart.subject hSubject, hApart.predicate hPredicate, hObject]
  · intro hTriple
    obtain ⟨hSubject, hPredicate, hObject⟩ : t.subject = s.subject ∧ t.predicate = s.predicate ∧
        t.object = s.object := by simpa [Statement.triple] using hTriple
    rw [compressText, compressText, hSubject, hPredicate, hObject]

namespace Kept

variable {uris : Nat} {R : List Source} {store : Store} {q s : Statement} {g : Node}
  {select : QString → Store → List BindingSet}

/-- In compressed mode the graphs are found whose sources have the same text. -/
theorem mem_compressed (h : Kept createRandomUri true uris R store) :
    g ∈ inferedGraphsForStatement (.ofStore select) true s store ↔
      ∃ r ∈ R, r.graphNode createRandomUri = g ∧ graphQuad g ∈ store ∧
        compressText r.statement = compressText s := by
  rw [inferedGraphsForStatement, if_pos rfl, List.mem_map]
  constructor
  · rintro ⟨q, hq, rfl⟩
    obtain ⟨hMem, hMatch⟩ := (Parent.ofStore select).mem_listStatements.mp hq
    obtain ⟨-, hPredicate, hObject, hContext⟩ := Store.isMatch_iff.mp hMatch
    obtain ⟨r, hr, hAlive, rfl⟩ := h.of_mark hMem (hPredicate nofun) fun _ => hContext nofun
    refine ⟨r, hr, rfl, hAlive, ofLiteral_compressStatement_inj.mp (hObject ?_)⟩
    rw [Node.ofLiteral_self _ (compressStatement_valid s)]
    exact nofun
  · rintro ⟨r, hr, rfl, hAlive, hText⟩
    refine ⟨r.mark createRandomUri true, ?_, rfl⟩
    refine (Parent.ofStore select).mem_listStatements.mpr ⟨h.stored r hr hAlive _ Source.mark_mem, ?_⟩
    exact Store.isMatch_iff.mpr ⟨fun hNot => absurd rfl hNot, fun _ => rfl,
      fun _ => ofLiteral_compressStatement_inj.mpr hText, fun _ => rfl⟩

/-- In uncompressed mode the descriptions of sources are found by all their parts. -/
theorem mem_sourceStatementsOf {n : Node} (hFull : Select.Full s) :
    n ∈ sourceStatementsOf (.ofStore select) s store ↔
      ∀ part ∈ parts, ⟨n, .ofUri part.1, part.2 s, .empty⟩ ∈ triples store := by
  have hSubjects : ∀ {x : QUrl} {o : Node}, x.isEmpty = false → o ≠ .empty →
      (n ∈ subjectsOf (.ofStore select) (.ofUri x) o store ↔ ⟨n, .ofUri x, o, .empty⟩ ∈ triples store) := by
    intro x o hx ho
    rw [subjectsOf, List.mem_map]
    constructor
    · rintro ⟨q, hq, rfl⟩
      obtain ⟨hMem, hMatch⟩ := (Parent.ofStore select).mem_listStatements.mp hq
      obtain ⟨-, hPredicate, hObject, -⟩ := Store.isMatch_iff.mp hMatch
      refine ⟨q, hMem, ?_⟩
      rw [Node.ofUri_self x hx] at hPredicate ⊢
      rw [Statement.triple, hPredicate (by rintro ⟨⟩), hObject ho]
    · rintro ⟨q, hq, hTriple⟩
      refine ⟨q, (Parent.ofStore select).mem_listStatements.mpr ⟨hq, ?_⟩, congrArg Statement.subject hTriple⟩
      have hPredicate : q.predicate = .ofUri x := congrArg Statement.predicate hTriple
      have hObject : q.object = o := congrArg Statement.object hTriple
      exact Store.isMatch_iff.mpr
        ⟨fun hNot => absurd rfl hNot, fun _ => hPredicate, fun _ => hObject, fun hNot => absurd rfl hNot⟩
  rw [sourceStatementsOf, List.mem_filter, List.mem_filter, List.mem_dedup, decide_eq_true_iff,
    decide_eq_true_iff, hSubjects rfl hFull.1, hSubjects rfl hFull.2.1, hSubjects rfl hFull.2.2]
  simp only [parts, List.forall_mem_cons, List.not_mem_nil, false_implies, implies_true, and_true, and_assoc]

/-- A query names a plain resource as it is. -/
theorem parse_graphQuery {n : Node} (h : PlainResource n) :
    parse (graphQuery n) = some [[⟨.ofVariable ['g'], .resource (.ofUri SIL.sourceStatement), .resource n⟩]] := by
  obtain ⟨uri, hUri, rfl, hPlain⟩ := h
  have hPattern : Plain ⟨.ofVariable ['g'], .resource (.ofUri SIL.sourceStatement),
      .resource (.resource uri hUri)⟩ := by
    refine ⟨rfl, trivial, trivial, ?_, ?_⟩
    · show QString.MarkersAbove 3 ['?', 'g']
      exact QString.markersAbove_of_notMem (by decide)
    · show QString.MarkersAbove 3 ('<' :: (QString.fromLatin1 SIL.sourceStatement.toEncoded ++ ['>']))
      rw [QUrl.fromLatin1_toEncoded]
      exact QString.markersAbove_of_notMem (by decide)
  have hQuery : graphQuery (.resource uri hUri) = "SELECT ?g WHERE \x7b ".toList ++ (Rule.graphPatterns
      [⟨.ofVariable ['g'], .resource (.ofUri SIL.sourceStatement), .resource (.resource uri hUri)⟩] .empty ++
        ['}']) := by
    have hNode : (NodePattern.resource (.resource uri hUri)).createSparqlNodePattern .empty =
        '<' :: (uri.encoded ++ ['>']) := by
      simp [NodePattern.createSparqlNodePattern, Node.isLiteral, Node.isResource, Node.type, Node.uri]
    have hVariable : (NodePattern.ofVariable ['g']).createSparqlNodePattern .empty = ['?', 'g'] := rfl
    have hHead : (NodePattern.resource (.ofUri SIL.sourceStatement)).createSparqlNodePattern .empty =
        '<' :: (SIL.sourceStatement.encoded ++ ['>']) := rfl
    have hArg : QString.arg (QString.arg "SELECT ?g WHERE \x7b ?g <%1> <%2> . \x7d".toList
        SIL.sourceStatement.encoded) uri.encoded = "SELECT ?g WHERE \x7b ?g <".toList ++
          (SIL.sourceStatement.encoded ++ ("> <".toList ++ (uri.encoded ++ "> . \x7d".toList))) := rfl
    rw [graphQuery, Qt.urlToString_plain _ (by decide), Node.toString, hPlain, hArg, Rule.graphPatterns,
      List.flatMap_singleton, StatementPattern.createSparqlGraphPattern,
      QString.arg_three hPattern.subjectMarkers hPattern.predicateMarkers, hNode, hHead,
      hVariable]
    simp
  rw [hQuery]
  exact parse_graphs (.inl rfl) hPattern fun name hName => List.mem_singleton.mp hName

section Uncompressed

variable (h : Kept createRandomUri false uris R store) (hRandom : RandomUris createRandomUri)
  (hSelect : Answers select)

include h

include hSelect in
/-- The query for a node returns the graphs that are linked to it. -/
theorem mem_query {n : Node} (hPlain : PlainResource n) :
    g ∈ ((Parent.ofStore select).executeQuery (graphQuery n) store).map (fun b => b.values.head?.getD .empty) ↔
      ∃ r ∈ R, r.graphNode createRandomUri = g ∧ graphQuad g ∈ store ∧ r.uriNode createRandomUri = n := by
  refine (mem_graphs hSelect h.valid (parse_graphQuery hPlain)).trans ⟨?_, ?_⟩
  · rintro ⟨q, hq, hTriple⟩
    obtain ⟨r, hr, hAlive, rfl⟩ := h.of_mark hq (congrArg Statement.predicate hTriple) nofun
    obtain rfl : r.graphNode createRandomUri = g := congrArg Statement.subject hTriple
    exact ⟨r, hr, rfl, hAlive, congrArg Statement.object hTriple⟩
  · rintro ⟨r, hr, rfl, hAlive, rfl⟩
    exact ⟨_, h.stored r hr hAlive _ Source.mark_mem, rfl⟩

include hRandom

/-- What describes a source is named in queries as it is. -/
theorem plainResource {n : Node} (hn : n ∈ sourceStatementsOf (.ofStore select) s store) :
    PlainResource n := by
  rw [sourceStatementsOf, List.mem_filter, List.mem_filter, List.mem_dedup, subjectsOf, List.mem_map] at hn
  obtain ⟨⟨⟨q, hq, rfl⟩, -⟩, -⟩ := hn
  obtain ⟨hMem, hMatch⟩ := (Parent.ofStore select).mem_listStatements.mp hq
  have hPredicate := (Store.isMatch_iff.mp hMatch).2.1 nofun
  have hPart : (RDF.subject, Statement.subject) ∈ parts := List.mem_cons_self
  rcases h.of_part hMem hPart hPredicate with
    ⟨hPlain, -⟩ | ⟨r, -, hSubject, -⟩
  · exact hPlain
  · rw [hSubject]
    exact hRandom.plainResource r.uri

include hSelect

/-- In uncompressed mode the graphs are found whose sources have the same nodes. -/
theorem mem_uncompressed (hFull : Select.Full s) :
    g ∈ inferedGraphsForStatement (.ofStore select) false s store ↔
      ∃ r ∈ R, r.graphNode createRandomUri = g ∧ graphQuad g ∈ store ∧ r.statement.triple = s.triple := by
  rw [inferedGraphsForStatement, if_neg (by decide), List.mem_flatMap]
  constructor
  · rintro ⟨n, hn, hg⟩
    obtain ⟨r, hr, hGraph, hAlive, rfl⟩ := (h.mem_query hSelect (h.plainResource hRandom hn)).mp hg
    refine ⟨r, hr, hGraph, hAlive, triple_eq_iff_parts.mpr fun part hMem => ?_⟩
    obtain ⟨q, hq, hTriple⟩ := (mem_sourceStatementsOf hFull).mp hn part hMem
    have hSubject : q.subject = r.uriNode createRandomUri := congrArg Statement.subject hTriple
    have hObject : q.object = part.2 s := congrArg Statement.object hTriple
    rcases h.of_part hq hMem (congrArg Statement.predicate hTriple) with ⟨-, hNot⟩ | ⟨r', hr', hUri, hPart⟩
    · exact absurd hSubject (hNot r.uri)
    · -- two sources with one name are one
      obtain rfl := (h.distinct rfl r hr r' hr').2 (hRandom.ofUri_inj.mp (hSubject.symm.trans hUri))
      rw [← hPart, hObject]
  · rintro ⟨r, hr, hGraph, hAlive, hTriple⟩
    refine ⟨r.uriNode createRandomUri, (mem_sourceStatementsOf hFull).mpr fun part hMem => ?_, ?_⟩
    · refine ⟨_, h.stored r hr (hGraph ▸ hAlive) _ (Source.part_mem hMem), ?_⟩
      rw [triple_eq_iff_parts.mp hTriple part hMem]
      rfl
    · exact (h.mem_query hSelect (hRandom.plainResource r.uri)).mpr ⟨r, hr, hGraph, hAlive, rfl⟩

end Uncompressed

/-- The graphs that are found are graphs of recorded sources. -/
theorem exists_source (h : Kept createRandomUri compressed uris R store)
    (hRandom : RandomUris createRandomUri) (hSelect : Answers select)
    (hg : g ∈ inferedGraphsForStatement (.ofStore select) compressed s store) :
    ∃ r ∈ R, r.graphNode createRandomUri = g := by
  cases compressed with
  | true =>
    obtain ⟨r, hr, hGraph, -⟩ := h.mem_compressed.mp hg
    exact ⟨r, hr, hGraph⟩
  | false =>
    rw [inferedGraphsForStatement, if_neg (by decide), List.mem_flatMap] at hg
    obtain ⟨n, hn, hg⟩ := hg
    obtain ⟨r, hr, hGraph, -⟩ := (h.mem_query hSelect (h.plainResource hRandom hn)).mp hg
    exact ⟨r, hr, hGraph⟩

end Kept

end Qt

end Inference

end Soprano
