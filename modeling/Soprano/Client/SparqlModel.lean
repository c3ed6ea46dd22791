import Mathlib.Data.List.Pairwise
import Soprano.Client.SparqlEndpoint
import Soprano.Error
import Soprano.Qt.Arg

/-! `Client::SparqlModel` on an endpoint with named graphs: its graph patterns, and what they select and
remove. -/

namespace Soprano

namespace Client

open Codec SparqlEndpoint
open Virtuoso (Term Quad TermText)

section Qt

variable [Qt]

/-- The endpoint's statements, and the literals that the process has written as N3, which `literalToN3`
remembers. -/
structure SparqlModel where
  store : Store
  history : List LiteralValue

namespace SparqlModel

/-- The literals that are written with a node. -/
def literals : Node → List LiteralValue
  | .literal value _ => [value]
  | _ => []

/-- The text of a node, or a variable. -/
def nodeText (history : List LiteralValue) (n : Node) (varText : QString) : QString × List LiteralValue :=
  if n.isValid then ((n.toN3 (N3.typeHashAfter history)).1, history ++ literals n) else (varText, history)

def statementToConstructGraphPattern (history : List LiteralValue) (s : Statement) (withContext : Bool) :
    QString × List LiteralValue :=
  let context := if withContext then nodeText history s.context "?g".toList else ([], history)
  let subject := nodeText context.2 s.subject "?s".toList
  let predicate := nodeText subject.2 s.predicate "?p".toList
  let object := nodeText predicate.2 s.object "?o".toList
  let triple := subject.1 ++ [' '] ++ (predicate.1 ++ [' '] ++ object.1)
  (if withContext then "graph ".toList ++ context.1 ++ " \x7b ".toList ++ triple ++ " \x7d".toList else triple,
    object.2)

/-- `QueryResultStatementConstructIteratorBackend::current`, with the names of the bindings. -/
def construct (template : Statement) (names : Quad QString) (row : BindingSet) : Statement :=
  let node (n : Node) (name : QString) := if name.isEmpty then n else row.value name
  ⟨node template.subject names.subject, node template.predicate names.predicate,
    node template.object names.object, node template.context names.graph⟩

/-- The names of the bindings for the nodes that are not given. -/
def bindingNames (partialStatement : Statement) : Quad QString :=
  let name (n : Node) (name : Char) : QString := if n.isValid then [] else [name]
  ⟨name partialStatement.context 'g', name partialStatement.subject 's', name partialStatement.predicate 'p',
    name partialStatement.object 'o'⟩

variable (m : SparqlModel)

def containsAnyStatement (statement : Statement) : Bool × SparqlModel :=
  let pattern := statementToConstructGraphPattern m.history statement true
  ((m.store.ask (QString.arg "ask \x7b %1 \x7d".toList pattern.1)).getD false, { m with history := pattern.2 })

def listStatements (partialStatement : Statement) : List Statement × SparqlModel :=
  let pattern := statementToConstructGraphPattern m.history partialStatement true
  let rows := (m.store.select (QString.arg "select * where \x7b %1 \x7d".toList pattern.1)).getD []
  (rows.map (construct partialStatement (bindingNames partialStatement)), { m with history := pattern.2 })

def removeStatement (statement : Statement) : ErrorCode × SparqlModel :=
  if statement.context.isValid then
    let pattern := statementToConstructGraphPattern m.history statement true
    match m.store.delete (QString.arg "delete from %2".toList pattern.1) with
    | some store => (.errorNone, ⟨store, pattern.2⟩)
    | none => (.errorUnknown, { m with history := pattern.2 })
  else (.errorInvalidArgument, m)

/-- The loop of `removeAllStatements`. -/
def removeEach (m : SparqlModel) : List Statement → ErrorCode × SparqlModel
  | [] => (.errorNone, m)
  | s :: rest =>
    match m.removeStatement s with
    | (.errorNone, m) => removeEach m rest
    | failed => failed

def removeAllStatements (statement : Statement) : ErrorCode × SparqlModel :=
  if statement.isValid && statement.context.isValid then m.removeStatement statement
  else
    let (statements, m) := m.listStatements statement
    m.removeEach statements

/-! ### The selection -/

/-- One node is the other, or is equal to it. -/
def Same (n n' : Node) : Prop := n = n' ∨ n.operatorEq n' = true

/-- The stored statements that match, which are listed, each with its context, found and removed. -/
def matching (p : Statement) : List Statement := m.store.statements.filter (·.matches p)

structure Selects (p : Statement) : Prop where
  lists : ∃ l, l.Perm (m.matching p) ∧
    List.Forall₂ (fun q s => Same q.subject s.subject ∧ Same q.predicate s.predicate ∧ Same q.object s.object ∧
      Same q.context s.context) l (m.listStatements p).1
  contains : (m.containsAnyStatement p).1 = true ↔ m.matching p ≠ []
  removes : ∀ q, q ∈ (m.removeAllStatements p).2.store.statements ↔
    q ∈ m.store.statements ∧ q.matches p = false

/-- The query for a pattern selects the statement. -/
def selected (p q : Statement) : Bool :=
  (complete (readQuery selectHead)
    (selectHead ++ ((statementToConstructGraphPattern m.history p true).1 ++ " \x7d".toList))).any (fits · q)

/-- The N3 text of the one node is SPARQL for the value of the other. -/
def Denotes (history : List LiteralValue) (n n' : Node) : Prop :=
  ∃ t, Virtuoso.Sparul.readText (n.toN3 (N3.typeHashAfter history)).1 = some (.term t) ∧ rdf n' = .term t

/-- The subject, the predicate and the context match. -/
def Around (p q : Statement) : Prop :=
  q.subject.matches p.subject = true ∧ q.predicate.matches p.predicate = true ∧ q.context.matches p.context = true

/-- The literals that have been written once all that match have been requested for removal. -/
def historyAfter (p : Statement) : List LiteralValue :=
  m.history ++ literals p.object ++ (m.matching p).flatMap (literals ·.object)

/-- A pattern with a blank node finds nothing. Other patterns write a given literal so that it means the stored
literals that are equal to it, and what matches has no blank nodes and can be written. -/
structure Plain (p : Statement) : Prop where
  blank : p.subject.isBlank = true ∨ p.object.isBlank = true →
    ∀ q ∈ m.store.statements, m.selected p q = false ∧ q.matches p = false
  literal : p.subject.isBlank = false → p.object.isLiteral = true → ∀ q ∈ m.store.statements, Around p q →
    (Denotes m.history p.object q.object ↔ q.object.operatorEq p.object = true)
  removable : p.subject.isBlank = false → p.object.isBlank = false → ∀ q ∈ m.matching p,
    q.subject.isBlank = false ∧ q.object.isBlank = false ∧
      (p.object.isEmpty = true → Denotes (m.historyAfter p) q.object q.object)

/-! ### Texts -/

/-- The texts of the nodes of a pattern. -/
def texts (history : List LiteralValue) (s : Statement) : Quad QString :=
  let context := nodeText history s.context "?g".toList
  let subject := nodeText context.2 s.subject "?s".toList
  let predicate := nodeText subject.2 s.predicate "?p".toList
  ⟨context.1, subject.1, predicate.1, (nodeText predicate.2 s.object "?o".toList).1⟩

theorem fst_pattern (history : List LiteralValue) (s : Statement) :
    (statementToConstructGraphPattern history s true).1 = graphText (texts history s) := by
  have hOpen : " \x7b ".toList = [' '] ++ "\x7b ".toList := rfl
  have hClose : " \x7d".toList = [' '] ++ "\x7d".toList := rfl
  unfold statementToConstructGraphPattern graphText tripleText objectText texts
  simp only [if_true, hOpen, hClose, List.append_assoc]

theorem snd_nodeText (history : List LiteralValue) (n : Node) (varText : QString) :
    (nodeText history n varText).2 = history ++ literals n := by
  cases n with
  | empty => exact (List.append_nil history).symm
  | _ => rfl

theorem snd_pattern (history : List LiteralValue) (s : Statement) :
    (statementToConstructGraphPattern history s true).2 =
      history ++ literals s.context ++ literals s.subject ++ literals s.predicate ++ literals s.object := by
  simp only [statementToConstructGraphPattern, if_true, snd_nodeText]

omit [Qt] in
theorem arg_select (a : QString) :
    QString.arg "select * where \x7b %1 \x7d".toList a = selectHead ++ (a ++ " \x7d".toList) := rfl

omit [Qt] in
theorem arg_ask (a : QString) : QString.arg "ask \x7b %1 \x7d".toList a = askHead ++ (a ++ " \x7d".toList) := rfl

omit [Qt] in
theorem arg_delete (a : QString) : QString.arg "delete from %2".toList a = "delete from ".toList ++ a := by
  have hArg : QString.arg "delete from %2".toList a = "delete from ".toList ++ (a ++ []) := rfl
  rw [hArg, List.append_nil]

/-! ### Answers -/

/-- The pattern that the endpoint reads. -/
def readPattern (history : List LiteralValue) (p : Statement) : Option (Quad Place) :=
  complete (readQuery selectHead) (selectHead ++ (graphText (texts history p) ++ " \x7d".toList))

theorem readPattern_iff {history : List LiteralValue} {p : Statement} {pattern : Quad Place} :
    readPattern history p = some pattern ↔ readGraph readVarOrIri readVarOrTerm
      (graphText (texts history p) ++ " \x7d".toList) = (some pattern, " \x7d".toList) := complete_query_iff

theorem readPattern_ask (history : List LiteralValue) (p : Statement) :
    complete (readQuery askHead) (askHead ++ (graphText (texts history p) ++ " \x7d".toList)) =
      readPattern history p :=
  Option.ext fun _ => complete_query_iff.trans readPattern_iff.symm

theorem selected_eq (p q : Statement) : m.selected p q = (readPattern m.history p).any (fits · q) := by
  rw [selected, fst_pattern]
  rfl

theorem containsAnyStatement_eq (p : Statement) :
    (m.containsAnyStatement p).1 = m.store.statements.any (m.selected p) := by
  simp only [containsAnyStatement, arg_ask, fst_pattern, Store.ask, readPattern_ask]
  have hSelected : m.selected p = fun q => (readPattern m.history p).any (fits · q) := funext (m.selected_eq p)
  rw [hSelected]
  cases readPattern m.history p with
  | none => simp
  | some pattern => simp

/-- What the answer has for a statement. -/
def row (p q : Statement) : BindingSet := ((readPattern m.history p).map (bindings · q)).getD .empty

theorem listStatements_eq (p : Statement) : (m.listStatements p).1 =
    (m.store.statements.filter (m.selected p)).map fun q => construct p (bindingNames p) (m.row p q) := by
  simp only [listStatements, arg_select, fst_pattern, Store.select]
  have hSelected : m.selected p = fun q => (readPattern m.history p).any (fits · q) := funext (m.selected_eq p)
  have hPattern : complete (readQuery selectHead) (selectHead ++ (graphText (texts m.history p) ++ " \x7d".toList)) =
      readPattern m.history p := rfl
  rw [hSelected, hPattern]
  unfold row
  cases readPattern m.history p with
  | none => simp
  | some pattern => simp

/-! ### The nodes of a pattern -/

/-- A stored resource is denoted by itself only. -/
theorem denotes_resource {history : List LiteralValue} {u : QUrl} (hu : u.isEmpty = false) {n : Node} :
    Denotes history (.resource u hu) n ↔ rdf n = .term (.iri u.encoded) := by
  have hText : Virtuoso.Sparul.readText ((Node.resource u hu).toN3 (N3.typeHashAfter history)).1 =
      some (.term (.iri u.encoded)) := Virtuoso.readText_resource u hu
  constructor
  · rintro ⟨t, hRead, hRdf⟩
    obtain rfl := TermText.term.inj (Option.some.inj (hText.symm.trans hRead))
    exact hRdf
  · exact fun hRdf => ⟨_, hText, hRdf⟩

theorem rdf_eq_iri {n : Node} {u : QString} (h : rdf n = .term (.iri u)) :
    ∃ v hv, n = .resource v hv ∧ v.encoded = u := by
  cases n with
  | resource v hv =>
    cases h
    exact ⟨v, hv, rfl, rfl⟩
  | literal value hValue =>
    cases value with
    | null => cases hValue
    | plain text lang =>
      by_cases hLang : lang.isEmpty = true
      · simp [rdf, hLang] at h
      · simp [rdf, hLang] at h
    | typed v u hTyped => cases h
  | _ => cases h

/-- A node's text starts with the sign of its type. -/
theorem exists_toN3_literal (typeHash : TypeHash) (value : LiteralValue) (h : value.isValid = true) :
    ∃ rest, ((Node.literal value h).toN3 typeHash).1 = '"' :: rest := by
  show ∃ rest, (Node.literalToN3 typeHash value).1 = '"' :: rest
  unfold Node.literalToN3
  dsimp only
  split
  · split <;> exact ⟨_, rfl⟩
  · split <;> exact ⟨_, rfl⟩

/-- A blank node's text stands for no term. -/
theorem not_denotes_blank {history : List LiteralValue} {id : QString} (hId : id.isEmpty = false) {n : Node} :
    ¬ Denotes history (.blank id hId) n := by
  rintro ⟨t, hRead, -⟩
  rw [Node.toN3_blank _ hId, Virtuoso.Sparul.readText_eq_some] at hRead
  cases hRead.run

/-- The place that a node takes where an IRI is wanted. -/
def iriPlace (n : Node) (c : Char) : Option Place :=
  match n with
  | .empty => some (.variable [c])
  | .resource u _ => some (.term (.iri u.encoded))
  | _ => none

theorem readsPlace_iriPlace (history : List LiteralValue) {n : Node} {c : Char}
    (hName : Inference.Sparql.isName [c] = true) (hSpace : c ≠ ' ') {p : Place} (h : iriPlace n c = some p) :
    ReadsPlace readVarOrIri (nodeText history n ['?', c]).1 p ∧
      ReadsPlace readVarOrTerm (nodeText history n ['?', c]).1 p := by
  cases n with
  | empty =>
    cases h
    exact readsPlace_variable hName hSpace
  | resource u hu =>
    cases h
    have hText : (nodeText history (.resource u hu) ['?', c]).1 = '<' :: (u.encoded ++ ['>']) :=
      Node.toN3_resource (N3.typeHashAfter history) hu
    rw [hText]
    have hIri := Virtuoso.isIriChar_encoded u
    exact ⟨(readsPlace_iri hIri).1,
      (readsPlace_term (.inl rfl) (Virtuoso.Sparul.readText_iri_iff.mpr ⟨hIri, rfl⟩)).1⟩
  | _ => cases h

/-- A node that is no IRI is refused there. -/
theorem readVarOrIri_none (history : List LiteralValue) {n : Node} {c : Char} (h : iriPlace n c = none)
    (rest : QString) : (readVarOrIri ((nodeText history n ['?', c]).1 ++ [' '] ++ rest)).1 = none := by
  cases n with
  | literal value hValue =>
    obtain ⟨text, hText⟩ := exists_toN3_literal (N3.typeHashAfter history) value hValue
    rw [show (nodeText history (.literal value hValue) ['?', c]).1 = '"' :: text from hText]
    exact readVarOrIri_refuses (by decide) (by decide) _
  | blank id hId =>
    rw [show (nodeText history (.blank id hId) ['?', c]).1 = '_' :: ':' :: id from
      Node.toN3_blank (N3.typeHashAfter history) hId]
    exact readVarOrIri_refuses (by decide) (by decide) _
  | _ => cases h

/-- An object that is not blank is read as what its text stands for. -/
theorem readsPlace_object (history : List LiteralValue) {n : Node} (hValid : n.isValid = true)
    (hBlank : n.isBlank = false) (varText : QString) :
    (∀ p, ReadsPlace readVarOrTerm (nodeText history n varText).1 p ↔
      ∃ t, p = .term t ∧ Virtuoso.Sparul.readText (n.toN3 (N3.typeHashAfter history)).1 = some (.term t)) ∧
    ∀ t, ReadsPlace readTerm (nodeText history n varText).1 t ↔
      Virtuoso.Sparul.readText (n.toN3 (N3.typeHashAfter history)).1 = some (.term t) := by
  obtain ⟨c, text, hc, hText⟩ : ∃ c text, (c = '<' ∨ c = '"') ∧
      (n.toN3 (N3.typeHashAfter history)).1 = c :: text := by
    cases n with
    | empty => cases hValid
    | resource u hu => exact ⟨'<', _, .inl rfl, Node.toN3_resource _ hu⟩
    | literal value hValue =>
      obtain ⟨text, hText⟩ := exists_toN3_literal (N3.typeHashAfter history) value hValue
      exact ⟨'"', text, .inr rfl, hText⟩
    | blank => cases hBlank
  have hNode : (nodeText history n varText).1 = c :: text := by
    rw [← hText, nodeText, if_pos hValid]
  have hMark : c ≠ '?' ∧ c ≠ '_' := by
    rcases hc with rfl | rfl <;> decide
  rw [hNode, hText]
  refine ⟨fun p => ⟨fun h => ?_, ?_⟩, fun t => ⟨readText_of_readTerm, fun h => (readsPlace_term hc h).2⟩⟩
  · obtain ⟨t, rfl, hTerm⟩ := readTerm_of_readVarOrTerm hMark.1 hMark.2 h
    exact ⟨t, rfl, readText_of_readTerm hTerm⟩
  · rintro ⟨t, rfl, h⟩
    exact (readsPlace_term hc h).1

/-! ### Solutions -/

/-- The place of a node in a pattern that is not blank: a variable of that name, or a term. -/
def IsPlace (n : Node) (c : Char) (p : Place) : Prop :=
  if n.isValid then ∃ t, p = .term t else p = .variable [c]

/-- The node has the term of the place, if that has one. -/
def Holds (p : Place) (n : Node) : Prop := ∀ t, p = .term t → rdf n = .term t

/-- The four places of a pattern. -/
structure IsPattern (p : Statement) (pattern : Quad Place) : Prop where
  graph : IsPlace p.context 'g' pattern.graph
  subject : IsPlace p.subject 's' pattern.subject
  predicate : IsPlace p.predicate 'p' pattern.predicate
  object : IsPlace p.object 'o' pattern.object

/-- The given nodes, and the statement's own in the other places. -/
def fill (p q : Statement) : Statement :=
  let node (n n' : Node) := if n.isValid then n else n'
  ⟨node p.subject q.subject, node p.predicate q.predicate, node p.object q.object, node p.context q.context⟩

theorem IsPlace.cases {n : Node} {c : Char} {p : Place} (h : IsPlace n c p) :
    (n.isValid = true ∧ ∃ t, p = .term t) ∨ (n.isValid = false ∧ p = .variable [c]) := by
  unfold IsPlace at h
  cases hValid : n.isValid with
  | true => exact .inl ⟨rfl, by simpa [hValid] using h⟩
  | false => exact .inr ⟨rfl, by simpa [hValid] using h⟩

/-- Two places are one term, if they are equal. -/
theorem IsPlace.rdf_eq {n n' m m' : Node} {c c' : Char} {p p' : Place} (h : IsPlace n c p) (h' : IsPlace n' c' p')
    (hNe : c ≠ c') (hHolds : Holds p m) (hHolds' : Holds p' m') : p = p' → rdf m = rdf m' := by
  rintro rfl
  rcases h.cases with ⟨-, t, rfl⟩ | ⟨-, rfl⟩
  · exact (hHolds t rfl).trans (hHolds' t rfl).symm
  · rcases h'.cases with ⟨-, t, hEq⟩ | ⟨-, hEq⟩
    · cases hEq
    · cases hEq
      exact absurd rfl hNe

theorem fits_eq_true {pattern : Quad Place} {q : Statement} : fits pattern q = true ↔
    ∀ e ∈ places pattern q, Holds e.1 e.2 ∧ ∀ e' ∈ places pattern q, e'.1 = e.1 → rdf e'.2 = rdf e.2 := by
  rw [fits, List.all_eq_true]
  refine forall₂_congr fun e _ => ?_
  obtain ⟨p, n⟩ := e
  rw [Bool.and_eq_true, List.all_eq_true]
  refine and_congr ?_ (forall₂_congr fun e' _ => by simp [imp_iff_not_or])
  cases p <;> simp [Holds]

theorem fits_iff {p : Statement} {pattern : Quad Place} (h : IsPattern p pattern) (q : Statement) :
    fits pattern q = true ↔ Holds pattern.graph q.context ∧ Holds pattern.subject q.subject ∧
      Holds pattern.predicate q.predicate ∧ Holds pattern.object q.object := by
  rw [fits_eq_true]
  constructor
  · intro hAll
    exact ⟨(hAll (pattern.graph, q.context) (by simp [places])).1,
      (hAll (pattern.subject, q.subject) (by simp [places])).1,
      (hAll (pattern.predicate, q.predicate) (by simp [places])).1,
      (hAll (pattern.object, q.object) (by simp [places])).1⟩
  · rintro ⟨hG, hS, hP, hO⟩
    have hPairs : (places pattern q).Pairwise fun e e' => e.1 = e'.1 → rdf e.2 = rdf e'.2 := by
      simp only [places, List.pairwise_cons, List.mem_cons, List.not_mem_nil, or_false, forall_eq_or_imp, forall_eq]
      exact ⟨⟨h.graph.rdf_eq h.subject (by decide) hG hS, h.graph.rdf_eq h.predicate (by decide) hG hP,
          h.graph.rdf_eq h.object (by decide) hG hO⟩,
        ⟨h.subject.rdf_eq h.predicate (by decide) hS hP, h.subject.rdf_eq h.object (by decide) hS hO⟩,
        h.predicate.rdf_eq h.object (by decide) hP hO, nofun, .nil⟩
    have hHolds : ∀ e ∈ places pattern q, Holds e.1 e.2 := by
      simp only [places, List.mem_cons, List.not_mem_nil, or_false, forall_eq_or_imp, forall_eq]
      exact ⟨hG, hS, hP, hO⟩
    have : Std.Symm fun e e' : Place × Node => e.1 = e'.1 → rdf e.2 = rdf e'.2 :=
      ⟨fun _ _ hRel hEq => (hRel hEq.symm).symm⟩
    exact fun e he => ⟨hHolds e he, fun e' he' hEq =>
      List.Pairwise.forall_of_forall (fun _ _ _ => rfl) hPairs he' he hEq⟩

theorem construct_bindings {p : Statement} {pattern : Quad Place} (h : IsPattern p pattern) (q : Statement) :
    construct p (bindingNames p) (bindings pattern q) = fill p q := by
  obtain ⟨g, s, pr, o⟩ := pattern
  obtain ⟨hG, hS, hP, hO⟩ := h
  dsimp only at hG hS hP hO
  rcases hG.cases with ⟨vg, tg, rfl⟩ | ⟨vg, rfl⟩ <;> rcases hS.cases with ⟨vs, ts, rfl⟩ | ⟨vs, rfl⟩ <;>
    rcases hP.cases with ⟨vp, tp, rfl⟩ | ⟨vp, rfl⟩ <;> rcases hO.cases with ⟨vo, t, rfl⟩ | ⟨vo, rfl⟩ <;>
    simp [construct, bindingNames, bindings, places, fill, BindingSet.value, vg, vs, vp, vo, List.lookup_cons]

/-! ### What a pattern without blank nodes selects -/

/-- A wildcard takes any node, a given one what it denotes. -/
def Part (history : List LiteralValue) (n n' : Node) : Prop := n.isValid = false ∨ Denotes history n n'

theorem snd_nodeText_iri {history : List LiteralValue} {n : Node} {c : Char} {p : Place} (h : iriPlace n c = some p)
    (varText : QString) : (nodeText history n varText).2 = history := by
  rw [snd_nodeText]
  cases n with
  | empty | resource => exact List.append_nil history
  | _ => cases h

theorem isPlace_iriPlace {n : Node} {c : Char} {p : Place} (h : iriPlace n c = some p) : IsPlace n c p := by
  cases n with
  | empty => exact (Option.some.inj h).symm
  | resource u hu => exact ⟨_, (Option.some.inj h).symm⟩
  | _ => cases h

theorem holds_iriPlace (history : List LiteralValue) {n n' : Node} {c : Char} {p : Place}
    (h : iriPlace n c = some p) : Holds p n' ↔ Part history n n' := by
  cases n with
  | empty =>
    cases h
    exact ⟨fun _ => .inl rfl, fun _ _ => nofun⟩
  | resource u hu =>
    cases h
    constructor
    · exact fun hHolds => .inr ((denotes_resource hu).mpr (hHolds _ rfl))
    · rintro (hValid | hDenotes) t hEq
      · cases hValid
      · cases hEq
        exact (denotes_resource hu).mp hDenotes
  | _ => cases h

/-- A literal denotes no resource and no blank node. -/
theorem not_denotes_literal {history : List LiteralValue} {value : LiteralValue} {hValue : value.isValid = true}
    {n : Node} (hNode : n.isLiteral = false) : ¬ Denotes history (.literal value hValue) n := by
  rintro ⟨t, hRead, hRdf⟩
  obtain ⟨text, hText⟩ := exists_toN3_literal (N3.typeHashAfter history) value hValue
  rw [hText] at hRead
  have hNoIri := of_readTermFrom_quote (readsPlace_term (.inr rfl) hRead).2.run
  cases n with
  | literal => cases hNode
  | resource u hu => exact hNoIri _ (Value.term.inj hRdf).symm
  | _ => cases hRdf

/-- Where an IRI is wanted, other nodes are no part of a stored statement. -/
theorem not_part {history : List LiteralValue} {n n' : Node} {c : Char} (h : iriPlace n c = none)
    (hNode : n'.isLiteral = false) : ¬ Part history n n' := by
  rintro (hValid | hDenotes)
  · cases n with
    | empty => cases h
    | _ => cases hValid
  · cases n with
    | literal => exact not_denotes_literal hNode hDenotes
    | blank => exact not_denotes_blank _ hDenotes
    | _ => cases h

theorem stored_nodes {q : Statement} (hq : q ∈ m.store.statements) :
    q.context.isLiteral = false ∧ q.subject.isLiteral = false ∧ q.predicate.isLiteral = false := by
  have hNamed := m.store.named q hq
  obtain ⟨hSubject, hPredicate, -⟩ := Virtuoso.isLiteral_of_isValid (m.store.valid q hq)
  refine ⟨?_, hSubject, hPredicate⟩
  cases hContext : q.context with
  | literal =>
    rw [hContext] at hNamed
    cases hNamed
  | _ => rfl

theorem readPattern_none_graph {history : List LiteralValue} {p : Statement} (h : iriPlace p.context 'g' = none) :
    readPattern history p = none := by
  refine Option.eq_none_iff_forall_ne_some.mpr fun pattern hPattern => ?_
  obtain ⟨_, hGraph⟩ := of_readGraph (readPattern_iff.mp hPattern)
  have hNone := readVarOrIri_none history h (tripleText (texts history p) ++ " \x7d".toList)
  rw [show (texts history p).graph = (nodeText history p.context ['?', 'g']).1 from rfl] at hGraph
  rw [hGraph] at hNone
  cases hNone

theorem readPattern_none_predicate {history : List LiteralValue} {p : Statement} {g s : Place}
    (hG : iriPlace p.context 'g' = some g) (hS : iriPlace p.subject 's' = some s)
    (h : iriPlace p.predicate 'p' = none) : readPattern history p = none := by
  refine Option.eq_none_iff_forall_ne_some.mpr fun pattern hPattern => ?_
  have hRead := readPattern_iff.mp hPattern
  have hGraph : ReadsPlace readVarOrIri (texts history p).graph g :=
    (readsPlace_iriPlace history (by decide) (by decide) hG).1
  have hSubject : ReadsPlace readVarOrTerm (texts history p).subject s :=
    (readsPlace_iriPlace _ (by decide) (by decide) hS).2
  rw [readGraph_of_graph hGraph, readTriple_of_subject hSubject] at hRead
  obtain ⟨_, _, hPredicate, -⟩ := exists_of_bind hRead
  have hNone := readVarOrIri_none (nodeText (nodeText history p.context "?g".toList).2 p.subject "?s".toList).2 h
    (objectText (texts history p) ++ " \x7d".toList)
  rw [show (nodeText (nodeText (nodeText history p.context "?g".toList).2 p.subject "?s".toList).2 p.predicate
    ['?', 'p']).1 = (texts history p).predicate from rfl, hPredicate] at hNone
  cases hNone

/-- Nodes that take their places leave the object to decide. -/
theorem readPattern_iff_object {history : List LiteralValue} {p : Statement} {g s pr : Place}
    (hG : iriPlace p.context 'g' = some g) (hS : iriPlace p.subject 's' = some s)
    (hP : iriPlace p.predicate 'p' = some pr) {pattern : Quad Place} :
    readPattern history p = some pattern ↔
      ∃ o, ReadsPlace readVarOrTerm (nodeText history p.object "?o".toList).1 o ∧ pattern = ⟨g, s, pr, o⟩ := by
  have hGraph : ReadsPlace readVarOrIri (texts history p).graph g :=
    (readsPlace_iriPlace history (by decide) (by decide) hG).1
  have hSubject : ReadsPlace readVarOrTerm (texts history p).subject s :=
    (readsPlace_iriPlace _ (by decide) (by decide) hS).2
  have hPredicate : ReadsPlace readVarOrIri (texts history p).predicate pr :=
    (readsPlace_iriPlace _ (by decide) (by decide) hP).1
  rw [readPattern_iff, readGraph_iff local_readVarOrTerm hGraph hSubject hPredicate]
  have hObject : (texts history p).object = (nodeText history p.object "?o".toList).1 := by
    simp only [texts, snd_nodeText_iri hG, snd_nodeText_iri hS, snd_nodeText_iri hP]
  rw [hObject]

/-- The object that a pattern has, if it is read. -/
theorem readsPlace_objectText (history : List LiteralValue) {n : Node} (hBlank : n.isBlank = false) {o : Place} :
    ReadsPlace readVarOrTerm (nodeText history n "?o".toList).1 o →
      IsPlace n 'o' o ∧ ∀ n', Holds o n' ↔ Part history n n' := by
  intro h
  cases hValid : n.isValid with
  | false =>
    have hText : (nodeText history n "?o".toList).1 = ['?', 'o'] := by
      rw [nodeText, hValid, if_neg Bool.false_ne_true]
      rfl
    rw [hText] at h
    have hVariable : ReadsPlace readVarOrTerm ['?', 'o'] (.variable ['o']) :=
      (readsPlace_variable (by decide) (by decide)).2
    obtain rfl := (Reads.unique h hVariable (congrArg (· ++ []) rfl)).1
    exact ⟨by simp [IsPlace, hValid], fun n' => ⟨fun _ => .inl hValid, fun _ _ => nofun⟩⟩
  | true =>
    obtain ⟨t, rfl, hRead⟩ := ((readsPlace_object history hValid hBlank "?o".toList).1 o).mp h
    refine ⟨by simp [IsPlace, hValid], fun n' => ⟨fun hHolds => .inr ⟨t, hRead, hHolds t rfl⟩, ?_⟩⟩
    rintro (hEmpty | ⟨t', hRead', hRdf⟩) t'' hEq
    · rw [hValid] at hEmpty
      cases hEmpty
    · cases hEq
      rw [hRead] at hRead'
      cases hRead'
      exact hRdf

/-- An object that is part of a statement is read. -/
theorem exists_readsPlace (history : List LiteralValue) {n n' : Node} (hBlank : n.isBlank = false)
    (h : Part history n n') : ∃ o, ReadsPlace readVarOrTerm (nodeText history n "?o".toList).1 o := by
  cases hValid : n.isValid with
  | false =>
    have hText : (nodeText history n "?o".toList).1 = ['?', 'o'] := by
      rw [nodeText, hValid, if_neg Bool.false_ne_true]
      rfl
    rw [hText]
    exact ⟨_, (readsPlace_variable (by decide) (by decide)).2⟩
  | true =>
    obtain ⟨t, hRead, -⟩ := h.resolve_left (by simp [hValid])
    exact ⟨_, ((readsPlace_object history hValid hBlank "?o".toList).1 _).mpr ⟨t, rfl, hRead⟩⟩

/-- A literal is read as itself where the subject stands. -/
theorem subject_of_readPattern {history : List LiteralValue} {p : Statement} {g : Place}
    (hG : iriPlace p.context 'g' = some g) (hLiteral : p.subject.isLiteral = true) {pattern : Quad Place}
    (h : readPattern history p = some pattern) : ∃ t, pattern.subject = .term t ∧ ∀ u, t ≠ .iri u := by
  have hRead := readPattern_iff.mp h
  have hGraph : ReadsPlace readVarOrIri (texts history p).graph g :=
    (readsPlace_iriPlace history (by decide) (by decide) hG).1
  rw [readGraph_of_graph hGraph] at hRead
  obtain ⟨_, hTerm⟩ := subject_of_readTriple hRead
  cases hNode : p.subject with
  | literal value hValue =>
    obtain ⟨text, hText⟩ := exists_toN3_literal
      (N3.typeHashAfter (nodeText history p.context "?g".toList).2) value hValue
    have hSubject : (texts history p).subject = '"' :: text := by
      rw [← hText, show (texts history p).subject =
        (nodeText (nodeText history p.context "?g".toList).2 p.subject "?s".toList).1 from rfl, hNode]
      rfl
    rw [hSubject] at hTerm
    exact readVarOrTerm_quote hTerm
  | _ =>
    rw [hNode] at hLiteral
    cases hLiteral

/-- No stored statement has a literal as its subject. -/
theorem selected_literal_subject {p q : Statement} {g : Place} (hG : iriPlace p.context 'g' = some g)
    (hLiteral : p.subject.isLiteral = true) (hq : q ∈ m.store.statements) : m.selected p q = false := by
  refine Bool.eq_false_iff.mpr fun hSelected => ?_
  rw [selected_eq, Option.any_eq_true] at hSelected
  obtain ⟨pattern, hPattern, hFits⟩ := hSelected
  obtain ⟨t, hTerm, hNoIri⟩ := subject_of_readPattern hG hLiteral hPattern
  have hRdf := (fits_eq_true.mp hFits (pattern.subject, q.subject) (by simp [places])).1 t hTerm
  have hNode := (m.stored_nodes hq).2.1
  dsimp only at hRdf
  cases hSubject : q.subject with
  | literal =>
    rw [hSubject] at hNode
    cases hNode
  | resource u hu =>
    rw [hSubject] at hRdf
    exact hNoIri _ (Value.term.inj hRdf).symm
  | _ =>
    rw [hSubject] at hRdf
    cases hRdf

/-- What a pattern without blank nodes selects, and what is made of it. -/
theorem selected_iff {p q : Statement} (hSubject : p.subject.isBlank = false) (hObject : p.object.isBlank = false)
    (hq : q ∈ m.store.statements) :
    (m.selected p q = true ↔ Part m.history p.context q.context ∧ Part m.history p.subject q.subject ∧
      Part m.history p.predicate q.predicate ∧ Part m.history p.object q.object) ∧
    (m.selected p q = true → construct p (bindingNames p) (m.row p q) = fill p q) := by
  obtain ⟨hContextNode, hSubjectNode, hPredicateNode⟩ := m.stored_nodes hq
  cases hG : iriPlace p.context 'g' with
  | none =>
    rw [selected_eq, readPattern_none_graph hG]
    exact ⟨iff_of_false nofun fun h => not_part hG hContextNode h.1, nofun⟩
  | some g =>
    cases hS : iriPlace p.subject 's' with
    | none =>
      have hLiteral : p.subject.isLiteral = true := by
        cases hNode : p.subject with
        | literal => rfl
        | blank =>
          rw [hNode] at hSubject
          cases hSubject
        | _ =>
          rw [hNode] at hS
          cases hS
      rw [m.selected_literal_subject hG hLiteral hq]
      exact ⟨iff_of_false nofun fun h => not_part hS hSubjectNode h.2.1, nofun⟩
    | some s =>
      rw [selected_eq]
      cases hP : iriPlace p.predicate 'p' with
      | none =>
        rw [readPattern_none_predicate hG hS hP]
        exact ⟨iff_of_false nofun fun h => not_part hP hPredicateNode h.2.2.1, nofun⟩
      | some pr =>
        by_cases hRead : ∃ o, ReadsPlace readVarOrTerm (nodeText m.history p.object "?o".toList).1 o
        · obtain ⟨o, ho⟩ := hRead
          have hPattern : readPattern m.history p = some ⟨g, s, pr, o⟩ :=
            (readPattern_iff_object hG hS hP).mpr ⟨o, ho, rfl⟩
          obtain ⟨hPlace, hHolds⟩ := readsPlace_objectText m.history hObject ho
          have hIs : IsPattern p ⟨g, s, pr, o⟩ :=
            ⟨isPlace_iriPlace hG, isPlace_iriPlace hS, isPlace_iriPlace hP, hPlace⟩
          rw [row, hPattern, Option.any_some, fits_iff hIs, holds_iriPlace m.history hG, holds_iriPlace m.history hS,
            holds_iriPlace m.history hP, hHolds]
          exact ⟨Iff.rfl, fun _ => construct_bindings hIs q⟩
        · have hPattern : readPattern m.history p = none := by
            refine Option.eq_none_iff_forall_ne_some.mpr fun pattern hPattern => ?_
            obtain ⟨o, ho, -⟩ := (readPattern_iff_object hG hS hP).mp hPattern
            exact hRead ⟨o, ho⟩
          rw [hPattern]
          exact ⟨iff_of_false nofun fun h => hRead (exists_readsPlace m.history hObject h.2.2.2), nofun⟩

end SparqlModel

end Qt

end Client

end Soprano
