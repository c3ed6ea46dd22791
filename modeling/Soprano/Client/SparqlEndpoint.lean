import Soprano.Inference.Sparql
import Soprano.Virtuoso.SameQuad

/-! The statements in the named graphs of an endpoint, and its answers to the requests of `SparqlModel`, which
SPARQL defines: a blank node of a pattern is a variable, and data that is deleted has no blank nodes. -/

namespace Soprano

namespace Client

namespace SparqlEndpoint

open Codec
open Virtuoso (Term Quad TermText)

/-- What stands at a place of a stored quad. -/
inductive Value where
  | term (t : Term)
  | blank (label : QString)
deriving DecidableEq

/-- What stands at a place of a pattern. -/
inductive Place where
  | term (t : Term)
  | variable (name : QString)
  | blank (label : QString)
deriving DecidableEq

/-! ### The grammar -/

/-- `BLANK_NODE_LABEL`, behind its sign. -/
def isLabel (s : QString) : Bool :=
  s.head?.any Inference.Sparql.isNameStart &&
    s.all (fun c => Inference.Sparql.isNameChar c || c == '-' || c == '.') && s.getLast? != some '.'

/-- A variable, behind its question mark. -/
def readVariable : Reader Char Place := do
  let name ← through ' '
  require (Inference.Sparql.isName name)
  pure (.variable name)

/-- A blank node, behind its first sign. -/
def readBlank : Reader Char Place := do
  expect ':'
  let label ← through ' '
  require (isLabel label)
  pure (.blank label)

/-- An IRI that starts with the symbol `c`, and the space behind it. -/
def readIriFrom (c : Char) : Reader Char Term := do
  require (c = '<')
  let text ← Virtuoso.Sparul.readIri
  expect ' '
  pure (.iri text)

def writtenTerm : TermText → Reader Char Term
  | .term t => pure t
  | .parameter => fun input => (none, input)

/-- An IRI or a literal that starts with the symbol `c`, and the space behind it. -/
def readTermFrom (c : Char) : Reader Char Term := do
  require (c = '<' || c = '"')
  let t ← Virtuoso.Sparul.readTermFrom c
  writtenTerm t

/-- `VarOrIri`, and the space behind it. -/
def readVarOrIri : Reader Char Place := do
  let c ← symbol
  if c = '?' then readVariable
  else do
    let t ← readIriFrom c
    pure (.term t)

/-- `VarOrTerm`, and the space behind it. -/
def readVarOrTerm : Reader Char Place := do
  let c ← symbol
  if c = '?' then readVariable
  else if c = '_' then readBlank
  else do
    let t ← readTermFrom c
    pure (.term t)

def readIri : Reader Char Term := do
  let c ← symbol
  readIriFrom c

def readTerm : Reader Char Term := do
  let c ← symbol
  readTermFrom c

/-- The object and what closes the graph. -/
def readObject {α : Type} (term : Reader Char α) (graph subject predicate : α) : Reader Char (Quad α) := do
  let object ← term
  word "\x7d".toList
  pure ⟨graph, subject, predicate, object⟩

/-- The triple in a graph, with readers for its places. -/
def readTriple {α : Type} (iri term : Reader Char α) (graph : α) : Reader Char (Quad α) := do
  word "\x7b ".toList
  let subject ← term
  let predicate ← iri
  readObject term graph subject predicate

def readGraph {α : Type} (iri term : Reader Char α) : Reader Char (Quad α) := do
  word "graph ".toList
  let graph ← iri
  readTriple iri term graph

/-- A value, and what stands at the end. -/
def closed {α : Type} (r : Reader Char α) (closing : QString) : Reader Char α := do
  let a ← r
  word closing
  pure a

/-- The pattern of a query that starts so. -/
def readQuery (head : QString) : Reader Char (Quad Place) := do
  word head
  closed (readGraph readVarOrIri readVarOrTerm) " \x7d".toList

def readDelete : Reader Char (Quad Term) := do
  word "delete from ".toList
  readGraph readIri readTerm

/-- What a reader makes of a whole text. -/
def complete {α : Type} (r : Reader Char α) (text : QString) : Option α :=
  match r text with
  | (some a, []) => some a
  | _ => none

def selectHead : QString := "select * where \x7b ".toList

def askHead : QString := "ask \x7b ".toList

/-! ### The statements -/

section Qt

variable [Qt]

/-- The value that a node stands for; an empty one stands for none. -/
def rdf : Node → Value
  | .resource u _ => .term (.iri u.encoded)
  | .literal (.plain text lang) _ =>
    .term (if lang.isEmpty then .plain text else .lang text lang.toString)
  | .literal (.typed v u _) _ => .term (.typed (LiteralValue.text v) u.encoded)
  | .blank id _ => .blank id
  | _ => .blank []

def quad (s : Statement) : Quad Value := ⟨rdf s.context, rdf s.subject, rdf s.predicate, rdf s.object⟩

/-- The statements of an endpoint, all of which are in named graphs. -/
structure Store where
  statements : List Statement
  valid : ∀ q ∈ statements, q.isValid = true
  named : ∀ q ∈ statements, q.context.isResource = true
  distinct : statements.Pairwise fun q r => quad q ≠ quad r

/-- The places of a pattern, with the nodes that a statement has there. -/
def places (pattern : Quad Place) (q : Statement) : List (Place × Node) :=
  [(pattern.graph, q.context), (pattern.subject, q.subject), (pattern.predicate, q.predicate),
    (pattern.object, q.object)]

/-- The statement is a solution of the pattern: a term stands for itself, a variable or a blank node has one
value. -/
def fits (pattern : Quad Place) (q : Statement) : Bool :=
  (places pattern q).all fun (p, n) =>
    (match p with
      | .term t => rdf n = .term t
      | _ => true) &&
    (places pattern q).all fun (p', n') => p' ≠ p || rdf n' = rdf n

/-- The values of the variables. -/
def bindings (pattern : Quad Place) (q : Statement) : BindingSet :=
  ⟨(places pattern q).filterMap fun (p, n) =>
    match p with
    | .variable name => some (name, n)
    | _ => none⟩

namespace Store

variable (store : Store)

/-- The solutions, if the query is one. -/
def select (query : QString) : Option (List BindingSet) :=
  (complete (readQuery selectHead) query).map fun pattern =>
    (store.statements.filter (fits pattern)).map (bindings pattern)

def ask (query : QString) : Option Bool :=
  (complete (readQuery askHead) query).map fun pattern => store.statements.any (fits pattern)

/-- The statements but for one quad. -/
def erase (r : Quad Term) : Store where
  statements := store.statements.filter fun q =>
    quad q ≠ ⟨.term r.graph, .term r.subject, .term r.predicate, .term r.object⟩
  valid q hq := store.valid q (List.mem_filter.mp hq).1
  named q hq := store.named q (List.mem_filter.mp hq).1
  distinct := store.distinct.filter _

def delete (request : QString) : Option Store := (complete readDelete request).map store.erase

end Store

end Qt

/-! ### Texts -/

theorem complete_eq_some {α : Type} {r : Reader Char α} {text : QString} {a : α} :
    complete r text = some a ↔ r text = (some a, []) := by
  unfold complete
  constructor
  · intro h
    split at h
    · rename_i hRun
      rw [hRun, Option.some.inj h]
    · cases h
  · intro h
    rw [h]

def objectText (texts : Quad QString) : QString := texts.object ++ [' '] ++ "\x7d".toList

def tripleText (texts : Quad QString) : QString :=
  "\x7b ".toList ++ (texts.subject ++ [' '] ++ (texts.predicate ++ [' '] ++ objectText texts))

/-- The text of a triple in a graph, from the texts of its nodes. -/
def graphText (texts : Quad QString) : QString := "graph ".toList ++ (texts.graph ++ [' '] ++ tripleText texts)

/-- A node's text is read as something, whatever follows its space. -/
abbrev ReadsPlace {α : Type} (r : Reader Char α) (text : QString) (a : α) : Prop := Reads r (text ++ [' ']) a

theorem readsPlace_variable {c : Char} (h : Inference.Sparql.isName [c] = true) (hSpace : c ≠ ' ') :
    ReadsPlace readVarOrIri ['?', c] (.variable [c]) ∧ ReadsPlace readVarOrTerm ['?', c] (.variable [c]) := by
  have hName : Reads readVariable ([c] ++ [' '] ++ []) (.variable [c]) :=
    (Reads.through (by simpa using hSpace.symm)).bind (Reads.bind_require h (Reads.pure _))
  exact ⟨(Reads.symbol '?').bind hName, (Reads.symbol '?').bind hName⟩

theorem readsPlace_iri {u : QString} (h : u.all Virtuoso.Sparul.isIriChar = true) :
    ReadsPlace readVarOrIri ('<' :: (u ++ ['>'])) (.term (.iri u)) ∧
      ReadsPlace readIri ('<' :: (u ++ ['>'])) (.iri u) := by
  have hFrom : Reads (readIriFrom '<') (u ++ ['>'] ++ [' ']) (.iri u) :=
    Reads.bind_require rfl ((Virtuoso.Sparul.reads_iri h).bind (Reads.expect ' ').bind_pure)
  exact ⟨(Reads.symbol '<').bind hFrom.bind_pure, (Reads.symbol '<').bind hFrom⟩

theorem readsPlace_term {c : Char} {text : QString} {t : Term} (hc : c = '<' ∨ c = '"')
    (h : Virtuoso.Sparul.readText (c :: text) = some (.term t)) :
    ReadsPlace readVarOrTerm (c :: text) (.term t) ∧ ReadsPlace readTerm (c :: text) t := by
  have hFrom : Reads (Virtuoso.Sparul.readTermFrom c) (text ++ [' ']) (.term t) := fun rest =>
    Virtuoso.Sparul.readText_eq_some.mp h rest
  have hWritten : Reads (Virtuoso.Sparul.readTermFrom c >>= writtenTerm) (text ++ [' '] ++ []) t :=
    hFrom.bind (Reads.pure t)
  rw [List.append_nil] at hWritten
  have hTerm : Reads (readTermFrom c) (text ++ [' ']) t := Reads.bind_require (by simpa using hc) hWritten
  refine ⟨?_, (Reads.symbol c).bind hTerm⟩
  rcases hc with rfl | rfl
  · exact (Reads.symbol '<').bind hTerm.bind_pure
  · exact (Reads.symbol '"').bind hTerm.bind_pure

/-! ### What is not read -/

/-- Where an IRI is wanted, a blank node and a literal are refused. -/
theorem readVarOrIri_refuses {c : Char} (hMark : c ≠ '?') (hOpen : c ≠ '<') (rest : QString) :
    (readVarOrIri (c :: rest)).1 = none := by
  simp [readVarOrIri, readIriFrom, symbol, require, bind, hMark, hOpen]

theorem readTerm_refuses {c : Char} (hQuote : c ≠ '"') (hOpen : c ≠ '<') (rest : QString) :
    (readTerm (c :: rest)).1 = none := by
  simp [readTerm, readTermFrom, symbol, require, bind, hQuote, hOpen]

/-- Behind a quote stands no IRI. -/
theorem of_readTermFrom_quote {input rest : QString} {t : Term} (h : readTermFrom '"' input = (some t, rest)) :
    ∀ u, t ≠ .iri u := by
  obtain ⟨⟨⟩, _, hRequire, hTerm⟩ := exists_of_bind h
  obtain ⟨written, _, hFrom, hWritten⟩ := exists_of_bind hTerm
  obtain ⟨literal, _, hLiteral, hPure⟩ := exists_of_bind (r := Virtuoso.Sparul.readLiteral) hFrom
  cases hPure
  cases hWritten
  obtain ⟨text, _, -, hSymbol⟩ := exists_of_bind hLiteral
  obtain ⟨c, _, -, hSuffix⟩ := exists_of_bind hSymbol
  unfold Virtuoso.Sparul.readSuffix at hSuffix
  intro u hIri
  split at hSuffix
  · cases hSuffix
    cases hIri
  · split at hSuffix
    · obtain ⟨_, _, -, hRest⟩ := exists_of_bind hSuffix
      obtain ⟨_, _, -, hPure⟩ := exists_of_bind hRest
      cases hPure
      cases hIri
    · obtain ⟨_, _, -, hRest⟩ := exists_of_bind hSuffix
      obtain ⟨_, _, -, hRest⟩ := exists_of_bind hRest
      obtain ⟨_, _, -, hRest⟩ := exists_of_bind hRest
      obtain ⟨_, _, -, hPure⟩ := exists_of_bind hRest
      cases hPure
      cases hIri

theorem readVarOrTerm_quote {input rest : QString} {p : Place} (h : readVarOrTerm ('"' :: input) = (some p, rest)) :
    ∃ t, p = .term t ∧ ∀ u, t ≠ .iri u := by
  obtain ⟨t, _, hFrom, hPure⟩ := exists_of_bind (r := readTermFrom '"') h
  cases hPure
  exact ⟨t, rfl, of_readTermFrom_quote hFrom⟩

/-! ### Readers are local -/

theorem local_readVariable : Local readVariable :=
  (Local.through _).bind fun _ => (Local.require _).bind fun _ => .pure _

theorem local_readBlank : Local readBlank :=
  (Local.expect _).bind fun _ => (Local.through _).bind fun _ => (Local.require _).bind fun _ => .pure _

theorem local_readTermFrom (c : Char) : Local (readTermFrom c) := by
  refine (Local.require _).bind fun _ => Local.bind (fun input a rest h => ?_) fun t => ?_
  · -- the symbol is read before
    obtain ⟨w, hSplit, hRead⟩ := Virtuoso.Sparul.local_readTerm (c :: input) a rest h
    cases w with
    | nil => cases hRead []
    | cons d w =>
      obtain ⟨rfl, rfl⟩ := List.cons.inj hSplit
      exact ⟨w, rfl, fun rest => hRead rest⟩
  · cases t with
    | term t => exact .pure t
    | parameter => exact fun _ _ _ h => by cases h

theorem local_readTerm : Local readTerm := Local.symbol.bind local_readTermFrom

theorem local_readVarOrTerm : Local readVarOrTerm :=
  Local.symbol.bind fun c => .ite local_readVariable (.ite local_readBlank ((local_readTermFrom c).bind fun _ => .pure _))

/-- A node's text that is read as a term stands for it. -/
theorem readText_of_readTerm {c : Char} {text : QString} {t : Term} (h : ReadsPlace readTerm (c :: text) t) :
    Virtuoso.Sparul.readText (c :: text) = some (.term t) := by
  have hFrom : readTermFrom c (text ++ [' ']) = (some t, []) := h.run
  obtain ⟨⟨⟩, middle, hRequire, hTerm⟩ := exists_of_bind hFrom
  have hMiddle : middle = text ++ [' '] := by
    unfold require at hRequire
    exact (Prod.mk.inj hRequire).2.symm
  subst hMiddle
  obtain ⟨written, _, hRead, hWritten⟩ := exists_of_bind hTerm
  cases written with
  | term t' =>
    cases hWritten
    unfold Virtuoso.Sparul.readText
    rw [show Virtuoso.Sparul.readTerm (c :: text ++ [' ']) = (some (.term t), []) from hRead]
  | parameter => cases hWritten

theorem readTerm_of_readVarOrTerm {c : Char} (hMark : c ≠ '?') (hBlank : c ≠ '_') {text : QString} {p : Place}
    (h : ReadsPlace readVarOrTerm (c :: text) p) : ∃ t, p = .term t ∧ ReadsPlace readTerm (c :: text) t := by
  have hRun : (readTermFrom c >>= fun t => (pure (.term t) : Reader Char Place)) (text ++ [' ']) = (some p, []) := by
    have := h.run
    simpa [readVarOrTerm, symbol, bind, hMark, hBlank] using this
  obtain ⟨t, _, hFrom, hPure⟩ := exists_of_bind hRun
  cases hPure
  exact ⟨t, rfl, (Reads.symbol c).bind ((local_readTermFrom c).reads hFrom)⟩

theorem readsPlace_blank {id : QString} (h : isLabel id = true) (hSpace : ' ' ∉ id) :
    ReadsPlace readVarOrTerm ('_' :: ':' :: id) (.blank id) := by
  have hLabel : Reads readBlank ([':'] ++ (id ++ [' '] ++ [])) (.blank id) :=
    (Reads.expect ':').bind ((Reads.through hSpace).bind (Reads.bind_require h (Reads.pure _)))
  rw [List.append_nil] at hLabel
  exact (Reads.symbol '_').bind hLabel

/-! ### Whole requests -/

section Graph

variable {α : Type} {iri term : Reader Char α} {texts : Quad QString} {g s p : α}

theorem readGraph_of_graph (hG : ReadsPlace iri texts.graph g) (rest : QString) :
    readGraph iri term (graphText texts ++ rest) = readTriple iri term g (tripleText texts ++ rest) := by
  rw [graphText, List.append_assoc, List.append_assoc, readGraph, bind_eq (Reads.word _ _), bind_eq (hG _)]

theorem tripleText_append (texts : Quad QString) (rest : QString) : tripleText texts ++ rest =
    "\x7b ".toList ++ (texts.subject ++ [' '] ++ (texts.predicate ++ [' '] ++ (objectText texts ++ rest))) := by
  rw [tripleText, List.append_assoc, List.append_assoc (texts.subject ++ [' ']), List.append_assoc (texts.predicate ++ [' '])]

theorem readTriple_of_subject (hS : ReadsPlace term texts.subject s) (rest : QString) :
    readTriple iri term g (tripleText texts ++ rest) =
      (do
        let predicate ← iri
        readObject term g s predicate) (texts.predicate ++ [' '] ++ (objectText texts ++ rest)) := by
  rw [tripleText_append, readTriple, bind_eq (Reads.word _ _), bind_eq (hS _)]

theorem readObject_iff (hLocal : Local term) {rest : QString} {a : Quad α} :
    readObject term g s p (objectText texts ++ rest) = (some a, rest) ↔
      ∃ o, ReadsPlace term texts.object o ∧ a = ⟨g, s, p, o⟩ := by
  rw [objectText, List.append_assoc]
  constructor
  · intro h
    obtain ⟨o, middle, hTerm, hWord⟩ := exists_of_bind h
    obtain ⟨⟨⟩, _, hClose, hPure⟩ := exists_of_bind hWord
    cases hPure
    obtain rfl := Reads.eq_of_word hClose
    obtain ⟨w, hSplit, hRead⟩ := hLocal _ _ _ hTerm
    obtain rfl := List.append_cancel_right hSplit
    exact ⟨o, hRead, rfl⟩
  · rintro ⟨o, hO, rfl⟩
    rw [readObject, bind_eq (hO _), bind_eq (Reads.word _ _)]
    rfl

theorem graph_of_readTriple {input rest : QString} {a : Quad α} (h : readTriple iri term g input = (some a, rest)) :
    a.graph = g := by
  obtain ⟨_, _, -, h⟩ := exists_of_bind h
  obtain ⟨_, _, -, h⟩ := exists_of_bind h
  obtain ⟨_, _, -, h⟩ := exists_of_bind h
  obtain ⟨_, _, -, h⟩ := exists_of_bind h
  obtain ⟨_, _, -, h⟩ := exists_of_bind h
  cases h
  rfl

/-- The graph is read first. -/
theorem of_readGraph {rest rest' : QString} {a : Quad α}
    (h : readGraph iri term (graphText texts ++ rest) = (some a, rest')) :
    ∃ middle, iri (texts.graph ++ [' '] ++ (tripleText texts ++ rest)) = (some a.graph, middle) := by
  rw [graphText, List.append_assoc, List.append_assoc, readGraph, bind_eq (Reads.word _ _)] at h
  obtain ⟨g, middle, hGraph, hTriple⟩ := exists_of_bind h
  rw [graph_of_readTriple hTriple]
  exact ⟨middle, hGraph⟩

/-- Then the subject. -/
theorem subject_of_readTriple {rest rest' : QString} {a : Quad α}
    (h : readTriple iri term g (tripleText texts ++ rest) = (some a, rest')) :
    ∃ middle, term (texts.subject ++ [' '] ++ (texts.predicate ++ [' '] ++ (objectText texts ++ rest))) =
      (some a.subject, middle) := by
  rw [tripleText_append, readTriple, bind_eq (Reads.word _ _)] at h
  obtain ⟨s, middle, hSubject, h⟩ := exists_of_bind h
  obtain ⟨_, _, -, h⟩ := exists_of_bind h
  obtain ⟨_, _, -, h⟩ := exists_of_bind h
  obtain ⟨_, _, -, h⟩ := exists_of_bind h
  cases h
  exact ⟨middle, hSubject⟩

/-- Of a request with readable nodes before the object, the object decides. -/
theorem readGraph_iff (hLocal : Local term) (hG : ReadsPlace iri texts.graph g) (hS : ReadsPlace term texts.subject s)
    (hP : ReadsPlace iri texts.predicate p) {rest : QString} {a : Quad α} :
    readGraph iri term (graphText texts ++ rest) = (some a, rest) ↔
      ∃ o, ReadsPlace term texts.object o ∧ a = ⟨g, s, p, o⟩ := by
  rw [readGraph_of_graph hG, readTriple_of_subject hS, bind_eq (hP _), readObject_iff hLocal]

end Graph

theorem closed_iff {α : Type} {r : Reader Char α} {closing input : QString} {a : α} :
    closed r closing input = (some a, []) ↔ r input = (some a, closing) := by
  constructor
  · intro h
    obtain ⟨a', middle, hRead, hWord⟩ := exists_of_bind h
    obtain ⟨_, _, hClose, hPure⟩ := exists_of_bind hWord
    cases hPure
    have hMiddle := Reads.eq_of_word hClose
    rw [List.append_nil] at hMiddle
    rwa [hMiddle] at hRead
  · intro h
    rw [closed, bind_eq h, bind_eq (Reads.word closing).run]
    rfl

theorem complete_query_iff {head : QString} {texts : Quad QString} {pattern : Quad Place} :
    complete (readQuery head) (head ++ (graphText texts ++ " \x7d".toList)) = some pattern ↔
      readGraph readVarOrIri readVarOrTerm (graphText texts ++ " \x7d".toList) = (some pattern, " \x7d".toList) := by
  rw [complete_eq_some, readQuery, bind_eq (Reads.word _ _), closed_iff]

theorem complete_delete_iff {texts : Quad QString} {r : Quad Term} :
    complete readDelete ("delete from ".toList ++ graphText texts) = some r ↔
      readGraph readIri readTerm (graphText texts ++ []) = (some r, []) := by
  rw [complete_eq_some, readDelete, bind_eq (Reads.word _ _), List.append_nil]

end SparqlEndpoint

end Client

end Soprano
