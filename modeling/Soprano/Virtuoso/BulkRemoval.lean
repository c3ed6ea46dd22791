import Soprano.Library.Pattern
import Soprano.Virtuoso.DefaultGraph
import Soprano.Virtuoso.SameQuad

/-! What `removeAllStatements` leaves on a server: the requests about the quads of a pattern, as SPARUL defines
them, and the statements that the two ways of removing without a graph reach. -/

namespace Soprano

namespace Virtuoso

open Codec ODBC

/-- The values of a quad. -/
def Quad.tuple {α : Type} (q : Quad α) : List α := [q.graph, q.subject, q.predicate, q.object]

theorem Quad.tuple_injective {α : Type} {q q' : Quad α} (h : q.tuple = q'.tuple) : q = q' := by
  cases q
  cases q'
  simpa [Quad.tuple] using h

namespace Sparul

/-- A place of a pattern, with a variable of one letter. -/
abbrev Place : Type := Pattern.Place Char Term

/-- The requests about the quads of a pattern. -/
inductive Update where
  | clear (graph : Term)
  | delete (template pattern : Quad Place)
  | distinct (x : Char) (pattern : Quad Place) (y : Char) (hidden : Term)

/-! ### The grammar -/

def writtenPlace : TermText → Reader Char Place
  | .term t => pure (.value t)
  | .parameter => fun input => (none, input)

/-- A term or a variable, and the space behind it. -/
def readPlace : Reader Char Place := do
  let c ← symbol
  if c = '?' then do
    let x ← symbol
    expect ' '
    pure (.variable x)
  else do
    let t ← readTermFrom c
    writtenPlace t

/-- The triple of a graph, and what closes it. -/
def readTriple (graph : Place) (closing : QString) : Reader Char (Quad Place) := do
  word "\x7b ".toList
  let subject ← readPlace
  let predicate ← readPlace
  let object ← readPlace
  word closing
  pure ⟨graph, subject, predicate, object⟩

def readGraph : Reader Char (Quad Place) := do
  word "graph ".toList
  let graph ← readPlace
  readTriple graph ". \x7d".toList

/-- The graph of `clear`. -/
def readClear : Reader Char Update := do
  word "graph <".toList
  let graph ← readIri
  expect ' '
  pure (.clear (.iri graph))

/-- The graph, the triple and the pattern of `delete from`. -/
def readDeleteFrom : Reader Char Update := do
  let graph ← readPlace
  let template ← readTriple graph "\x7d where \x7b ".toList
  let pattern ← readGraph
  word " \x7d ".toList
  pure (.delete template pattern)

/-- The template and the pattern of `delete`. -/
def readDelete : Reader Char Update := do
  let template ← readGraph
  word " \x7d where \x7b ".toList
  let pattern ← readGraph
  word " \x7d ".toList
  pure (.delete template pattern)

/-- The variable, the pattern and the filter of a selection. -/
def readDistinct : Reader Char Update := do
  word "distinct ?".toList
  let x ← symbol
  word " where \x7b ".toList
  let pattern ← readGraph
  word " . FILTER(?".toList
  let y ← symbol
  word " != <".toList
  let hidden ← readIri
  word ") . \x7d ".toList
  pure (.distinct x pattern y (.iri hidden))

def readUpdate : Reader Char Update := do
  word "sparql ".toList
  let verb ← through ' '
  if verb = "clear".toList then readClear
  else if verb = "select".toList then readDistinct
  else do
    require (verb = "delete".toList)
    let next ← through ' '
    if next = "from".toList then readDeleteFrom
    else do
      require (next = "\x7b".toList)
      readDelete

/-- The request that a text stands for. -/
def parseUpdate (request : QString) : Option Update :=
  match readUpdate (request ++ [' ']) with
  | (some u, []) => some u
  | _ => none

/-! ### The meaning of a request -/

/-- The value of a variable where a quad solves a pattern, and the filter does not hide it. -/
def chosen (x : Char) (pattern : Quad Place) (y : Char) (hidden : Term) (q : Quad Term) : Option Term :=
  (Pattern.solve pattern.tuple q.tuple).bind fun μ =>
    (μ.lookup y).bind fun t => if t = hidden then none else μ.lookup x

/-- The quads behind a request. -/
def Update.effect (quads : Finset (Quad Term)) : Update → Finset (Quad Term)
  | .clear graph => quads.filter fun q => q.graph ≠ graph
  | .delete template pattern => quads.filter fun q =>
      ∀ q' ∈ quads, Pattern.result template.tuple pattern.tuple q'.tuple ≠ some q.tuple
  | .distinct _ _ _ _ => quads

/-- A row shows a term: IRIs are strings with a flag. -/
def Shows (t : Term) (row : Except Diagnostics (List Cell)) : Prop :=
  ∃ cell, row = .ok [cell] ∧ ∀ text, t = .iri text → cell.data = .ok text.toUtf8 ∧ cell.stmtAttr = .ok () ∧
    cell.dvType = .ok 182 ∧ ∃ flags, cell.boxFlags = .ok flags ∧ flags &&& 1 ≠ 0

/-- The result of a request. -/
def Update.Answers (quads : Finset (Quad Term)) (resultSet : ResultSet) : Update → Prop
  | .clear _ | .delete _ _ => True
  | .distinct x pattern y hidden => resultSet.columns.map Column.name = [[x]] ∧
      ∃ terms : List Term, terms.Nodup ∧
        (∀ t, t ∈ terms ↔ ∃ q ∈ quads, chosen x pattern y hidden q = some t) ∧
        List.Forall₂ Shows terms resultSet.rows

/-! ### What is read -/

section Reading

variable {texts : Quad QString} {places : Quad Place}

/-- A term that is written out is read as one. -/
theorem readsPlace_term {text : QString} {t : Term} (h : readText text = some (.term t)) :
    Reads readPlace (text ++ [' ']) (.value t) := by
  have hTerm := readText_eq_some.mp h
  cases text with
  | nil => cases hTerm.run
  | cons c text =>
    have hFrom : Reads (readTermFrom c) (text ++ [' ']) (.term t) := hTerm
    have hMark : c ≠ '?' := by
      rintro rfl
      cases hFrom.run
    have hWritten : Reads (readTermFrom c >>= writtenPlace) (text ++ [' '] ++ []) (.value t) :=
      hFrom.bind (Reads.pure _)
    rw [List.append_nil] at hWritten
    refine (Reads.symbol c).bind ?_
    rwa [if_neg hMark]

theorem readsPlace_variable (x : Char) : Reads readPlace (['?', x] ++ [' ']) (.variable x) := by
  have hName : Reads (do
      let x ← symbol
      expect ' '
      pure (Pattern.Place.variable x) : Reader Char Place) ([x] ++ [' ']) (.variable x) :=
    (Reads.symbol x).bind (Reads.expect ' ').bind_pure
  exact (Reads.symbol '?').bind hName

/-- The texts stand for the places. -/
structure ReadsPlaces (texts : Quad QString) (places : Quad Place) : Prop where
  graph : Reads readPlace (texts.graph ++ [' ']) places.graph
  subject : Reads readPlace (texts.subject ++ [' ']) places.subject
  predicate : Reads readPlace (texts.predicate ++ [' ']) places.predicate
  object : Reads readPlace (texts.object ++ [' ']) places.object

/-- The triple of a graph, from the texts of its places. -/
def tripleText (texts : Quad QString) (closing : QString) : QString :=
  "\x7b ".toList ++ (texts.subject ++ [' '] ++ (texts.predicate ++ [' '] ++ (texts.object ++ [' '] ++ closing)))

def patternText (texts : Quad QString) : QString :=
  "graph ".toList ++ (texts.graph ++ [' '] ++ tripleText texts ". \x7d".toList)

theorem ReadsPlaces.triple (h : ReadsPlaces texts places) (closing : QString) :
    Reads (readTriple places.graph closing) (tripleText texts closing) places :=
  (Reads.word _).bind (h.subject.bind (h.predicate.bind (h.object.bind (Reads.word closing).bind_pure)))

theorem ReadsPlaces.pattern (h : ReadsPlaces texts places) : Reads readGraph (patternText texts) places :=
  (Reads.word _).bind (h.graph.bind (h.triple _))

theorem parseUpdate_of_reads {request : QString} {u : Update} (h : Reads readUpdate (request ++ [' ']) u) :
    parseUpdate request = some u := by
  rw [parseUpdate, h.run]

theorem parse_clear {graph : QString} (h : graph.all isIriChar = true) :
    parseUpdate ("sparql clear graph <".toList ++ (graph ++ ['>'])) = some (.clear (.iri graph)) := by
  have hGraph : Reads readClear ("graph <".toList ++ (graph ++ ['>'] ++ [' '])) (.clear (.iri graph)) :=
    (Reads.word _).bind ((reads_iri h).bind (Reads.expect ' ').bind_pure)
  have hVerb : Reads (through ' ') ("clear".toList ++ [' ']) "clear".toList := Reads.through (by decide)
  apply parseUpdate_of_reads
  have hRead : Reads readUpdate _ _ := (Reads.word "sparql ".toList).bind (hVerb.bind hGraph)
  simpa using hRead

theorem parse_deleteFrom (h : ReadsPlaces texts places) :
    parseUpdate ("sparql delete from ".toList ++ (texts.graph ++ [' '] ++ (tripleText texts "\x7d where \x7b ".toList ++
      (patternText texts ++ " \x7d".toList)))) = some (.delete places places) := by
  have hRest : Reads readDeleteFrom (texts.graph ++ [' '] ++ (tripleText texts "\x7d where \x7b ".toList ++
      (patternText texts ++ " \x7d ".toList))) (.delete places places) :=
    h.graph.bind ((h.triple _).bind (h.pattern.bind (Reads.word _).bind_pure))
  have hVerb : Reads (through ' ') ("delete".toList ++ [' ']) "delete".toList := Reads.through (by decide)
  have hNext : Reads (through ' ') ("from".toList ++ [' ']) "from".toList := Reads.through (by decide)
  apply parseUpdate_of_reads
  have hRead : Reads readUpdate _ _ :=
    (Reads.word "sparql ".toList).bind (hVerb.bind (Reads.bind_require rfl (hNext.bind hRest)))
  simpa using hRead

theorem parse_delete (h : ReadsPlaces texts places) :
    parseUpdate ("sparql delete \x7b ".toList ++ (patternText texts ++ (" \x7d where \x7b ".toList ++
      (patternText texts ++ " \x7d".toList)))) = some (.delete places places) := by
  have hRest : Reads readDelete (patternText texts ++ (" \x7d where \x7b ".toList ++
      (patternText texts ++ " \x7d ".toList))) (.delete places places) :=
    h.pattern.bind ((Reads.word _).bind (h.pattern.bind (Reads.word _).bind_pure))
  have hVerb : Reads (through ' ') ("delete".toList ++ [' ']) "delete".toList := Reads.through (by decide)
  have hNext : Reads (through ' ') ("\x7b".toList ++ [' ']) "\x7b".toList := Reads.through (by decide)
  apply parseUpdate_of_reads
  have hRead : Reads readUpdate _ _ := (Reads.word "sparql ".toList).bind
    (hVerb.bind (Reads.bind_require rfl (hNext.bind (Reads.bind_require rfl hRest))))
  simpa using hRead

theorem parse_distinct (h : ReadsPlaces texts places) (x y : Char) {hidden : QString}
    (hHidden : hidden.all isIriChar = true) :
    parseUpdate ("sparql select distinct ?".toList ++ ([x] ++ (" where \x7b ".toList ++ (patternText texts ++
      (" . FILTER(?".toList ++ ([y] ++ (" != <".toList ++ (hidden ++ ['>'] ++ ") . \x7d".toList)))))))) =
      some (.distinct x places y (.iri hidden)) := by
  have hRest : Reads readDistinct ("distinct ?".toList ++ ([x] ++ (" where \x7b ".toList ++ (patternText texts ++
      (" . FILTER(?".toList ++ ([y] ++ (" != <".toList ++ (hidden ++ ['>'] ++ ") . \x7d ".toList))))))))
      (.distinct x places y (.iri hidden)) :=
    (Reads.word _).bind ((Reads.symbol x).bind ((Reads.word _).bind (h.pattern.bind ((Reads.word _).bind
      ((Reads.symbol y).bind ((Reads.word _).bind ((reads_iri hHidden).bind (Reads.word _).bind_pure)))))))
  have hVerb : Reads (through ' ') ("select".toList ++ [' ']) "select".toList := Reads.through (by decide)
  apply parseUpdate_of_reads
  have hRead : Reads readUpdate _ _ := (Reads.word "sparql ".toList).bind (hVerb.bind hRest)
  simpa using hRead

end Reading

section Qt

variable [Qt]

/-- The server behind the driver executes requests about the quads of a pattern as SPARUL defines them. -/
structure Executes {S : Type} (driver : Driver S) (quads : S → Finset (Quad Term)) : Prop where
  allocHandle : ∀ state, ∃ state', driver.allocHandle state = (.ok (), state') ∧
    quads state' = quads state
  execDirect : ∀ {request u} state, parseUpdate request = some u →
    ∃ resultSet state', driver.execDirect [] request.toUtf8 state = (.ok resultSet, state') ∧
      quads state' = u.effect (quads state) ∧ u.Answers (quads state) resultSet

/-- The row that shows a term. -/
def shown (t : Term) : Except Diagnostics (List Cell) :=
  let text := match t with
    | .iri text | .plain text | .lang text _ | .typed text _ => text
  .ok [⟨.ok text.toUtf8, .ok (), .ok 182, .ok 1, none, .error [], .error []⟩]

/-- A result that answers a request. -/
def Update.answer (quads : List (Quad Term)) : Update → ResultSet
  | .clear _ | .delete _ _ => ⟨[], [], []⟩
  | .distinct x pattern y hidden =>
    ⟨[⟨[x], 12⟩], ((quads.filterMap (chosen x pattern y hidden)).dedup).map shown, []⟩

/-- A server that has nothing but a list of quads. -/
def patternServer : Driver (List (Quad Term)) where
  connect _ quads := (.ok (), quads)
  allocHandle quads := (.ok (), quads)
  execDirect _ request quads :=
    match parseUpdate (QString.fromUtf8 request) with
    | some u => (.ok (u.answer quads), quads.filter (· ∈ u.effect quads.toFinset))
    | none => (.error [], quads)

omit [Qt] in
theorem Update.effect_subset (u : Update) (quads : Finset (Quad Term)) : u.effect quads ⊆ quads := by
  cases u with
  | clear | delete => exact Finset.filter_subset _ _
  | distinct => exact Finset.Subset.refl _

omit [Qt] in
theorem forall₂_shown (terms : List Term) : List.Forall₂ Shows terms (terms.map shown) := by
  induction terms with
  | nil => exact .nil
  | cons t terms ih =>
    refine .cons ⟨_, rfl, fun text hIri => ?_⟩ ih
    subst hIri
    exact ⟨rfl, rfl, rfl, 1, rfl, by decide⟩

omit [Qt] in
theorem answers_updateAnswer (u : Update) (quads : List (Quad Term)) : u.Answers quads.toFinset (u.answer quads) := by
  cases u with
  | clear | delete => trivial
  | distinct x pattern y hidden =>
    refine ⟨rfl, _, List.nodup_dedup _, fun t => ?_, forall₂_shown _⟩
    rw [List.mem_dedup, List.mem_filterMap]
    simp only [List.mem_toFinset]

theorem executes_patternServer : Executes patternServer List.toFinset := by
  refine ⟨fun state => ⟨state, rfl, rfl⟩, fun {request u} state h => ?_⟩
  refine ⟨u.answer state, state.filter (· ∈ u.effect state.toFinset), ?_, ?_, answers_updateAnswer u state⟩
  · simp only [patternServer, QString.fromUtf8_toUtf8, h]
  · rw [List.toFinset_filter]
    simp only [decide_eq_true_eq]
    exact Finset.filter_mem_eq_inter.trans (Finset.inter_eq_right.mpr (u.effect_subset _))

end Qt

end Sparul

open Sparul VirtuosoModel

section Qt

variable [Qt] {typeHash : TypeHash} {fakeBooleans : Bool} {s : Statement} {w : Quad (Option Term)}

/-! ### What the operations send -/

/-- A node is written as a term; an empty one stands for any. -/
def Means (typeHash : TypeHash) (node : Node) (wanted : Option Term) : Prop :=
  if node.isValid then ∃ t, readText (nodeToN3 typeHash node).1 = some (.term t) ∧ wanted = some t
  else wanted = none

/-- The nodes of the statement are written as the terms of a pattern; only the object may be a literal, and the
graph is an IRI. -/
structure Asks (typeHash : TypeHash) (fakeBooleans : Bool) (s : Statement) (w : Quad (Option Term)) : Prop where
  context : s.context.isLiteral = false
  named : s.context.isBlank = false
  graph : Means typeHash s.context w.graph
  noLiteral : s.subject.isLiteral = false ∧ s.predicate.isLiteral = false
  subject : Means typeHash s.subject w.subject
  predicate : Means typeHash s.predicate w.predicate
  object : Means typeHash (rewritten fakeBooleans s.object) w.object

/-- The pattern with a variable for each node that is not given. -/
def Quad.places (w : Quad (Option Term)) : Quad Sparul.Place :=
  ⟨Pattern.place 'g' w.graph, Pattern.place 's' w.subject, Pattern.place 'p' w.predicate,
    Pattern.place 'o' w.object⟩

/-- The quad has the terms that are given. -/
def Quad.Fits (w : Quad (Option Term)) (q : Quad Term) : Prop :=
  Pattern.Fits w.graph q.graph ∧ Pattern.Fits w.subject q.subject ∧ Pattern.Fits w.predicate q.predicate ∧
    Pattern.Fits w.object q.object

instance (w : Quad (Option Term)) (q : Quad Term) : Decidable (w.Fits q) := by
  unfold Quad.Fits
  infer_instance

/-- The texts for the nodes of a statement. -/
def placeTexts (typeHash : TypeHash) (fakeBooleans : Bool) (s : Statement) : Quad QString where
  graph := (termPattern typeHash "?g".toList batchParams false s.context).1
  subject := (termPattern typeHash "?s".toList quotedBatchParams false s.subject).1
  predicate := (termPattern typeHash "?p".toList quotedBatchParams false s.predicate).1
  object := (objectPattern typeHash fakeBooleans false s.object).1

theorem reads_termPattern {node : Node} {wanted : Option Term} (h : Means typeHash node wanted) (x : Char)
    (placeholder : QString) :
    Reads readPlace ((termPattern typeHash ['?', x] placeholder false node).1 ++ [' ']) (Pattern.place x wanted) := by
  unfold Means at h
  unfold termPattern
  split at h
  · rename_i hValid
    obtain ⟨t, hText, rfl⟩ := h
    rw [if_pos hValid, if_neg Bool.false_ne_true]
    exact readsPlace_term hText
  · rename_i hValid
    subst h
    rw [if_neg hValid]
    exact readsPlace_variable x

theorem objectPattern_false (object : Node) : objectPattern typeHash fakeBooleans false object =
    termPattern typeHash "?o".toList quotedBatchParams false (rewritten fakeBooleans object) := by
  simp [objectPattern]

theorem Asks.readsPlaces (h : Asks typeHash fakeBooleans s w) :
    ReadsPlaces (placeTexts typeHash fakeBooleans s) w.places where
  graph := reads_termPattern h.graph 'g' _
  subject := reads_termPattern h.subject 's' _
  predicate := reads_termPattern h.predicate 'p' _
  object := by
    rw [placeTexts, objectPattern_false]
    exact reads_termPattern h.object 'o' _

theorem Asks.triplePattern_eq (h : Asks typeHash fakeBooleans s w) :
    triplePattern typeHash fakeBooleans s false =
      ((placeTexts typeHash fakeBooleans s).subject ++ ' ' :: ((placeTexts typeHash fakeBooleans s).predicate ++
        ' ' :: (placeTexts typeHash fakeBooleans s).object),
        (objectPattern typeHash fakeBooleans false s.object).2) := by
  simp only [triplePattern, placeTexts, Bool.false_and, snd_termPattern h.noLiteral.1,
    snd_termPattern h.noLiteral.2]

/-- The table does not matter but for a literal. -/
theorem fst_termPattern_congr (typeHash typeHash' : TypeHash) {node : Node} (h : node.isLiteral = false)
    (varText placeholder : QString) : (termPattern typeHash varText placeholder false node).1 =
      (termPattern typeHash' varText placeholder false node).1 := by
  cases node with
  | literal value hValue => cases h
  | _ => rfl

theorem Asks.pattern_eq (h : Asks typeHash fakeBooleans s w) :
    statementToConstructGraphPattern typeHash fakeBooleans s true false =
      (patternText (placeTexts typeHash fakeBooleans s),
        (objectPattern typeHash fakeBooleans false s.object).2) := by
  have hOpen : " \x7b ".toList = ' ' :: "\x7b ".toList := by decide
  have hClose : " . \x7d".toList = ' ' :: ". \x7d".toList := by decide
  simp only [statementToConstructGraphPattern, if_true, Bool.false_and, snd_termPattern h.context,
    h.triplePattern_eq, patternText, tripleText, hOpen, hClose, Prod.mk.injEq, and_true]
  simp [placeTexts]

/-- The text of a node does not change the table a second time. -/
theorem literalToN3_again (typeHash : TypeHash) (literal : LiteralValue) :
    Node.literalToN3 (Node.literalToN3 typeHash literal).2 literal = Node.literalToN3 typeHash literal := by
  unfold Node.literalToN3
  simp only
  split
  · split <;> rfl
  · cases hLookup : typeHash.lookup literal.type with
    | some type => simp [hLookup]
    | none => simp

theorem nodeToN3_again (typeHash : TypeHash) (node : Node) :
    nodeToN3 (nodeToN3 typeHash node).2 node = nodeToN3 typeHash node := by
  cases node with
  | literal value hValue => exact literalToN3_again typeHash value
  | _ => rfl

theorem objectPattern_again (typeHash : TypeHash) (fakeBooleans : Bool) (object : Node) :
    objectPattern (objectPattern typeHash fakeBooleans false object).2 fakeBooleans false object =
      objectPattern typeHash fakeBooleans false object := by
  simp only [objectPattern_false, termPattern, Bool.false_eq_true, if_false]
  split
  · exact nodeToN3_again _ _
  · rfl

/-- Nor do the texts of the nodes change when they are written again. -/
theorem Asks.placeTexts_again (h : Asks typeHash fakeBooleans s w) :
    placeTexts (objectPattern typeHash fakeBooleans false s.object).2 fakeBooleans s =
      placeTexts typeHash fakeBooleans s := by
  simp only [placeTexts, objectPattern_again, Quad.mk.injEq, and_true]
  exact ⟨fst_termPattern_congr _ _ h.context _ _, fst_termPattern_congr _ _ h.noLiteral.1 _ _,
    fst_termPattern_congr _ _ h.noLiteral.2 _ _⟩

/-- Written terms stay the same while the object is. -/
theorem Asks.congr {typeHash' : TypeHash} (h : Asks typeHash fakeBooleans s w)
    (hSame : objectPattern typeHash' fakeBooleans false s.object = objectPattern typeHash fakeBooleans false s.object) :
    Asks typeHash' fakeBooleans s w := by
  have hNode : ∀ {node : Node} {wanted}, node.isLiteral = false → Means typeHash node wanted →
      Means typeHash' node wanted := by
    intro node wanted hLiteral hMeans
    cases node with
    | literal value hValue => cases hLiteral
    | _ => exact hMeans
  refine ⟨h.context, h.named, hNode h.context h.graph, h.noLiteral, hNode h.noLiteral.1 h.subject,
    hNode h.noLiteral.2 h.predicate, ?_⟩
  have hObject := h.object
  simp only [objectPattern_false, termPattern, Bool.false_eq_true, if_false] at hSame
  unfold Means at hObject ⊢
  split
  · rename_i hValid
    rw [if_pos hValid] at hObject
    rw [if_pos hValid, if_pos hValid] at hSame
    rwa [hSame]
  · rename_i hValid
    rwa [if_neg hValid] at hObject

/-- The statement in a graph. -/
theorem Asks.inGraph (h : Asks typeHash fakeBooleans s w) (u : QUrl) (hu : u.isEmpty = false) :
    Asks typeHash fakeBooleans { s with context := .resource u hu } { w with graph := some (.iri u.encoded) } where
  context := rfl
  named := rfl
  graph := ⟨_, readText_resource u hu, rfl⟩
  noLiteral := h.noLiteral
  subject := h.subject
  predicate := h.predicate
  object := h.object

/-! ### What the requests do -/

omit [Qt] in
theorem Quad.solve_iff (w : Quad (Option Term)) (q : Quad Term) :
    (Pattern.solve w.places.tuple q.tuple).isSome = true ↔ w.Fits q := by
  have hPlaces : w.places.tuple = [('g', w.graph), ('s', w.subject), ('p', w.predicate), ('o', w.object)].map
      fun w => Pattern.place w.1 w.2 := rfl
  have hNodup : ([('g', w.graph), ('s', w.subject), ('p', w.predicate), ('o', w.object)].map Prod.fst).Nodup := by
    simp
  rw [hPlaces, Pattern.solve_places hNodup]
  simp [Quad.tuple, Quad.Fits]

omit [Qt] in
theorem chosen_graph {w : Quad (Option Term)} (hGraph : w.graph = none) {q : Quad Term} {hidden t : Term} :
    chosen 'g' w.places 'g' hidden q = some t ↔ w.Fits q ∧ t = q.graph ∧ q.graph ≠ hidden := by
  rw [← Quad.solve_iff, chosen]
  cases hSolve : Pattern.solve w.places.tuple q.tuple with
  | none => simp
  | some μ =>
    have hPlaces : Pattern.solve ([('g', w.graph), ('s', w.subject), ('p', w.predicate), ('o', w.object)].map
        fun w => Pattern.place w.1 w.2) q.tuple = some μ := hSolve
    have hAll := Pattern.lookup_of_solve_places hPlaces
    obtain ⟨hFirst, -⟩ := List.forall₂_cons.mp hAll
    rw [Option.bind_some, hFirst hGraph, Option.bind_some]
    by_cases hHidden : q.graph = hidden
    · simp [hHidden]
    · simp [hHidden, eq_comm]

omit [Qt] in
/-- The quads of a pattern are deleted. -/
theorem effect_delete (w : Quad (Option Term)) (quads : Finset (Quad Term)) :
    (Update.delete w.places w.places).effect quads = quads.filter fun q => ¬w.Fits q := by
  refine Finset.filter_congr fun q hq => ?_
  simp only [ne_eq, Pattern.result_self_eq_some, not_and, Quad.solve_iff]
  constructor
  · intro hAll hFits
    exact hAll q hq hFits rfl
  · intro hNot q' _ hFits hTuple
    rw [Quad.tuple_injective hTuple] at hNot
    exact hNot hFits

omit [Qt] in
/-- So are those of a graph, where nothing else is given. -/
theorem effect_clear {w : Quad (Option Term)} {g : Term} (hGraph : w.graph = some g) (hSubject : w.subject = none)
    (hPredicate : w.predicate = none) (hObject : w.object = none) (quads : Finset (Quad Term)) :
    (Update.clear g).effect quads = quads.filter fun q => ¬w.Fits q := by
  refine Finset.filter_congr fun q _ => ?_
  simp [Quad.Fits, hGraph, hSubject, hPredicate, hObject, eq_comm]

section Server

variable {S : Type} {driver : Driver S} {quads : S → Finset (Quad Term)} {parser : TurtleParser}
  {model : VirtuosoModel S} {store : Finset (Quad Term)}

/-- The thread has a connection, behind which are the quads. -/
def Sees (driver : Driver S) (quads : S → Finset (Quad Term)) (model : VirtuosoModel S)
    (store : Finset (Quad Term)) : Prop :=
  ∃ conn pool, model.connectionPool.connection driver = (some conn, pool) ∧ quads conn.state = store

theorem Sees.unique {store' : Finset (Quad Term)} (h : Sees driver quads model store)
    (h' : Sees driver quads model store') : store = store' := by
  obtain ⟨conn, pool, hConnection, rfl⟩ := h
  obtain ⟨conn', pool', hConnection', rfl⟩ := h'
  rw [hConnection] at hConnection'
  cases hConnection'
  rfl

theorem sees_update {pool : ConnectionPool S} {conn : Connection S}
    (hPool : model.connectionPool = pool.update conn) (hQuads : quads conn.state = store) :
    Sees driver quads model store := by
  refine ⟨conn, pool.update conn, ?_, hQuads⟩
  rw [hPool]
  rfl

/-- What an operation on the statement leaves as it is. -/
structure Kept (s : Statement) (model model' : VirtuosoModel S) : Prop where
  virtuosoVersion : model'.virtuosoVersion = model.virtuosoVersion
  fakeBooleans : model'.fakeBooleans = model.fakeBooleans
  supportEmptyGraphs : model'.supportEmptyGraphs = model.supportEmptyGraphs
  object : objectPattern model'.typeHash model'.fakeBooleans false s.object =
    objectPattern model.typeHash model.fakeBooleans false s.object

theorem Kept.refl (s : Statement) (model : VirtuosoModel S) : Kept s model model := ⟨rfl, rfl, rfl, rfl⟩

theorem Kept.trans {model' model'' : VirtuosoModel S} (h : Kept s model model') (h' : Kept s model' model'') :
    Kept s model model'' :=
  ⟨h'.virtuosoVersion.trans h.virtuosoVersion, h'.fakeBooleans.trans h.fakeBooleans,
    h'.supportEmptyGraphs.trans h.supportEmptyGraphs, h'.object.trans h.object⟩

theorem Kept.asks {model' : VirtuosoModel S} (h : Kept s model model')
    (hAsks : Asks model.typeHash model.fakeBooleans s w) : Asks model'.typeHash model'.fakeBooleans s w := by
  have hSame := h.object
  rw [h.fakeBooleans] at hSame ⊢
  exact hAsks.congr hSame

/-- A request is executed. -/
theorem exists_execute_update (h : Executes driver quads) (conn : Connection S) {request : QString} {u : Update}
    (hParse : parseUpdate request = some u) :
    ∃ resultSet state, conn.execute driver request [] = (some resultSet, ⟨state, .none⟩) ∧
      quads state = u.effect (quads conn.state) ∧ u.Answers (quads conn.state) resultSet := by
  obtain ⟨state, hAlloc, hSame⟩ := h.allocHandle conn.state
  obtain ⟨resultSet, state', hRun, hEffect, hAnswers⟩ := h.execDirect state hParse
  refine ⟨resultSet, state', ?_, hSame ▸ hEffect, hSame ▸ hAnswers⟩
  simp only [Connection.execute, hAlloc, List.filterMap_nil, hRun]

/-- What an operation leaves: the quads behind the connection, and the model but for its connection and its
error. -/
structure Leaves (driver : Driver S) (quads : S → Finset (Quad Term)) (s : Statement) (model : VirtuosoModel S)
    (after : Finset (Quad Term)) (outcome : Outcome S) : Prop where
  sees : Sees driver quads outcome.model after
  kept : Kept s model outcome.model

theorem leaves_executeRemoval (h : Executes driver quads) (hSees : Sees driver quads model store) {query : QString}
    {u : Update} (hParse : parseUpdate (s_queryPrefix ++ query) = some u) (signals : List Signal) :
    Leaves driver quads s model (u.effect store) (model.executeRemoval driver query signals) ∧
      (model.executeRemoval driver query signals).code = .errorNone := by
  obtain ⟨conn, pool, hConnection, rfl⟩ := hSees
  obtain ⟨resultSet, state, hRun, hEffect, -⟩ := exists_execute_update h conn hParse
  rw [executeRemoval_connected query signals hConnection, hRun]
  exact ⟨⟨sees_update rfl hEffect, ⟨rfl, rfl, rfl, rfl⟩⟩, rfl⟩

/-- A refusal changes nothing but the error. -/
theorem Leaves.reject {outcome : Outcome S} {after : Finset (Quad Term)} (message : String) (signals : List Signal)
    (executions : List Execution) (h : Leaves driver quads s model after outcome) :
    Leaves driver quads s model after (outcome.model.reject message signals executions) :=
  ⟨h.sees, ⟨h.kept.virtuosoVersion, h.kept.fakeBooleans, h.kept.supportEmptyGraphs, h.kept.object⟩⟩

theorem leaves_executeRemoveAll (h : Executes driver quads) (hSees : Sees driver quads model store) {query : QString}
    {u : Update} (hParse : parseUpdate (s_queryPrefix ++ query) = some u) (statement : Statement) :
    Leaves driver quads s model (u.effect store) (model.executeRemoveAll driver query statement) ∧
      ((model.supportEmptyGraphs = true ∨ statement.context.operatorEq defaultGraphNode = false) →
        (model.executeRemoveAll driver query statement).code = .errorNone) := by
  have hRemoval := leaves_executeRemoval (s := s) h hSees hParse
  unfold executeRemoveAll
  by_cases hDefault : statement.context.operatorEq defaultGraphNode = true
  · rw [if_pos hDefault]
    by_cases hSupport : model.supportEmptyGraphs = true
    · rw [if_pos hSupport]
      exact ⟨(hRemoval _).1, fun _ => (hRemoval _).2⟩
    · have hRefused : ¬(model.supportEmptyGraphs = true ∨ statement.context.operatorEq defaultGraphNode = false) := by
        simp [hSupport, hDefault]
      rw [if_neg hSupport]
      refine ⟨?_, fun hEither => absurd hEither hRefused⟩
      simp only
      split
      · exact (hRemoval _).1
      · exact (hRemoval _).1.reject _ _ _
  · rw [if_neg hDefault]
    exact ⟨(hRemoval _).1, fun _ => (hRemoval _).2⟩

theorem means_empty {node : Node} {wanted : Option Term} (h : Means typeHash node wanted)
    (hEmpty : node.isValid = false) : wanted = none := by
  unfold Means at h
  rwa [hEmpty, if_neg Bool.false_ne_true] at h

theorem rewritten_empty {node : Node} (hEmpty : node.isValid = false) : (rewritten fakeBooleans node).isValid = false := by
  cases node with
  | empty => rfl
  | _ => cases hEmpty

/-- A statement with a graph removes the quads of its pattern. -/
theorem leaves_removeFromContext (h : Executes driver quads) (hSees : Sees driver quads model store)
    (hAsks : Asks model.typeHash model.fakeBooleans s w) (hContext : s.context.isValid = true)
    (hHidden : s.context.uri ≠ openlinkVirtualGraph) :
    Leaves driver quads s model (store.filter fun q => ¬w.Fits q) (removeFromContext driver model s) ∧
      ((model.supportEmptyGraphs = true ∨ s.context.operatorEq defaultGraphNode = false) →
        (removeFromContext driver model s).code = .errorNone) := by
  obtain ⟨u, hu, hGraph⟩ : ∃ u hu, s.context = .resource u hu := by
    have hLiteral := hAsks.context
    have hBlank := hAsks.named
    cases hCases : s.context with
    | resource u hu => exact ⟨u, hu, rfl⟩
    | empty => simp [hCases, Node.isValid, Node.isEmpty, Node.type] at hContext
    | literal value hValue =>
      rw [hCases] at hLiteral
      cases hLiteral
    | blank id hId =>
      rw [hCases] at hBlank
      cases hBlank
  have hTerm : w.graph = some (.iri u.encoded) := by
    have hMeans := hAsks.graph
    unfold Means at hMeans
    rw [if_pos hContext] at hMeans
    obtain ⟨t, hText, hWanted⟩ := hMeans
    rw [hGraph, readText_resource u hu] at hText
    cases hText
    exact hWanted
  have hN3 : model.contextToN3 s.context = ('<' :: (u.encoded ++ ['>']), model) := by
    rw [contextToN3, hGraph, Node.toN3, Node.resourceToN3_eq]
  unfold removeFromContext
  rw [if_neg hHidden, hN3]
  split
  · rename_i hNone
    simp only [Bool.and_eq_true, Bool.not_eq_true'] at hNone
    have hClear : parseUpdate (s_queryPrefix ++ ("clear graph ".toList ++ '<' :: (u.encoded ++ ['>']))) =
        some (.clear (.iri u.encoded)) := by
      rw [← parse_clear (isIriChar_encoded u)]
      rfl
    rw [← effect_clear hTerm (means_empty hAsks.subject hNone.1.1) (means_empty hAsks.predicate hNone.1.2)
      (means_empty hAsks.object (rewritten_empty hNone.2))]
    exact leaves_executeRemoveAll h hSees hClear s
  · -- the nodes are written a second time
    have hAgain := hAsks.congr (objectPattern_again model.typeHash model.fakeBooleans s.object)
    have hTexts := hAsks.placeTexts_again
    have hDelete : parseUpdate (s_queryPrefix ++ ("delete from ".toList ++ '<' :: (u.encoded ++ ['>']) ++
        " \x7b ".toList ++ (triplePattern model.typeHash model.fakeBooleans s false).1 ++
        " \x7d where \x7b ".toList ++ (statementToConstructGraphPattern
          (objectPattern model.typeHash model.fakeBooleans false s.object).2 model.fakeBooleans s true false).1 ++
        " \x7d".toList)) = some (.delete w.places w.places) := by
      have hOpen : " \x7b ".toList = ' ' :: "\x7b ".toList := by decide
      have hWhere : " \x7d where \x7b ".toList = ' ' :: "\x7d where \x7b ".toList := by decide
      have hHead : "sparql delete from ".toList = s_queryPrefix ++ "delete from ".toList := by decide
      have hText : (placeTexts model.typeHash model.fakeBooleans s).graph = '<' :: (u.encoded ++ ['>']) := by
        show (termPattern model.typeHash "?g".toList batchParams false s.context).1 = _
        rw [hGraph, ← Node.resourceToN3_eq]
        rfl
      rw [← parse_deleteFrom hAsks.readsPlaces, hAsks.triplePattern_eq, hAgain.pattern_eq, hTexts, hText, hHead,
        tripleText, hOpen, hWhere]
      simp only [List.append_assoc, List.cons_append, List.nil_append]
    rw [← effect_delete]
    have hTriple : model.pattern s false false = ((triplePattern model.typeHash model.fakeBooleans s false).1,
        { model with typeHash := (objectPattern model.typeHash model.fakeBooleans false s.object).2 }) := by
      simp [pattern, statementToConstructGraphPattern, hAsks.triplePattern_eq]
    simp only [hTriple]
    have hKept : Kept s model (pattern { model with
        typeHash := (objectPattern model.typeHash model.fakeBooleans false s.object).2 } s true false).2 := by
      refine ⟨rfl, rfl, rfl, ?_⟩
      simp only [pattern, hAgain.pattern_eq, objectPattern_again]
    have hStill : Sees driver quads (pattern { model with
        typeHash := (objectPattern model.typeHash model.fakeBooleans false s.object).2 } s true false).2 store := hSees
    have hRemoved := leaves_executeRemoveAll (s := s) h hStill hDelete s
    exact ⟨⟨hRemoved.1.sees, hKept.trans hRemoved.1.kept⟩, hRemoved.2⟩

/-! ### The graphs one by one -/

/-- The graph that a node stands for. -/
def graphTerm (node : Node) : Term := .iri node.uri.encoded

/-- A graph that can be removed from: the node is an IRI that is not hidden, and the default graph only where the
model has one. -/
structure Removable (supportEmptyGraphs : Bool) (node : Node) : Prop where
  resource : node.isResource = true
  visible : node.uri ≠ openlinkVirtualGraph
  accepted : supportEmptyGraphs = true ∨ node.uri ≠ defaultGraph

/-- The loop removes the quads of the pattern that are in one of the graphs. -/
theorem leaves_removeFromContexts (h : Executes driver quads) {nodes : List Node} (hGraph : w.graph = none)
    (hAsks : Asks model.typeHash model.fakeBooleans s w) (hSees : Sees driver quads model store)
    (hNodes : ∀ n ∈ nodes, Removable model.supportEmptyGraphs n) :
    Leaves driver quads s model (store.filter fun q => ¬(w.Fits q ∧ ∃ n ∈ nodes, q.graph = graphTerm n))
      (removeFromContexts driver s nodes model) := by
  induction nodes generalizing model store with
  | nil =>
    refine ⟨?_, Kept.refl s model⟩
    simpa [removeFromContexts] using hSees
  | cons node nodes ih =>
    have hNode := hNodes node (by simp)
    obtain ⟨u, hu, rfl⟩ : ∃ u hu, node = .resource u hu := by
      have hResource := hNode.resource
      cases node with
      | resource u hu => exact ⟨u, hu, rfl⟩
      | _ => cases hResource
    obtain ⟨hRemoved, hCode⟩ := leaves_removeFromContext h hSees (hAsks.inGraph u hu) rfl hNode.visible
    have hDefault : model.supportEmptyGraphs = true ∨
        (Node.resource u hu).operatorEq defaultGraphNode = false := by
      refine hNode.accepted.imp_right fun hNe => ?_
      have hOther : u ≠ defaultGraph := hNe
      simpa [Node.operatorEq, defaultGraphNode] using hOther
    have hKept : Kept s model (removeFromContext driver model { s with context := .resource u hu }).model :=
      ⟨hRemoved.kept.virtuosoVersion, hRemoved.kept.fakeBooleans, hRemoved.kept.supportEmptyGraphs,
        hRemoved.kept.object⟩
    have hRest := ih (hKept.asks hAsks) hRemoved.sees fun n hn => by
      rw [hKept.supportEmptyGraphs]
      exact hNodes n (List.mem_cons_of_mem _ hn)
    have hRun : (removeFromContexts driver s (.resource u hu :: nodes) model).model = (removeFromContexts driver s nodes
        (removeFromContext driver model { s with context := .resource u hu }).model).model := by
      simp [removeFromContexts, hCode hDefault, Node.isValid, Node.isEmpty, Node.type]
    refine ⟨?_, ?_⟩
    · rw [hRun]
      convert hRest.sees using 1
      ext q
      have hIn : Quad.Fits { w with graph := some (.iri u.encoded) } q ↔
          w.Fits q ∧ q.graph = graphTerm (.resource u hu) := by
        simp only [Quad.Fits, hGraph, Pattern.fits_none, Pattern.fits_some, true_and]
        exact and_comm.trans (and_congr_right' eq_comm)
      simp only [Finset.mem_filter, hIn, List.mem_cons, exists_eq_or_imp]
      rw [and_or_left, not_or, and_assoc]
    · rw [hRun]
      exact hKept.trans hRest.kept

/-- A graph whose IRI comes back from the server as it was sent. -/
def Named (t : Term) : Prop :=
  ∃ u : QUrl, u.isEmpty = false ∧ "_:".toList.isPrefixOf u.encoded = false ∧ t = .iri u.encoded

omit [Qt] in
theorem toUtf8_encoded (u : QUrl) : u.encoded.toUtf8 = u.toEncoded := by
  have hChar : ∀ c ∈ u.encoded, String.utf8EncodeChar c = [if c.toNat < 256 then UInt8.ofNat c.toNat else 63] := by
    intro c hc
    have hUrl := u.isUrlChar_of_mem hc
    simp only [isUrlChar, Bool.and_eq_true, decide_eq_true_eq] at hUrl
    have hSmall : c.val.toNat ≤ 0x7f := Nat.le_of_lt hUrl.1.2
    rw [if_pos (by omega), String.utf8EncodeChar, if_pos hSmall]
    rfl
  rw [QString.toUtf8, List.flatMap_congr hChar, ← List.map_eq_flatMap]
  rfl

/-- The cell of a named graph is converted to its node. -/
theorem getData_shows {t : Term} {row : Except Diagnostics (List Cell)} (h : Shows t row) (hNamed : Named t) :
    ∃ cell node, row = .ok [cell] ∧ cell.getData = (node, .none) ∧ node.isResource = true ∧ t = graphTerm node := by
  obtain ⟨cell, rfl, hIri⟩ := h
  obtain ⟨u, hu, hPrefix, rfl⟩ := hNamed
  obtain ⟨hData, hAttr, hType, flags, hFlags, hSet⟩ := hIri _ rfl
  rw [toUtf8_encoded] at hData
  refine ⟨cell, .resource u hu, rfl, ?_, rfl, rfl⟩
  have hBlank : (QString.toLatin1 "_:".toList).isPrefixOf u.toEncoded = false := by
    rw [← Bool.not_eq_true] at hPrefix ⊢
    intro hBytes
    have hText := List.IsPrefix.map (fun b : UInt8 => Char.ofNat b.toNat) (List.isPrefixOf_iff_prefix.mp hBytes)
    exact hPrefix (List.isPrefixOf_iff_prefix.mpr (u.fromLatin1_toEncoded ▸ hText))
  simp only [Cell.getData, hData, hAttr, hType, Cell.convert, if_true, hFlags, cString_toEncoded, stringNode, hSet,
    hBlank, QUrl.fromEncoded_toEncoded, Bool.false_eq_true, if_false, ne_eq, not_false_eq_true]
  simp [Node.ofUri, hu]

/-- The nodes of a column are those of the rows. -/
theorem allNodes_rows {terms : List Term} {rows : List (Except Diagnostics (List Cell))}
    (hRows : List.Forall₂ Shows terms rows) (hNamed : ∀ t ∈ terms, Named t)
    {backend : QueryResultIteratorBackend} {result : QueryResult} {x : QString}
    (hType : backend.resultType = .bindingResult) (hNames : backend.bindingNames = [x])
    (hResult : backend.queryResult = some result) (hLeft : result.rows = rows) :
    (QueryResultIterator.allNodes backend 0).map graphTerm = terms ∧
      ∀ n ∈ QueryResultIterator.allNodes backend 0, n.isResource = true := by
  have hElements : QueryResultIterator.elements backend = rows.length := by
    simp [QueryResultIterator.elements, hType, hResult, hLeft]
  unfold QueryResultIterator.allNodes
  rw [hElements]
  clear hElements
  induction hRows generalizing backend result with
  | nil => exact ⟨rfl, fun _ hMem => absurd hMem List.not_mem_nil⟩
  | @cons t row terms rows hShows hRest ih =>
    obtain ⟨cell, node, rfl, hData, hResource, hTerm⟩ := getData_shows hShows (hNamed t (by simp))
    have hNodes : rowNodes backend.bindingNames.length [cell] = some [node] := by
      simp [hNames, rowNodes, hData, Error.none]
    obtain ⟨result', hRows', hNextRow⟩ := QueryResultIteratorBackend.nextRow_of_rowNodes hLeft hNodes
    obtain ⟨behind, hNext, hNode, hType', hNames', hResult'⟩ : ∃ behind : QueryResultIteratorBackend,
        QueryResultIterator.next backend = (true, behind) ∧ behind.bindingAt 0 = (node, behind) ∧
          behind.resultType = .bindingResult ∧ behind.bindingNames = [x] ∧ behind.queryResult = some result' := by
      refine ⟨{ backend with queryResult := some result', bindingCache := [some node] }, ?_, ?_, hType, hNames, rfl⟩
      · simp [QueryResultIterator.next, QueryResultIteratorBackend.next, hType, hResult, hNextRow]
      · refine QueryResultIteratorBackend.bindingAt_cached (i := 0) rfl ?_ ?_ rfl
        · simp [QueryResultIteratorBackend.isBinding, hType]
        · simp [hNames]
    obtain ⟨hTerms, hAll⟩ := ih (fun t ht => hNamed t (List.mem_cons_of_mem _ ht)) hType' hNames' hResult' hRows'
    rw [List.length_cons, QueryResultIterator.allElements, hNext]
    simp only [if_true, hNode, List.map_cons, hTerms, ← hTerm, List.forall_mem_cons]
    exact ⟨trivial, hResource, hAll⟩

/-! ### Every removal -/

variable (parser) in
/-- The selection of the graphs of a pattern. -/
theorem allNodes_sparqlQuery (h : Executes driver quads) (hSees : Sees driver quads model store)
    (hGraph : w.graph = none) (hNamed : ∀ q ∈ store, w.Fits q → Named q.graph) {query : QString}
    (hParse : parseUpdate (s_queryPrefix ++ query) =
      some (.distinct 'g' w.places 'g' (.iri openlinkVirtualGraph.encoded))) :
    ∃ backend model', model.sparqlQuery driver parser query = (some backend, .query true, model') ∧
      Sees driver quads model' store ∧ Kept s model model' ∧
      (∀ n ∈ QueryResultIterator.allNodes backend 0, n.isResource = true ∧
        ∃ q ∈ store, w.Fits q ∧ q.graph = graphTerm n ∧ q.graph ≠ .iri openlinkVirtualGraph.encoded) ∧
      ∀ q ∈ store, w.Fits q → q.graph ≠ .iri openlinkVirtualGraph.encoded →
        ∃ n ∈ QueryResultIterator.allNodes backend 0, q.graph = graphTerm n := by
  obtain ⟨conn, pool, hConnection, rfl⟩ := hSees
  obtain ⟨resultSet, state, hRun, hEffect, hColumns, terms, -, hTerms, hRows⟩ :=
    exists_execute_update h conn hParse
  have hChosen : ∀ t, t ∈ terms ↔ ∃ q ∈ quads conn.state, w.Fits q ∧ t = q.graph ∧
      q.graph ≠ .iri openlinkVirtualGraph.encoded := by
    intro t
    rw [hTerms]
    simp only [chosen_graph hGraph]
  obtain ⟨hNodes, hResource⟩ : (QueryResultIterator.allNodes (.ofResult parser model.supportEmptyGraphs resultSet)
      0).map graphTerm = terms ∧ ∀ n ∈ QueryResultIterator.allNodes
        (.ofResult parser model.supportEmptyGraphs resultSet) 0, n.isResource = true := by
    have hNames : (QueryResult.ofResultSet resultSet).resultColumns = [['g']] := hColumns
    have hBackend : (QueryResultIteratorBackend.ofResult parser model.supportEmptyGraphs resultSet).resultType =
          .bindingResult ∧
        (QueryResultIteratorBackend.ofResult parser model.supportEmptyGraphs resultSet).bindingNames = [['g']] ∧
        (QueryResultIteratorBackend.ofResult parser model.supportEmptyGraphs resultSet).queryResult =
          some (.ofResultSet resultSet) := by
      unfold QueryResultIteratorBackend.ofResult
      simp only [hNames]
      exact ⟨rfl, rfl, rfl⟩
    refine allNodes_rows hRows (fun t ht => ?_) hBackend.1 hBackend.2.1 hBackend.2.2 rfl
    obtain ⟨q, hq, hFits, rfl, -⟩ := (hChosen t).mp ht
    exact hNamed q hq hFits
  have hQuads : quads (⟨state, .none⟩ : Connection S).state = quads conn.state := hEffect
  refine ⟨.ofResult parser model.supportEmptyGraphs resultSet,
    { model with connectionPool := pool.update ⟨state, .none⟩, lastError := .none }, ?_, sees_update rfl hQuads,
    ⟨rfl, rfl, rfl, rfl⟩, fun n hn => ?_, fun q hq hFits hVisible => ?_⟩
  · simp only [sparqlQuery, sqlQuery, hConnection, hRun]
  · obtain ⟨q, hq, hFits, hSame, hVisible⟩ := (hChosen (graphTerm n)).mp (hNodes ▸ List.mem_map_of_mem hn)
    exact ⟨hResource n hn, q, hq, hFits, hSame.symm, hVisible⟩
  · have hListed := (hChosen q.graph).mpr ⟨q, hq, hFits, rfl, hVisible⟩
    rw [← hNodes] at hListed
    obtain ⟨n, hn, hTerm⟩ := List.mem_map.mp hListed
    exact ⟨n, hn, hTerm.symm⟩

/-- The pattern of a statement without a graph is written, and the table behind it writes it again. -/
theorem pattern_spec (hAsks : Asks model.typeHash model.fakeBooleans s w) :
    (model.pattern s true false).1 = patternText (placeTexts model.typeHash model.fakeBooleans s) ∧
      Kept s model (model.pattern s true false).2 := by
  simp only [pattern, hAsks.pattern_eq]
  exact ⟨trivial, rfl, rfl, rfl, objectPattern_again _ _ _⟩

/-- A new version deletes the quads of the pattern. -/
theorem leaves_delete (h : Executes driver quads) (hSees : Sees driver quads model store)
    (hAsks : Asks model.typeHash model.fakeBooleans s w) :
    Sees driver quads ((model.pattern s true false).2.executeRemoveAll driver
      ("delete \x7b ".toList ++ (model.pattern s true false).1 ++ " \x7d where \x7b ".toList ++
        (model.pattern s true false).1 ++ " \x7d".toList) s).model (store.filter fun q => ¬w.Fits q) := by
  obtain ⟨hText, -⟩ := pattern_spec hAsks
  have hDelete : parseUpdate (s_queryPrefix ++ ("delete \x7b ".toList ++ (model.pattern s true false).1 ++
      " \x7d where \x7b ".toList ++ (model.pattern s true false).1 ++ " \x7d".toList)) =
        some (.delete w.places w.places) := by
    have hHead : "sparql delete \x7b ".toList = s_queryPrefix ++ "delete \x7b ".toList := by decide
    rw [← parse_delete hAsks.readsPlaces, hText, hHead]
    simp only [List.append_assoc]
  have hStill : Sees driver quads (model.pattern s true false).2 store := hSees
  rw [← effect_delete]
  exact (leaves_executeRemoveAll (s := s) h hStill hDelete s).1.sees

/-- An old version removes them from the graphs that it selects. -/
theorem leaves_selected (h : Executes driver quads) (hSees : Sees driver quads model store)
    (hAsks : Asks model.typeHash model.fakeBooleans s w) (hGraph : w.graph = none)
    (hNamed : ∀ q ∈ store, w.Fits q → Named q.graph)
    (hDefault : model.supportEmptyGraphs = true ∨ ∀ q ∈ store, w.Fits q → q.graph ≠ .iri defaultGraph.encoded) :
    let listed := (model.pattern s true false).2.sparqlQuery driver parser
      ("select distinct ?g where \x7b ".toList ++ (model.pattern s true false).1 ++ " . FILTER(?g != <".toList ++
        openlinkVirtualGraph.encoded ++ ">) . \x7d".toList)
    Sees driver quads (removeFromContexts driver s
      ((listed.1.map (QueryResultIterator.allNodes · 0)).getD []) listed.2.2).model
      (store.filter fun q => ¬(w.Fits q ∧ q.graph ≠ .iri openlinkVirtualGraph.encoded)) := by
  obtain ⟨hText, hKept⟩ := pattern_spec hAsks
  have hSelect : parseUpdate (s_queryPrefix ++ ("select distinct ?g where \x7b ".toList ++
      (model.pattern s true false).1 ++ " . FILTER(?g != <".toList ++ openlinkVirtualGraph.encoded ++
        ">) . \x7d".toList)) = some (.distinct 'g' w.places 'g' (.iri openlinkVirtualGraph.encoded)) := by
    have hHead : s_queryPrefix ++ "select distinct ?g where \x7b ".toList =
        "sparql select distinct ?".toList ++ (['g'] ++ " where \x7b ".toList) := by decide
    have hFilter : " . FILTER(?g != <".toList = " . FILTER(?".toList ++ (['g'] ++ " != <".toList) := by decide
    have hClose : ">) . \x7d".toList = '>' :: ") . \x7d".toList := by decide
    rw [← parse_distinct hAsks.readsPlaces 'g' 'g' (isIriChar_encoded openlinkVirtualGraph), hText, hFilter, hClose]
    simp only [← List.append_assoc, hHead]
    simp only [List.append_assoc, List.cons_append, List.nil_append]
  have hStill : Sees driver quads (model.pattern s true false).2 store := hSees
  obtain ⟨backend, model', hQuery, hSees', hKept', hListed, hComplete⟩ :=
    allNodes_sparqlQuery (s := s) parser h hStill hGraph hNamed hSelect
  simp only [hQuery, Option.map_some, Option.getD_some]
  have hAll := hKept.trans hKept'
  have hRemoved := leaves_removeFromContexts h hGraph (hAll.asks hAsks) hSees' fun n hn => by
    obtain ⟨hResource, q, hq, hFits, hTerm, hVisible⟩ := hListed n hn
    refine ⟨hResource, ?_, ?_⟩
    · rintro hEq
      rw [hTerm, graphTerm, hEq] at hVisible
      exact hVisible rfl
    · rw [hAll.supportEmptyGraphs]
      refine hDefault.imp_right fun hNone hEq => hNone q hq hFits ?_
      rw [hTerm, graphTerm, hEq]
  convert hRemoved.sees using 1
  refine Finset.filter_congr fun q hq => not_congr (and_congr_right fun hFits => ⟨hComplete q hq hFits, ?_⟩)
  rintro ⟨n, hn, hTerm⟩
  obtain ⟨-, q', -, -, hTerm', hVisible⟩ := hListed n hn
  rwa [hTerm, ← hTerm']

end Server

end Qt

section Example

local instance bulkRemovalQt : Qt := asciiQt

theorem legal_subject : "urn:s".toList.all isUrlChar = true := by decide

theorem legal_graph : "urn:g".toList.all isUrlChar = true := by decide

/-- The statement with a subject and nothing else. -/
def aboutSubject : Statement :=
  { subject := .resource ⟨"urn:s".toList, legal_subject⟩ rfl, predicate := .empty, object := .empty, context := .empty }

def subjectTerms : Quad (Option Term) := ⟨none, some (.iri "urn:s".toList), none, none⟩

/-- A quad about the subject in a graph. -/
def subjectQuad (graph : QString) : Quad Term :=
  ⟨.iri graph, .iri "urn:s".toList, .iri "urn:p".toList, .plain ['x']⟩

/-- The subject in a graph, in the default graph and in the virtual one. -/
def subjectQuads : List (Quad Term) :=
  [subjectQuad "urn:g".toList, subjectQuad defaultGraph.encoded, subjectQuad openlinkVirtualGraph.encoded]

theorem asks_aboutSubject : Asks [] true aboutSubject subjectTerms where
  context := rfl
  named := rfl
  graph := rfl
  noLiteral := ⟨rfl, rfl⟩
  subject := ⟨_, readText_resource _ rfl, rfl⟩
  predicate := rfl
  object := rfl

theorem named_subjectQuads : ∀ q ∈ subjectQuads.toFinset, subjectTerms.Fits q → Named q.graph := by
  intro q hq _
  rw [List.mem_toFinset] at hq
  simp only [subjectQuads, List.mem_cons, List.not_mem_nil, or_false] at hq
  rcases hq with rfl | rfl | rfl
  · exact ⟨⟨"urn:g".toList, legal_graph⟩, rfl, by decide, rfl⟩
  · exact ⟨defaultGraph, rfl, by decide, rfl⟩
  · exact ⟨openlinkVirtualGraph, rfl, by decide, rfl⟩

theorem sees_openedModel (virtuosoVersion : QString) : Sees patternServer List.toFinset
    { openedModel subjectQuads with virtuosoVersion } subjectQuads.toFinset :=
  ⟨_, _, rfl, rfl⟩

end Example

end Virtuoso

end Soprano
