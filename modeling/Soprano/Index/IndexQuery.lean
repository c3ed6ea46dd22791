import Soprano.Index.CLuceneIndex
import Soprano.Inference.Sparql
import Soprano.N3
import Soprano.Qt.Arg

/-! The queries of `IndexFilterModel::rebuildIndex`: their texts, and what a SPARQL processor reads in them. -/

namespace Soprano

namespace QString

/-- The text with the markers replaced by the arguments of their numbers; the first `skip` characters are left
out. -/
def replaceMarkers (args : List (Nat × QString)) : Nat → QString → QString
  | _, [] => []
  | skip + 1, _ :: s => replaceMarkers args skip s
  | 0, c :: s =>
    match (markerAt (c :: s)).bind fun m => (args.lookup m.1).map fun a => (a, m.2) with
    | some (a, length) => a ++ replaceMarkers args (length - 1) s
    | none => c :: replaceMarkers args 0 s

/-- The numbers of the place markers, from the lowest on. -/
def markers (s : QString) : List Nat :=
  (List.range 100).filter fun n => s.tails.any fun t => (markerAt t).any (·.1 = n)

/-- `QString::arg( a, b )`: both arguments are put in in one pass. -/
def argBoth (s a b : QString) : QString := replaceMarkers ((markers s).zip [a, b]) 0 s

end QString

namespace Index

section Qt

variable [Qt]

open Codec Inference.Sparql

/-! ### The texts -/

/-- The query for the resources. -/
def resourcesQuery : QString := "select distinct ?r where \x7b ?r ?p ?o . \x7d".toList

/-- The texts of `filters`. -/
def filters (forceIndexPredicates : List QUrl) : List QString :=
  "(isLiteral(?o) && str(?o)!='')".toList ::
    forceIndexPredicates.map fun p => QString.arg "?p = %1".toList (Node.toN3 [] (.ofUri p)).1

/-- The query for the statements of a resource. -/
def statementsQuery (res : Node) (forceIndexPredicates : List QUrl) : QString :=
  QString.argBoth "select distinct ?p ?o where \x7b %1 ?p ?o . FILTER(%2) . \x7d".toList
    (Node.toN3 [] res).1 (Inference.Rule.join " || ".toList (filters forceIndexPredicates))

omit [Qt] in
theorem argBoth_statementsQuery (a b : QString) :
    QString.argBoth "select distinct ?p ?o where \x7b %1 ?p ?o . FILTER(%2) . \x7d".toList a b =
      "select distinct ?p ?o where \x7b ".toList ++ (a ++ (" ?p ?o . FILTER(".toList ++ (b ++ ") . \x7d".toList))) :=
  (rfl)

/-! ### What is read in them -/

/-- A label of a blank node. -/
def isLabel (s : QString) : Bool :=
  s.head?.any isNameStart && s.all (fun c => isNameChar c || c == '-' || c == '.') && s.getLast? != some '.'

/-- The subject of the triple pattern: a resource, or `none` for a blank node, which is a variable. -/
def readSubject : Reader Char (Option Node) := do
  let c ← symbol
  if c = '<' then do
    let uri ← readIri
    expect ' '
    pure (some (.ofUri uri))
  else do
    require (c = '_')
    expect ':'
    let label ← through ' '
    require (isLabel label)
    pure none

/-- A further alternative of the filter. -/
def readForced : Reader Char QUrl := do
  word " || ?p = <".toList
  readIri

def readStatements : Reader Char (Option Node × List QUrl) := do
  word "select distinct ?p ?o where \x7b ".toList
  let subject ← readSubject
  word "?p ?o . FILTER((isLiteral(?o) && str(?o)!='')".toList
  let forced ← manyThrough ')' readForced
  word " . \x7d".toList
  pure (subject, forced)

/-- The subject of the pattern and the predicates of the filter. -/
def parse (query : QString) : Option (Option Node × List QUrl) :=
  match readStatements query with
  | (some statements, []) => some statements
  | _ => none

/-- The filter lets the statement through. -/
def Passes (forced : List QUrl) (s : Statement) : Prop :=
  (s.object.isLiteral = true ∧ s.object.toString ≠ []) ∨ ∃ p ∈ forced, s.predicate = .ofUri p

instance (forced : List QUrl) (s : Statement) : Decidable (Passes forced s) := by
  unfold Passes
  infer_instance

/-- The rows of a query, by the nodes of its variables. -/
def pairs (rows : List BindingSet) : List (Node × Node) := rows.map fun row => (row.value ['p'], row.value ['o'])

/-- `executeQuery` returns the solutions of the two queries, each one once. -/
structure Answers (executeQuery : QString → Inference.Store → List BindingSet) : Prop where
  distinctResources : ∀ store, ((executeQuery resourcesQuery store).map (·.value ['r'])).Nodup
  resources : ∀ store r, r ∈ (executeQuery resourcesQuery store).map (·.value ['r']) ↔
    ∃ s ∈ store, s.subject = r
  distinctPairs : ∀ query store subject forced, parse query = some (subject, forced) →
    (pairs (executeQuery query store)).Nodup
  pairs : ∀ query store subject forced, parse query = some (subject, forced) →
    ∀ row, row ∈ pairs (executeQuery query store) ↔
      ∃ s ∈ store, (∀ r ∈ subject, s.subject = r) ∧ Passes forced s ∧ (s.predicate, s.object) = row

/-! ### The texts are read as they are meant -/

omit [Qt] in
theorem notMem_of_isLabel {s : QString} (h : isLabel s = true) : ' ' ∉ s := by
  intro hMem
  simp only [isLabel, Bool.and_eq_true, List.all_eq_true] at h
  have := h.1.2 ' ' hMem
  revert this
  decide

theorem reads_subject_resource {u : QUrl} (hu : u.isEmpty = false) :
    Reads readSubject ('<' :: (u.encoded ++ ['>', ' '])) (some (.resource u hu)) := by
  refine (Reads.symbol '<').bind ?_
  rw [if_pos rfl]
  have := (reads_iri u).bind (f := fun uri => expect ' ' >>= fun _ => pure (some (Node.ofUri uri)))
    (Reads.expect ' ').bind_pure
  rw [Node.ofUri_self u hu, List.append_assoc] at this
  exact this

theorem reads_subject_blank {id : QString} (h : isLabel id = true) :
    Reads readSubject ('_' :: ':' :: (id ++ [' '])) none := by
  refine (Reads.symbol '_').bind ?_
  rw [if_neg (by decide)]
  refine Reads.bind_require (by decide) ((Reads.expect ':').bind ?_)
  have := (Reads.through (notMem_of_isLabel h)).bind
    (f := fun label => require (isLabel label) >>= fun _ => pure (none : Option Node))
    (Reads.bind_require h (Reads.pure _))
  rwa [List.append_nil] at this

/-- The subject that a query for the statements of a node has. -/
def subjectOf (res : Node) : Option Node := if res.isBlank then none else some res

/-- The query for the statements of the node is well-formed. -/
def Queryable : Node → Prop
  | .resource _ _ => True
  | .blank id _ => isLabel id = true
  | _ => False

theorem reads_subject {res : Node} (h : Queryable res) :
    Reads readSubject ((Node.toN3 [] res).1 ++ [' ']) (subjectOf res) := by
  cases res with
  | resource u hu =>
    rw [Node.toN3_resource, List.cons_append, List.append_assoc]
    exact reads_subject_resource hu
  | blank id hId =>
    rw [Node.toN3_blank _ hId]
    exact reads_subject_blank h
  | empty | literal => cases h

/-- The text of the filter, alternative by alternative. -/
theorem join_filters {forced : List QUrl} (h : ∀ p ∈ forced, p.isEmpty = false) :
    Inference.Rule.join " || ".toList (filters forced) = "(isLiteral(?o) && str(?o)!='')".toList ++
      forced.flatMap fun p => " || ?p = <".toList ++ (p.encoded ++ ['>']) := by
  rw [filters, join_cons, List.flatMap_map]
  congr 1
  refine List.flatMap_congr fun p hp => ?_
  rw [Node.ofUri_self p (h p hp), Node.toN3_resource]
  have hArg : ∀ a : QString, QString.arg "?p = %1".toList a = "?p = ".toList ++ a := fun a => by
    rw [show QString.arg "?p = %1".toList a = "?p = ".toList ++ (a ++ []) from rfl, List.append_nil]
  rw [hArg]
  rfl

/-- The query for the statements of a node is read as it is meant, a blank node apart. -/
theorem parse_statementsQuery {res : Node} {forced : List QUrl} (hRes : Queryable res)
    (hForced : ∀ p ∈ forced, p.isEmpty = false) :
    parse (statementsQuery res forced) = some (subjectOf res, forced) := by
  have hText : statementsQuery res forced = "select distinct ?p ?o where \x7b ".toList ++
      (((Node.toN3 [] res).1 ++ [' ']) ++ ("?p ?o . FILTER((isLiteral(?o) && str(?o)!='')".toList ++
        ((forced.flatMap (fun p => " || ?p = <".toList ++ (p.encoded ++ ['>'])) ++ [')']) ++ " . \x7d".toList))) := by
    rw [statementsQuery, argBoth_statementsQuery, join_filters hForced]
    simp only [List.append_assoc]
    rfl
  have hMany : Reads (manyThrough ')' readForced)
      (forced.flatMap (fun p => " || ?p = <".toList ++ (p.encoded ++ ['>'])) ++ [')']) forced := by
    have := Reads.manyThrough (t := ')') (r := readForced) (v := id)
      (w := fun p : QUrl => " || ?p = <".toList ++ (p.encoded ++ ['>'])) forced fun p _ =>
        ⟨(Reads.word _).bind (reads_iri p), ' ', _, rfl, by decide⟩
    rwa [List.map_id] at this
  have hReads : Reads readStatements (statementsQuery res forced) (subjectOf res, forced) := by
    rw [hText]
    exact (Reads.word _).bind ((reads_subject hRes).bind ((Reads.word _).bind (hMany.bind
      (Reads.word _).bind_pure)))
  rw [parse, hReads.run]

/-! ### An implementation of `executeQuery` -/

def executeQuery (query : QString) (store : Inference.Store) : List BindingSet :=
  if query = resourcesQuery then (store.map (·.subject)).dedup.map fun r => BindingSet.empty.insert ['r'] r
  else
    match parse query with
    | some (subject, forced) =>
      ((store.filter fun s => (∀ r ∈ subject, s.subject = r) ∧ Passes forced s).map fun s =>
        (s.predicate, s.object)).dedup.map fun row =>
          (BindingSet.empty.insert ['p'] row.1).insert ['o'] row.2
    | none => []

/-- The query for the resources is none for the statements of a resource. -/
theorem parse_resourcesQuery : parse resourcesQuery = none := by
  have hText : "select distinct ?".toList ++ 'r' :: " where \x7b ?r ?p ?o . \x7d".toList = resourcesQuery := (rfl)
  have hPattern : "select distinct ?".toList ++ 'p' :: " ?o where \x7b ".toList =
      "select distinct ?p ?o where \x7b ".toList := (rfl)
  have hWord := Reads.word_of_ne (by decide : 'r' ≠ 'p') "select distinct ?".toList " ?o where \x7b ".toList
    " where \x7b ?r ?p ?o . \x7d".toList
  rw [hText, hPattern] at hWord
  rw [parse, readStatements, bind_eq_none hWord]

theorem map_executeQuery_resources (store : Inference.Store) :
    (executeQuery resourcesQuery store).map (·.value ['r']) = (store.map (·.subject)).dedup := by
  rw [executeQuery, if_pos rfl, List.map_map]
  refine (List.map_congr_left fun r _ => ?_).trans (List.map_id _)
  simp

theorem pairs_executeQuery {query : QString} {subject : Option Node} {forced : List QUrl}
    (h : parse query = some (subject, forced)) (store : Inference.Store) :
    pairs (executeQuery query store) =
      ((store.filter fun s => (∀ r ∈ subject, s.subject = r) ∧ Passes forced s).map fun s =>
        (s.predicate, s.object)).dedup := by
  have hOther : query ≠ resourcesQuery := by
    rintro rfl
    cases parse_resourcesQuery.symm.trans h
  rw [executeQuery, if_neg hOther, h, pairs, List.map_map]
  refine (List.map_congr_left fun row _ => ?_).trans (List.map_id _)
  simp

theorem answers_executeQuery : Answers executeQuery where
  distinctResources store := by
    rw [map_executeQuery_resources]
    exact List.nodup_dedup _
  resources store r := by
    rw [map_executeQuery_resources, List.mem_dedup, List.mem_map]
  distinctPairs query store subject forced h := by
    rw [pairs_executeQuery h]
    exact List.nodup_dedup _
  pairs query store subject forced h row := by
    rw [pairs_executeQuery h, List.mem_dedup, List.mem_map]
    simp only [List.mem_filter, decide_eq_true_eq, and_assoc]

end Qt

end Index

end Soprano
