import Soprano.Virtuoso.QueryResult

/-! `Virtuoso::QueryResultIteratorBackend`, the iterators over a result, and what a client reads through
them. -/

namespace Soprano

namespace Virtuoso

open ODBC

/-- `QueryResultIteratorBackendPrivate::ResultType` -/
inductive ResultType where
  | unknownResult
  | graphResult
  | askResult
  | bindingResult
  | methodCallResult
deriving DecidableEq

variable [Qt]

/-- `Parser::parseString` of the Turtle parser, if the plugin manager finds one: the statements, and the
error that the parser is left with. -/
abbrev TurtleParser : Type := Option (QString → List Statement × Error)

/-- `QueryResultIteratorBackend`. -/
structure QueryResultIteratorBackend where
  /-- Null once the iterator is closed. -/
  queryResult : Option QueryResult
  bindingNames : List QString
  /-- `bindingCache`, where `bindingCachedFlags` is set. -/
  bindingCache : List (Option Node)
  resultType : ResultType
  askResult : Bool
  /-- The statements of `graphIterator` from its position on, and whether `next` was not called yet. -/
  graphStatements : List Statement
  graphFirst : Bool
  methodCallResultIterated : Bool
  /-- `m_supportEmptyGraphs` of the model. -/
  supportEmptyGraphs : Bool
  lastError : Error

/-- A valid node for the default graph. -/
def defaultGraphNode : Node := .resource defaultGraph rfl

namespace QueryResultIteratorBackend

/-- The columns of the only column of a call. -/
def isCall (names : List QString) : Bool :=
  names = ["callret-0".toList] ||
    -- try to be 6.1.1 compatible
    names = ["fmtaggret-".toList]

/-- The error without a Turtle parser. -/
def noParserError : Error :=
  .ofMessage "Failed to load Turtle parser for graph data from Virtuoso server".toList
    ErrorCode.errorUnknown.code

/-- The constructor's case of a call that returned a node: the node may be a serialized graph. -/
def ofCallData (parser : TurtleParser) (backend : QueryResultIteratorBackend) (node : Node)
    (result : QueryResult) : QueryResultIteratorBackend :=
  if result.lastError.code ≠ 0 then
    { backend with queryResult := some result, lastError := result.lastError }
  else if result.isBlob 1 then
    match parser with
    | some parseString =>
      { backend with
        queryResult := some result
        resultType := .graphResult
        graphStatements := (parseString node.toString).1
        lastError := (parseString node.toString).2 }
    | none =>
      { backend with
        queryResult := some result
        resultType := .graphResult
        lastError := noParserError }
  else
    { backend with
      queryResult := some result
      resultType := .methodCallResult
      bindingCache := [some node] }

/-- The constructor's case of a call. -/
def ofCall (parser : TurtleParser) (backend : QueryResultIteratorBackend) (result : QueryResult) :
    QueryResultIteratorBackend :=
  if result.fetchRow.1 then
    let data := result.fetchRow.2.getData 1
    ofCallData parser backend data.1 data.2
  else { backend with
    queryResult := some result.fetchRow.2
    lastError := result.fetchRow.2.lastError }

/-- The constructor. -/
def ofResult (parser : TurtleParser) (supportEmptyGraphs : Bool) (resultSet : ResultSet) :
    QueryResultIteratorBackend :=
  let result := QueryResult.ofResultSet resultSet
  let names := result.resultColumns
  let backend : QueryResultIteratorBackend :=
    ⟨some result, names, names.map fun _ => none, .unknownResult, false, [], true, false,
      supportEmptyGraphs, .none⟩
  if names = ["__ASK_RETVAL".toList] then
    -- virtuoso returns an empty result set for false boolean results, otherwise a single row
    let fetched := result.fetchRow
    if fetched.1 then
      let data := fetched.2.getData 1
      { backend with
        queryResult := some data.2
        resultType := .askResult
        askResult := data.1.toLiteral.toInt ≠ 0 }
    else { backend with queryResult := some fetched.2, resultType := .askResult }
  else if isCall names then ofCall parser backend result
  else { backend with resultType := .bindingResult }

/-- The loop of `next` over the columns from `i` on: the values that are cached, the error that ended
the loop, and the result behind it. -/
def cacheRow (result : QueryResult) (i : Nat) : Nat → List (Option Node) × Error × QueryResult
  | 0 => ([], .none, result)
  | columns + 1 =>
    let data := result.getData (i + 1)
    if data.2.lastError.code ≠ 0 then
      (some data.1 :: List.replicate columns none, data.2.lastError, data.2)
    else
      let rest := cacheRow data.2 (i + 1) columns
      (some data.1 :: rest.1, rest.2)

/-- The case of `next` for a result of rows: the values are cached here, since getting them may fail. -/
def nextRow (backend : QueryResultIteratorBackend) (result : QueryResult) :
    Bool × QueryResultIteratorBackend :=
  if result.fetchRow.1 then
    let cached := cacheRow result.fetchRow.2 0 backend.bindingNames.length
    (cached.2.1.code = 0, { backend with
      queryResult := some cached.2.2
      bindingCache := cached.1
      lastError := if cached.2.1.code = 0 then backend.lastError else cached.2.1 })
  else (false, { backend with
    queryResult := some result.fetchRow.2
    bindingCache := backend.bindingNames.map fun _ => none })

/-- `QueryResultIteratorBackend::next` -/
def next (backend : QueryResultIteratorBackend) : Bool × QueryResultIteratorBackend :=
  match backend.resultType, backend.queryResult with
  | .graphResult, _ =>
    let statements :=
      if backend.graphFirst then backend.graphStatements else backend.graphStatements.tail
    (!statements.isEmpty, { backend with graphStatements := statements, graphFirst := false })
  | .bindingResult, some result => backend.nextRow result
  | .bindingResult, none =>
    (false, { backend with bindingCache := backend.bindingNames.map fun _ => none })
  | .methodCallResult, _ =>
    if backend.methodCallResultIterated then (false, backend)
    else (true, { backend with methodCallResultIterated := true })
  | .askResult, _ | .unknownResult, _ => (false, backend)

/-- `QueryResultIteratorBackend::isGraph` -/
def isGraph (backend : QueryResultIteratorBackend) : Bool :=
  backend.resultType = .graphResult ||
    (backend.resultType = .bindingResult && backend.bindingNames = [['S'], ['P'], ['O']])

/-- `QueryResultIteratorBackend::isBinding` -/
def isBinding (backend : QueryResultIteratorBackend) : Bool :=
  backend.resultType = .bindingResult || backend.resultType = .methodCallResult

/-- `QueryResultIteratorBackend::isBool` -/
def isBool (backend : QueryResultIteratorBackend) : Bool := backend.resultType = .askResult

/-- `QueryResultIteratorBackend::boolValue` -/
def boolValue (backend : QueryResultIteratorBackend) : Bool := backend.askResult

/-- `QueryResultIteratorBackend::binding( int )` -/
def bindingAt (backend : QueryResultIteratorBackend) (offset : Int) :
    Node × QueryResultIteratorBackend :=
  match backend.queryResult with
  | none => (.empty, backend)
  | some result =>
    if backend.isBinding ∧ offset < backend.bindingNames.length ∧ 0 ≤ offset then
      match backend.bindingCache[offset.toNat]? with
      | some (some node) => (node, backend)
      | _ =>
        let data := result.getData (offset.toNat + 1)
        -- convert the default graph back to the empty graph
        let node :=
          if backend.supportEmptyGraphs && data.1.operatorEq defaultGraphNode then Node.empty
          else data.1
        (node, { backend with
          queryResult := some data.2
          bindingCache := backend.bindingCache.set offset.toNat (some node)
          lastError := data.2.lastError })
    else (.empty, backend)

/-- `bindingIndexHash`: the last column of a name. -/
def bindingIndex (names : List QString) (name : QString) : Option Nat :=
  (names.reverse.idxOf? name).map fun i => names.length - 1 - i

/-- `QueryResultIteratorBackend::binding( const QString& )` -/
def binding (backend : QueryResultIteratorBackend) (name : QString) :
    Node × QueryResultIteratorBackend :=
  match bindingIndex backend.bindingNames name with
  | some i => backend.bindingAt i
  | none =>
    (.empty, { backend with
      lastError := .ofMessage ("Invalid binding name: ".toList ++ name)
        ErrorCode.errorInvalidArgument.code })

/-- `QueryResultIteratorBackend::currentStatement` -/
def currentStatement (backend : QueryResultIteratorBackend) :
    Statement × QueryResultIteratorBackend :=
  if backend.resultType = .graphResult then (backend.graphStatements.headD .empty, backend)
  else if backend.isGraph then
    let s := backend.bindingAt 0
    let p := s.2.bindingAt 1
    let o := p.2.bindingAt 2
    (⟨s.1, p.1, o.1, .empty⟩, o.2)
  else (.empty, backend)

/-- The loop of `current` over the columns from `i` on. -/
def currentFrom (backend : QueryResultIteratorBackend) (i : Nat) (bindings : BindingSet) :
    List QString → BindingSet × QueryResultIteratorBackend
  | [] => (bindings, backend)
  | name :: names =>
    let value := backend.bindingAt i
    currentFrom value.2 (i + 1) (bindings.insert name value.1) names

/-- `QueryResultIteratorBackend::current`, of the base class. -/
def current (backend : QueryResultIteratorBackend) : BindingSet × QueryResultIteratorBackend :=
  backend.currentFrom 0 .empty backend.bindingNames

/-- `QueryResultIteratorBackend::close`; the iterator of a parser is not affected. -/
def close (backend : QueryResultIteratorBackend) : QueryResultIteratorBackend :=
  { backend with queryResult := none }

end QueryResultIteratorBackend

/-! ### Iterators over a result -/

namespace QueryResultIterator

/-- `Iterator::next` -/
def next (backend : QueryResultIteratorBackend) : Bool × QueryResultIteratorBackend :=
  if backend.next.1 then backend.next else (false, backend.next.2.close)

/-- The loop of `Iterator::allElements`, over as many elements as the first argument allows. -/
def allElements {T : Type}
    (read : QueryResultIteratorBackend → T × QueryResultIteratorBackend) :
    Nat → QueryResultIteratorBackend → List T
  | 0, _ => []
  | n + 1, backend =>
    if (next backend).1 then
      let element := read (next backend).2
      element.1 :: allElements read n element.2
    else []

/-- How often `next` can return true. -/
def elements (backend : QueryResultIteratorBackend) : Nat :=
  match backend.resultType with
  | .graphResult =>
    if backend.graphFirst then backend.graphStatements.length
    else backend.graphStatements.length - 1
  | .bindingResult => (backend.queryResult.map fun result => result.rows.length).getD 0
  | .methodCallResult => if backend.methodCallResultIterated then 0 else 1
  | .askResult | .unknownResult => 0

theorem cacheRow_rows (result : QueryResult) (i columns : Nat) :
    (QueryResultIteratorBackend.cacheRow result i columns).2.2.rows = result.rows := by
  induction columns generalizing result i with
  | zero => rfl
  | succ columns ih =>
    unfold QueryResultIteratorBackend.cacheRow
    simp only
    split
    · exact result.getData_rows (i + 1)
    · exact (ih _ _).trans (result.getData_rows (i + 1))

/-- Each time that `next` returns true, it has one element less to return. -/
theorem elements_next {backend : QueryResultIteratorBackend} (h : (next backend).1 = true) :
    elements (next backend).2 < elements backend := by
  have hNext : backend.next.1 = true := by
    unfold next at h
    split at h
    · assumption
    · cases h
  rw [next, if_pos hNext]
  unfold QueryResultIteratorBackend.next at hNext ⊢
  split at hNext
  · rename_i hType
    simp only [Bool.not_eq_true', List.isEmpty_eq_false_iff] at hNext
    have hLength := List.length_pos_of_ne_nil hNext
    simp only [elements, hType]
    cases hFirst : backend.graphFirst with
    | true =>
      simp only [hFirst, if_true] at hLength ⊢
      simp
      omega
    | false =>
      simp only [hFirst, Bool.false_eq_true, if_false, List.length_tail] at hLength ⊢
      omega
  · rename_i result hType hResult
    unfold QueryResultIteratorBackend.nextRow at hNext ⊢
    split at hNext
    · rename_i hFetched
      have hLength := QueryResult.length_fetchRow hFetched
      rw [if_pos hFetched]
      simp only [elements, hType, hResult, Option.map_some, Option.getD_some, cacheRow_rows]
      omega
    · cases hNext
  · cases hNext
  · rename_i hType
    split at hNext
    · cases hNext
    · rename_i hIterated
      simp [elements, hType, hIterated]
  · cases hNext
  · cases hNext

theorem elements_bindingAt (backend : QueryResultIteratorBackend) (offset : Int) :
    elements (backend.bindingAt offset).2 = elements backend := by
  unfold QueryResultIteratorBackend.bindingAt
  cases hResult : backend.queryResult with
  | none => rfl
  | some result =>
    simp only
    split
    · split
      · rfl
      · simp [elements, hResult]
    · rfl

theorem elements_binding (backend : QueryResultIteratorBackend) (name : QString) :
    elements (backend.binding name).2 = elements backend := by
  unfold QueryResultIteratorBackend.binding
  split
  · exact elements_bindingAt _ _
  · rfl

theorem next_eq_false {backend : QueryResultIteratorBackend} (h : elements backend = 0) :
    (next backend).1 = false := by
  by_contra hNext
  have := elements_next (Bool.not_eq_false _ ▸ hNext)
  omega

/-- Where reading an element leaves the iterator at its place, it returns no more than it has. -/
theorem allElements_eq {T : Type}
    {read : QueryResultIteratorBackend → T × QueryResultIteratorBackend}
    (hRead : ∀ backend, elements (read backend).2 = elements backend) {n m : Nat}
    {backend : QueryResultIteratorBackend} (hn : elements backend ≤ n)
    (hm : elements backend ≤ m) : allElements read n backend = allElements read m backend := by
  induction n generalizing m backend with
  | zero =>
    cases m with
    | zero => rfl
    | succ m => simp [allElements, next_eq_false (Nat.le_zero.mp hn)]
  | succ n ih =>
    cases m with
    | zero => simp [allElements, next_eq_false (Nat.le_zero.mp hm)]
    | succ m =>
      simp only [allElements]
      split
      · rename_i hNext
        have hLess := elements_next hNext
        have hSame := hRead (next backend).2
        rw [ih (m := m) (by omega) (by omega)]
      · rfl

/-- `iterateBindings( offset ).allNodes()` -/
def allNodes (backend : QueryResultIteratorBackend) (offset : Int) : List Node :=
  allElements (fun backend => backend.bindingAt offset) (elements backend) backend

/-- The names of a `QueryResultStatementConstructIteratorBackend`, which are empty for the nodes of its
template statement. -/
structure StatementBindings where
  subject : QString
  predicate : QString
  object : QString
  context : QString

/-- A node of the template, or the value of a variable. -/
def constructNode (backend : QueryResultIteratorBackend) (template : Node) (name : QString) :
    Node × QueryResultIteratorBackend :=
  if name.isEmpty then (template, backend) else backend.binding name

/-- `QueryResultStatementConstructIteratorBackend::current` -/
def constructStatement (template : Statement) (names : StatementBindings)
    (backend : QueryResultIteratorBackend) : Statement × QueryResultIteratorBackend :=
  let context := constructNode backend template.context names.context
  let subject := constructNode context.2 template.subject names.subject
  let predicate := constructNode subject.2 template.predicate names.predicate
  let object := constructNode predicate.2 template.object names.object
  (⟨subject.1, predicate.1, object.1, context.1⟩, object.2)

/-- `iterateStatementsFromBindings( … ).allStatements()` -/
def allStatements (template : Statement) (names : StatementBindings)
    (backend : QueryResultIteratorBackend) : List Statement :=
  allElements (constructStatement template names) (elements backend) backend

theorem elements_constructNode (backend : QueryResultIteratorBackend) (template : Node)
    (name : QString) : elements (constructNode backend template name).2 = elements backend := by
  unfold constructNode
  split
  · rfl
  · exact elements_binding backend name

/-- The loop over the nodes of a variable ends with the iterator. -/
theorem allNodes_eq {backend : QueryResultIteratorBackend} {n : Nat} (offset : Int)
    (h : elements backend ≤ n) :
    allElements (fun backend => backend.bindingAt offset) n backend = allNodes backend offset :=
  allElements_eq (fun backend => elements_bindingAt backend offset) h le_rfl

/-- So does the loop over the statements. -/
theorem allStatements_eq {backend : QueryResultIteratorBackend} {n : Nat} (template : Statement)
    (names : StatementBindings) (h : elements backend ≤ n) :
    allElements (constructStatement template names) n backend =
      allStatements template names backend := by
  refine allElements_eq (fun backend => ?_) h le_rfl
  simp only [constructStatement, elements_constructNode]

end QueryResultIterator

end Virtuoso

end Soprano
