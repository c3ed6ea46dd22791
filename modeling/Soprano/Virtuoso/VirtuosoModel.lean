import Soprano.N3
import Soprano.Virtuoso.QueryResultIteratorBackend

/-! `VirtuosoModel`: the commands and queries that its operations send, and what becomes of the results
and errors. -/

namespace Soprano

namespace Virtuoso

open ODBC

section Qt

variable [Qt]

def s_queryPrefix : QString := "sparql ".toList

/-! ### Graph patterns -/

/-- `nodeToN3`: Virtuoso takes blank nodes in brackets. -/
def nodeToN3 (typeHash : TypeHash) (node : Node) : QString × TypeHash :=
  let n3 := node.toN3 typeHash
  if node.isBlank then ('<' :: (n3.1 ++ ['>']), n3.2) else n3

/-- The place of a parameterized node. -/
def batchParams : QString := "bif:__rdf_long_from_batch_params(??,??,??)".toList

def quotedBatchParams : QString := '\x60' :: (batchParams ++ ['\x60'])

/-- The text for a node of a pattern: a variable for an empty one. -/
def termPattern (typeHash : TypeHash) (varText placeholder : QString) (parameterized : Bool)
    (node : Node) : QString × TypeHash :=
  if node.isValid then
    if parameterized then (placeholder, typeHash) else nodeToN3 typeHash node
  else (varText, typeHash)

/-- The object that is written in the place of a boolean or a byte array. -/
def rewritten (fakeBooleans : Bool) (object : Node) : Node :=
  match object.toLiteral.variant with
  | .bool b =>
    if fakeBooleans then
      .ofLiteral (.fromString (if b then "true".toList else "false".toList) fakeBooleanType)
    else object
  | .byteArray _ =>
    .ofLiteral (.fromString object.toLiteral.toString fakeBase64BinaryType)
  | _ => object

/-- The text for the object of a pattern. -/
def objectPattern (typeHash : TypeHash) (fakeBooleans parameterized : Bool) (object : Node) :
    QString × TypeHash :=
  termPattern typeHash "?o".toList quotedBatchParams (parameterized && !object.isBlank)
    (if parameterized && !object.isBlank then object else rewritten fakeBooleans object)

/-- The triple of a pattern. -/
def triplePattern (typeHash : TypeHash) (fakeBooleans : Bool) (s : Statement)
    (parameterized : Bool) : QString × TypeHash :=
  let subject := termPattern typeHash "?s".toList quotedBatchParams
    (parameterized && !s.subject.isBlank) s.subject
  let predicate := termPattern subject.2 "?p".toList quotedBatchParams parameterized s.predicate
  let object := objectPattern predicate.2 fakeBooleans parameterized s.object
  (subject.1 ++ ' ' :: (predicate.1 ++ ' ' :: object.1), object.2)

/-- `VirtuosoModelPrivate::statementToConstructGraphPattern` -/
def statementToConstructGraphPattern (typeHash : TypeHash) (fakeBooleans : Bool) (s : Statement)
    (withContext parameterized : Bool) : QString × TypeHash :=
  if withContext then
    let graph := termPattern typeHash "?g".toList batchParams
      (parameterized && !s.context.isBlank) s.context
    let triple := triplePattern graph.2 fakeBooleans s parameterized
    ("graph ".toList ++ graph.1 ++ " \x7b ".toList ++ triple.1 ++ " . \x7d".toList, triple.2)
  else triplePattern typeHash fakeBooleans s parameterized

/-- The nodes that `addStatement` binds. -/
def paramNodes (statement : Statement) : List Node :=
  (if statement.context.isValid && !statement.context.isBlank then [statement.context]
    else [defaultGraphNode]) ++
  (if statement.subject.isValid && !statement.subject.isBlank then [statement.subject] else []) ++
  (if statement.predicate.isValid then [statement.predicate] else []) ++
  (if statement.object.isValid && !statement.object.isBlank then [statement.object] else [])

/-- The signals of a model. -/
inductive Signal where
  | statementAdded (s : Statement)
  | statementsAdded
  | statementRemoved (s : Statement)
  | statementsRemoved
deriving DecidableEq

end Qt

/-- What became of an SQL execution that an operation asked for. -/
inductive Execution where
  | unconnected
  | query (succeeds : Bool)
  | command (succeeds : Bool)
deriving DecidableEq

/-- `VirtuosoModel`, with the table of data type texts of the process and the last error of the thread. -/
structure VirtuosoModel (S : Type) where
  connectionPool : ConnectionPool S
  virtuosoVersion : QString
  noStatementSignals : Bool
  fakeBooleans : Bool
  supportEmptyGraphs : Bool
  typeHash : TypeHash
  lastError : Error

/-- What an operation leaves: its error code, the signals that it emitted, what became of its SQL
executions, and the model. -/
structure Outcome [Qt] (S : Type) where
  code : ErrorCode
  signals : List Signal
  executions : List Execution
  model : VirtuosoModel S

namespace VirtuosoModel

variable {S : Type} [Qt]

/-- `ErrorCache::setError` -/
def setError (model : VirtuosoModel S) (error : Error) : VirtuosoModel S :=
  { model with lastError := if error.code ≠ 0 then error else .none }

/-- An operation that returns the code of the last error. -/
def fail (model : VirtuosoModel S) (error : Error) (executions : List Execution) : Outcome S :=
  ⟨.convertErrorCode (model.setError error).lastError.code.toInt, [], executions,
    model.setError error⟩

/-- An operation that refuses its argument. -/
def reject (model : VirtuosoModel S) (message : String) (signals : List Signal)
    (executions : List Execution) : Outcome S :=
  ⟨.errorInvalidArgument, signals, executions,
    model.setError (.ofMessage message.toList ErrorCode.errorInvalidArgument.code)⟩

/-- The statement in the default graph, if it has no context. -/
def withDefaultGraph (s : Statement) : Statement :=
  if s.context.isValid then s else { s with context := defaultGraphNode }

/-! ### Queries -/

/-- `VirtuosoModelPrivate::sqlQuery` -/
def sqlQuery (driver : Driver S) (parser : TurtleParser) (model : VirtuosoModel S)
    (query : QString) : Option QueryResultIteratorBackend × Execution × VirtuosoModel S :=
  match model.connectionPool.connection driver with
  | (none, pool) =>
    (none, .unconnected, { model with connectionPool := pool }.setError pool.lastError)
  | (some conn, pool) =>
    match conn.execute driver query [] with
    | (some result, conn) =>
      (some (.ofResult parser model.supportEmptyGraphs result), .query true,
        { model with connectionPool := pool.update conn, lastError := .none })
    | (none, conn) =>
      (none, .query false,
        { model with connectionPool := pool.update conn }.setError conn.lastError)

/-- `VirtuosoModelPrivate::sparqlQuery` -/
def sparqlQuery (driver : Driver S) (parser : TurtleParser) (model : VirtuosoModel S)
    (query : QString) : Option QueryResultIteratorBackend × Execution × VirtuosoModel S :=
  model.sqlQuery driver parser (s_queryPrefix ++ query)

/-- The pattern of a statement, and the model behind it. -/
def pattern (model : VirtuosoModel S) (s : Statement) (withContext parameterized : Bool) :
    QString × VirtuosoModel S :=
  let text := statementToConstructGraphPattern model.typeHash model.fakeBooleans s withContext
    parameterized
  (text.1, { model with typeHash := text.2 })

/-- The text of a context, and the model behind it. -/
def contextToN3 (model : VirtuosoModel S) (context : Node) : QString × VirtuosoModel S :=
  let text := context.toN3 model.typeHash
  (text.1, { model with typeHash := text.2 })

/-- The query of `containsAnyStatement`. -/
def askQuery (model : VirtuosoModel S) (statement : Statement) : QString × VirtuosoModel S :=
  if statement.context.isValid then
    let context := model.contextToN3 statement.context
    let triple := context.2.pattern statement false false
    ("ask from ".toList ++ context.1 ++ " where \x7b ".toList ++ triple.1 ++ " . \x7d".toList,
      triple.2)
  else
    let quad := model.pattern statement true false
    ("ask where \x7b ".toList ++ quad.1 ++ " . \x7d".toList, quad.2)

/-- `VirtuosoModel::containsAnyStatement` -/
def containsAnyStatement (driver : Driver S) (parser : TurtleParser) (model : VirtuosoModel S)
    (statement : Statement) : Bool × VirtuosoModel S :=
  let query := model.askQuery statement
  let result := query.2.sparqlQuery driver parser query.1
  ((result.1.map QueryResultIteratorBackend.boolValue).getD false, result.2.2)

/-- `VirtuosoModel::containsStatement` -/
def containsStatement (driver : Driver S) (parser : TurtleParser) (model : VirtuosoModel S)
    (statement : Statement) : Bool × VirtuosoModel S :=
  if !statement.isValid then
    (false, model.setError (.ofMessage
      "Cannot call containsStatement on invalid statements".toList
      ErrorCode.errorInvalidArgument.code))
  else if !statement.context.isValid && !model.supportEmptyGraphs then
    -- the code returns the error code as a boolean
    (true, model.setError (.ofMessage "Found invalid context".toList
      ErrorCode.errorInvalidArgument.code))
  else model.containsAnyStatement driver parser (withDefaultGraph statement)

/-- The query of `listStatements`. -/
def listQuery (model : VirtuosoModel S) (template : Statement) : QString × VirtuosoModel S :=
  if template.context.isValid then
    let context := model.contextToN3 template.context
    let triple := context.2.pattern template false false
    ("select * from ".toList ++ context.1 ++ " where \x7b ".toList ++ triple.1 ++
      " . \x7d".toList, triple.2)
  else
    let quad := model.pattern template true false
    ("select * where \x7b ".toList ++ quad.1 ++ " . FILTER(?g != <".toList ++
      openlinkVirtualGraph.encoded ++ ">) . \x7d".toList, quad.2)

/-- The variables of a listing. -/
def listBindings (template : Statement) : QueryResultIterator.StatementBindings :=
  ⟨if template.subject.isValid then [] else ['s'],
    if template.predicate.isValid then [] else ['p'],
    if template.object.isValid then [] else ['o'],
    if template.context.isValid then [] else ['g']⟩

/-- `VirtuosoModel::listStatements`, with all statements of the iterator. -/
def listStatements (driver : Driver S) (parser : TurtleParser) (model : VirtuosoModel S)
    (template : Statement) : List Statement × VirtuosoModel S :=
  let query := model.listQuery template
  let result := query.2.sparqlQuery driver parser query.1
  ((result.1.map
      (QueryResultIterator.allStatements template (listBindings template))).getD [],
    result.2.2)

/-! ### Changes -/

/-- `VirtuosoModel::addStatement` -/
def addStatement (driver : Driver S) (model : VirtuosoModel S) (statement : Statement) :
    Outcome S :=
  if !statement.isValid then model.reject "Cannot add invalid statement." [] []
  else if !statement.context.isValid && !model.supportEmptyGraphs then
    model.reject "Cannot add statement with invalid context" [] []
  else
    let pattern := model.pattern (withDefaultGraph statement) true true
    let insert := "sparql insert into ".toList ++ pattern.1
    match model.connectionPool.connection driver with
    | (none, pool) =>
      { pattern.2 with connectionPool := pool }.fail pool.lastError [.unconnected]
    | (some conn, pool) =>
      let executed := conn.executeCommand driver insert (paramNodes statement)
      let executions := [Execution.command
        (decide (conn.Succeeds driver insert (paramNodes statement)))]
      let model := { pattern.2 with connectionPool := pool.update executed.2 }
      if executed.1 = .errorNone then
        ⟨.errorNone,
          if model.noStatementSignals then [] else [.statementAdded statement, .statementsAdded],
          executions, { model with lastError := .none }⟩
      else model.fail executed.2.lastError executions

/-- The end of `removeStatement` and of `removeAllStatements`: the command, and the signals that it
emits when it is executed. -/
def executeRemoval (driver : Driver S) (model : VirtuosoModel S) (query : QString)
    (signals : List Signal) : Outcome S :=
  match model.connectionPool.connection driver with
  | (none, pool) => { model with connectionPool := pool }.fail pool.lastError [.unconnected]
  | (some conn, pool) =>
    let command := s_queryPrefix ++ query
    let executed := conn.executeCommand driver command []
    let model := { model with connectionPool := pool.update executed.2 }
    let outcome := model.fail executed.2.lastError
      [.command (decide (conn.Succeeds driver command []))]
    if executed.1 = .errorNone ∧ model.noStatementSignals = false then { outcome with signals }
    else outcome

/-- `VirtuosoModel::removeStatement` -/
def removeStatement (driver : Driver S) (model : VirtuosoModel S) (statement : Statement) :
    Outcome S :=
  if !statement.isValid then model.reject "Cannot remove invalid statement." [] []
  else if !statement.context.isValid && !model.supportEmptyGraphs then
    model.reject "Cannot remove statement with invalid context" [] []
  else if statement.context.isValid && statement.context.uri = openlinkVirtualGraph then
    model.reject
      "Cannot remove statements from the virtual openlink graph. Virtuoso would not like that." [] []
  else
    let pattern := model.pattern (withDefaultGraph statement) true false
    pattern.2.executeRemoval driver ("delete from ".toList ++ pattern.1)
      [.statementRemoved statement, .statementsRemoved]

/-- The end of `removeAllStatements`: a model without empty graphs refuses the default graph when it
has removed its statements. -/
def executeRemoveAll (driver : Driver S) (model : VirtuosoModel S) (query : QString)
    (statement : Statement) : Outcome S :=
  if statement.context.operatorEq defaultGraphNode then
    if model.supportEmptyGraphs then
      model.executeRemoval driver query
        [.statementsRemoved, .statementRemoved { statement with context := .empty }]
    else
      let outcome := model.executeRemoval driver query [.statementsRemoved]
      if outcome.signals = [] then outcome
      else outcome.model.reject "Cannot remove statement with invalid context" outcome.signals
        outcome.executions
  else
    model.executeRemoval driver query [.statementsRemoved, .statementRemoved statement]

/-- `VirtuosoModel::removeAllStatements` of a statement with a context. -/
def removeFromContext (driver : Driver S) (model : VirtuosoModel S) (statement : Statement) :
    Outcome S :=
  if statement.context.uri = openlinkVirtualGraph then
    model.reject
      "Cannot remove statements from the virtual openlink graph. Virtuoso would not like that." [] []
  else if !statement.subject.isValid && !statement.predicate.isValid &&
      !statement.object.isValid then
    -- Virtuoso docu says this might be faster
    let context := model.contextToN3 statement.context
    context.2.executeRemoveAll driver ("clear graph ".toList ++ context.1) statement
  else
    let context := model.contextToN3 statement.context
    let triple := context.2.pattern statement false false
    let quad := triple.2.pattern statement true false
    quad.2.executeRemoveAll driver
      ("delete from ".toList ++ context.1 ++ " \x7b ".toList ++ triple.1 ++
        " \x7d where \x7b ".toList ++ quad.1 ++ " \x7d".toList) statement

/-- The loop of `removeAllStatements` over the contexts. -/
def removeFromContexts (driver : Driver S) (statement : Statement) :
    List Node → VirtuosoModel S → Outcome S
  | [], model => ⟨.errorNone, [], [], model⟩
  | node :: nodes, model =>
    if !node.isValid && !model.supportEmptyGraphs then
      model.reject "Cannot remove statement with invalid context" [] []
    else
      let context := if node.isValid then node else defaultGraphNode
      let removed := removeFromContext driver model { statement with context := context }
      if removed.code ≠ .errorNone then removed
      else
        let rest := removeFromContexts driver statement nodes removed.model
        ⟨rest.code, removed.signals ++ rest.signals, removed.executions ++ rest.executions,
          rest.model⟩

/-- `VirtuosoModel::removeAllStatements` -/
def removeAllStatements (driver : Driver S) (parser : TurtleParser) (model : VirtuosoModel S)
    (statement : Statement) : Outcome S :=
  if statement.context.isValid then removeFromContext driver model statement
  else
    let quad := model.pattern statement true false
    if "6.1.5".toList ≤ model.virtuosoVersion then
      quad.2.executeRemoveAll driver
        ("delete \x7b ".toList ++ quad.1 ++ " \x7d where \x7b ".toList ++ quad.1 ++ " \x7d".toList)
        statement
    else
      -- versions before need the graphs one by one
      let result := quad.2.sparqlQuery driver parser
        ("select distinct ?g where \x7b ".toList ++ quad.1 ++ " . FILTER(?g != <".toList ++
          openlinkVirtualGraph.encoded ++ ">) . \x7d".toList)
      let allContexts := (result.1.map (QueryResultIterator.allNodes · 0)).getD []
      let removed := removeFromContexts driver statement allContexts result.2.2
      { removed with executions := result.2.1 :: removed.executions }

end VirtuosoModel

end Virtuoso

end Soprano
