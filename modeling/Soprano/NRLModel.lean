import Soprano.Error
import Soprano.Inference.ParentModel
import Soprano.N3

/-! `NRLModel`: a filter model that enforces cardinalities, and creates and removes graphs together with
the graphs that describe them. -/

namespace Soprano

namespace NRLModel

open Inference Vocabulary

section Qt

variable [Qt]

/-- The calls of the parent model. -/
inductive Call where
  | executeQuery
  | listStatements
  | addStatement
  | removeStatement
  | removeAllStatements
deriving DecidableEq

/-- The error with which the parent answers a call, or `Error.none`. -/
abbrev Answer : Type := Call → Error

/-- A call fails. -/
def Answer.Fails (answer : Answer) (call : Call) : Prop := (answer call).code ≠ 0

instance (answer : Answer) (call : Call) : Decidable (answer.Fails call) :=
  inferInstanceAs (Decidable (_ ≠ _))

/-- What a method returns, the error that is cached, and the statements of the parent. -/
structure Result where
  code : ErrorCode
  lastError : Error
  store : Store

/-- A call of the parent that failed, and changed nothing. -/
def failed (answer : Answer) (call : Call) (store : Store) : Result :=
  ⟨.convertErrorCode (answer call).code.toInt, answer call, store⟩

def invalidArgument (store : Store) : Result :=
  ⟨.errorInvalidArgument, .ofMessage [] ErrorCode.errorInvalidArgument.code, store⟩

/-- `setError( message )`, whose code is `ErrorUnknown`. -/
def unknown (message : QString) (store : Store) : Result :=
  ⟨.errorUnknown, .ofMessage message ErrorCode.errorUnknown.code, store⟩

namespace FilterModel

variable (answer : Answer) (store : Store)

/-- The parent refuses a statement that is not valid. -/
def addStatement (statement : Statement) : Result :=
  if answer.Fails .addStatement then failed answer .addStatement store
  else if statement.isValid then ⟨.errorNone, .none, Store.addStatement store statement⟩
  else invalidArgument store

def removeStatement (statement : Statement) : Result :=
  if answer.Fails .removeStatement then failed answer .removeStatement store
  else if statement.isValid then ⟨.errorNone, .none, Store.removeStatement store statement⟩
  else invalidArgument store

def removeAllStatements (statement : Statement) : Result :=
  if answer.Fails .removeAllStatements then failed answer .removeAllStatements store
  else ⟨.errorNone, .none, Store.removeAllStatements store statement⟩

/-- The statements that the iterator delivers: that of a failed call is not valid. -/
def listStatements (statement : Statement) : List Statement :=
  if answer.Fails .listStatements then [] else Store.listStatements store statement

end FilterModel

/-! ### Cardinalities -/

/-- The template of the query for the cardinalities of a predicate. -/
def cardinalityTemplate : QString :=
  "select ?min ?max ?c where \x7b \x7b <%1> <%2> ?min \x7d UNION ".toList ++
    "\x7b <%1> <%3> ?max \x7d UNION \x7b <%1> <%4> ?c \x7d \x7d".toList

def cardinalityQuery (predicate : Node) : QString :=
  QString.arg (QString.arg (QString.arg (QString.arg cardinalityTemplate predicate.toString)
    (Qt.urlToString NRL.minCardinality)) (Qt.urlToString NRL.maxCardinality))
    (Qt.urlToString NRL.cardinality)

/-- The numbers that `addNrlStatement` collects, -1 where there are none. -/
structure Cardinalities where
  min : Int
  max : Int
  c : Int
deriving DecidableEq

namespace Cardinalities

def initial : Cardinalities := ⟨-1, -1, -1⟩

/-- The values of one row. -/
def read (k : Cardinalities) (row : BindingSet) : Cardinalities :=
  let k :=
    if (row.value "min".toList).isLiteral then
      { k with min := (row.value "min".toList).toLiteral.toInt.toInt }
    else if (row.value "max".toList).isLiteral then
      { k with max := (row.value "max".toList).toLiteral.toInt.toInt }
    else k
  if (row.value "c".toList).isLiteral then
    { k with c := (row.value "c".toList).toLiteral.toInt.toInt }
  else k

def ofRows (rows : List BindingSet) : Cardinalities := rows.foldl read initial

end Cardinalities

/-- The partial statement that the values in place of a new one match. -/
def replacedBy (ignoreContext : Bool) (statement : Statement) : Statement :=
  if ignoreContext then ⟨statement.subject, statement.predicate, .empty, .empty⟩
  else ⟨statement.subject, statement.predicate, .empty, statement.context⟩

/-- The partial statement whose matches are counted: without `ignoreContext`, the context stands where
the object belongs. -/
def countedFor (ignoreContext : Bool) (statement : Statement) : Statement :=
  if ignoreContext then ⟨statement.subject, statement.predicate, .empty, .empty⟩
  else ⟨statement.subject, statement.predicate, statement.context, .empty⟩

section Add

variable (answer : Answer) (ignoreContext : Bool) (store : Store) (statement : Statement)

/-- The simple case: the old values are removed, and what that returns is not looked at. -/
def replace : Result :=
  FilterModel.addStatement answer
    (FilterModel.removeAllStatements answer store (replacedBy ignoreContext statement)).store statement

def matchingStatements : List Statement :=
  (FilterModel.listStatements answer store (countedFor ignoreContext statement)).filter fun s =>
    ignoreContext || s.context.operatorEq statement.context

/-- The general case, of a maximum above one. -/
def addBelow (max : Int) : Result :=
  let found := matchingStatements answer ignoreContext store statement
  if found.length ≥ max then
    match found with
    | [s] => FilterModel.addStatement answer (FilterModel.removeStatement answer store s).store statement
    | _ => unknown "Max cardinality for predicate reached".toList store
  else FilterModel.addStatement answer store statement

/-- What is done where the predicate has these cardinalities. -/
def addWithin (k : Cardinalities) : Result :=
  if k.min ≥ 0 ∨ k.max ≥ 0 ∨ k.c ≥ 0 then
    if k.c = 1 ∨ k.max = 1 then replace answer ignoreContext store statement
    else if k.max > 1 ∨ k.c > 1 then
      addBelow answer ignoreContext store statement (if k.c > 1 then k.c else k.max)
    else FilterModel.addStatement answer store statement
  else FilterModel.addStatement answer store statement

/-- `NRLModel::addNrlStatement`; `select` is the parent's `executeQuery`. -/
def addNrlStatement (select : QString → Store → List BindingSet) : Result :=
  let query := cardinalityQuery statement.predicate
  if answer.Fails .executeQuery then
    unknown (QString.arg "Query failed: '%1'".toList query) store
  else addWithin answer ignoreContext store statement (.ofRows (select query store))

end Add

/-! ### Graphs -/

/-- What `createGraph` returns, the error that is cached, and the statements of the parent. -/
structure Created where
  graph : QUrl
  metadataGraph : QUrl
  lastError : Error
  store : Store

/-- The statements that describe a new graph, which lie in its metadata graph. -/
def graphMetadata (type graph metadatagraph : QUrl) (now : QDateTime) : List Statement :=
  [⟨.ofUri metadatagraph, .ofUri NRL.coreGraphMetadataFor, .ofUri graph, .ofUri metadatagraph⟩,
    ⟨.ofUri metadatagraph, .ofUri RDF.type, .ofUri NRL.GraphMetadata, .ofUri metadatagraph⟩,
    ⟨.ofUri graph, .ofUri RDF.type, .ofUri type, .ofUri metadatagraph⟩,
    ⟨.ofUri graph, .ofUri NAO.created, .ofLiteral (.ofVariant (.dateTime now)), .ofUri metadatagraph⟩]

/-- `NRLModel::createGraph`, which does not look at what its calls return.  The two URIs are those that
`createGraphUri` made, and `now` is `QDateTime::currentDateTime()`. -/
def createGraph (answer : Answer) (type graph metadatagraph : QUrl) (now : QDateTime) (store : Store) :
    Created :=
  let added := (graphMetadata type graph metadatagraph now).foldl
    (fun result statement => FilterModel.addStatement answer result.store statement)
    ⟨.errorNone, .none, store⟩
  ⟨graph, metadatagraph, added.lastError, added.store⟩

def metadataTemplate : QString := "select ?mg where \x7b ?mg %1 %2 . \x7d".toList

/-- The query for the metadata graphs of a graph. -/
def metadataQuery (graph : QUrl) : QString :=
  QString.arg (QString.arg metadataTemplate (Node.resourceToN3 NRL.coreGraphMetadataFor))
    (Node.resourceToN3 graph)

/-- `iterateBindings( 0 ).allNodes()` -/
def allNodes (rows : List BindingSet) : List Node := rows.map fun row => row.values.head?.getD .empty

section Remove

variable (answer : Answer) (select : QString → Store → List BindingSet) (store : Store)

/-- `NRLModel::removeGraph` -/
def removeGraph (graph : QUrl) : Result :=
  let metadataGraphs :=
    if answer.Fails .executeQuery then [] else allNodes (select (metadataQuery graph) store)
  let store := metadataGraphs.foldl
    (fun store mg => (FilterModel.removeAllStatements answer store ⟨.empty, .empty, .empty, mg⟩).store) store
  FilterModel.removeAllStatements answer store ⟨.empty, .empty, .empty, .ofUri graph⟩

/-- `NRLModel::removeAllStatements`: only a context is given where a whole graph is removed. -/
def removeAllStatements (statement : Statement) : Result :=
  if statement.context.isValid ∧ ¬ statement.subject.isValid ∧ ¬ statement.predicate.isValid ∧
      ¬ statement.object.isValid then
    removeGraph answer select store statement.context.uri
  else FilterModel.removeAllStatements answer store statement

/-- `Model::removeContext` -/
def removeContext (context : Node) : Result :=
  if context.isValid then removeAllStatements answer select store ⟨.empty, .empty, .empty, context⟩
  else ⟨.errorInvalidArgument, .ofMessage "Cannot remove the empty context".toList
    ErrorCode.errorInvalidArgument.code, store⟩

end Remove

end Qt

end NRLModel

end Soprano
