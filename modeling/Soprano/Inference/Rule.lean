import Soprano.Node
import Soprano.Qt.Arg

/-! `NodePattern`, `StatementPattern` and `Rule`: the patterns of an inference rule, its SPARQL query
and what a binding of its variableNames makes of it. -/

namespace Soprano

namespace Inference

variable [Qt]

/-- `NodePattern`: a node, or a variable by its name. -/
inductive NodePattern where
  | resource (node : Node)
  | ofVariable (variableName : QString)
deriving DecidableEq

namespace NodePattern

def isVariable : NodePattern → Bool
  | resource _ => false
  | ofVariable _ => true

def variableName : NodePattern → QString
  | resource _ => []
  | ofVariable name => name

def isValid : NodePattern → Bool
  | resource node => node.isValid
  | ofVariable name => !name.isEmpty

def «match» : NodePattern → Node → Bool
  | resource node, n => n.operatorEq node
  | ofVariable _, _ => true

def createSparqlNodePattern (bindings : BindingSet) : NodePattern → QString
  | ofVariable name =>
    if bindings.contains name then '<' :: ((bindings.value name).toString ++ ['>'])
    else '?' :: name
  | resource node =>
    if node.isLiteral then
      if node.language.isEmpty then
        QString.arg (QString.arg "\"%1\"^^<%2>".toList node.toString)
          (Qt.urlToString node.dataType)
      else QString.arg (QString.arg "\"%1\"@%2".toList node.toString) node.language
    else if node.isResource then '<' :: (QString.fromLatin1 node.uri.toEncoded ++ ['>'])
    else '_' :: ':' :: node.toString

/-- The node of the pattern, with its variable looked up. -/
def bind (value : QString → Node) : NodePattern → Node
  | resource node => node
  | ofVariable name => value name

/-- The variable of the pattern, if it is one. -/
def variableNames : NodePattern → List QString
  | resource _ => []
  | ofVariable name => [name]

end NodePattern

/-- `StatementPattern` -/
structure StatementPattern where
  subjectPattern : NodePattern
  predicatePattern : NodePattern
  objectPattern : NodePattern
deriving DecidableEq

namespace StatementPattern

def isValid (p : StatementPattern) : Bool :=
  p.subjectPattern.isValid && p.predicatePattern.isValid && p.objectPattern.isValid

def «match» (p : StatementPattern) (s : Statement) : Bool :=
  p.subjectPattern.match s.subject && p.predicatePattern.match s.predicate &&
    p.objectPattern.match s.object

def createSparqlGraphPattern (p : StatementPattern) (bindings : BindingSet) : QString :=
  QString.arg (QString.arg (QString.arg "%1 %2 %3".toList
    (p.subjectPattern.createSparqlNodePattern bindings))
    (p.predicatePattern.createSparqlNodePattern bindings))
    (p.objectPattern.createSparqlNodePattern bindings)

/-- `Rule::bindStatementPattern`: the statement of the pattern, without a context. -/
def bind (value : QString → Node) (p : StatementPattern) : Statement :=
  ⟨p.subjectPattern.bind value, p.predicatePattern.bind value, p.objectPattern.bind value, .empty⟩

def variableNames (p : StatementPattern) : List QString :=
  p.subjectPattern.variableNames ++ (p.predicatePattern.variableNames ++ p.objectPattern.variableNames)

/-- The variableNames of the pattern, bound to the nodes of the statement, after the bindings `b`. -/
def insertBindings (p : StatementPattern) (s : Statement) (b : BindingSet) : BindingSet :=
  let b := if p.subjectPattern.isVariable then
    b.insert p.subjectPattern.variableName s.subject else b
  let b := if p.predicatePattern.isVariable then
    b.insert p.predicatePattern.variableName s.predicate else b
  if p.objectPattern.isVariable then b.insert p.objectPattern.variableName s.object else b

end StatementPattern

/-- `Rule` -/
structure Rule where
  preconditions : List StatementPattern
  effect : StatementPattern
  bindingStatement : Statement
deriving DecidableEq

namespace Rule

def isValid (r : Rule) : Bool := !r.preconditions.isEmpty && r.effect.isValid

def bindToStatement (r : Rule) (s : Statement) : Rule := { r with bindingStatement := s }

def «match» (r : Rule) (s : Statement) : Bool := r.preconditions.any fun p => p.match s

/-- The triple patterns of a query, each followed by a dot. -/
def graphPatterns (patterns : List StatementPattern) (bindings : BindingSet) : QString :=
  patterns.flatMap fun p => p.createSparqlGraphPattern bindings ++ " . ".toList

/-- The bindings already make the effect invalid. -/
def rendersEffectInvalid (r : Rule) (bindings : BindingSet) : Bool :=
  r.effect.subjectPattern.isVariable &&
      bindings.contains r.effect.subjectPattern.variableName &&
      (bindings.value r.effect.subjectPattern.variableName).isLiteral ||
    r.effect.predicatePattern.isVariable &&
      bindings.contains r.effect.predicatePattern.variableName &&
      !(bindings.value r.effect.predicatePattern.variableName).isResource

/-- The subquery for the precondition at position `k`, which the binding statement takes. -/
def subQuery (r : Rule) (p : StatementPattern) (k : Nat) : Option QString :=
  if p.match r.bindingStatement then
    let bindings := p.insertBindings r.bindingStatement .empty
    if r.rendersEffectInvalid bindings then none
    else some (graphPatterns (r.preconditions.eraseIdx k) bindings)
  else none

def subQueries (r : Rule) : List QString :=
  r.preconditions.zipIdx.filterMap fun (p, k) => r.subQuery p k

/-- `QStringList::join` -/
def join (separator : QString) (texts : List QString) : QString := separator.intercalate texts

def createSparqlQuery (r : Rule) (bindStatement : Bool) : QString :=
  let query :=
    if !bindStatement || !r.bindingStatement.isValid then graphPatterns r.preconditions .empty
    else
      match r.subQueries with
      | [] => []
      | [subQuery] => subQuery
      | subQueries => "\x7b ".toList ++ (join " \x7d UNION \x7b ".toList subQueries ++ " \x7d".toList)
  if query.isEmpty then [] else "SELECT * WHERE \x7b ".toList ++ (query ++ ['}'])

/-- One turn of the loop in `mergeBindingStatement`: a precondition whose variableNames are all unbound is
taken for the one that the query left out. -/
def mergePattern (r : Rule) (bindings : BindingSet) (bs : BindingSet) (p : StatementPattern) :
    BindingSet :=
  if p.variableNames.any fun name => (bindings.value name).isValid then bs
  else p.insertBindings r.bindingStatement bs

def mergeBindingStatement (r : Rule) (bindings : BindingSet) : BindingSet :=
  r.preconditions.foldl (r.mergePattern bindings) bindings

def bindEffect (r : Rule) (bindings : BindingSet) : Statement :=
  r.effect.bind (r.mergeBindingStatement bindings).value

def bindPreconditions (r : Rule) (bindings : BindingSet) : List Statement :=
  r.preconditions.map (·.bind (r.mergeBindingStatement bindings).value)

end Rule

end Inference

end Soprano
