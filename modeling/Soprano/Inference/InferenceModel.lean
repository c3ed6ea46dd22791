import Soprano.Error
import Soprano.Inference.ParentModel
import Soprano.Vocabulary

/-! `InferenceModel`: a model that adds to its parent what its rules infer, each inferred statement in
a graph of its own, with the statements it comes from as metadata of that graph. -/

namespace Soprano

namespace Inference

open Vocabulary

variable [Qt]

structure InferenceModel where
  parentModel : Store
  rules : List Rule
  compressedStatements : Bool
  optimizedQueries : Bool
  /-- how many random URIs have been made -/
  uris : Nat

def compressStatement (statement : Statement) : LiteralValue :=
  let s := QString.arg (QString.arg "<%1> <%2> ".toList statement.subject.toString)
    statement.predicate.toString
  if statement.object.isLiteral then
    .ofVariant (.string (s ++ QString.arg (QString.arg "\"%1\"^^<%2>".toList statement.object.toString)
      (Qt.urlToString statement.object.dataType)))
  else .ofVariant (.string (s ++ ('<' :: (statement.object.toString ++ ['>']))))

namespace InferenceModel

/-- What the code adds to the parent model. -/
def add (m : InferenceModel) (s : Statement) : InferenceModel :=
  { m with parentModel := Store.addStatement m.parentModel s }

section Engine

variable (select : QString → Store → List BindingSet) (createRandomUri : Nat → QUrl)

/-- The next random URI. -/
def randomUri (m : InferenceModel) : Node := .ofUri (createRandomUri m.uris)

def storeUncompressedSourceStatement (m : InferenceModel) (sourceStatement : Statement) :
    Node × InferenceModel :=
  let uri := m.randomUri createRandomUri
  let m := { m with uris := m.uris + 1 }
  let m := m.add ⟨uri, .ofUri RDF.type, .ofUri RDF.Statement, .ofUri SIL.InferenceMetaData⟩
  let m := m.add ⟨uri, .ofUri RDF.subject, sourceStatement.subject, .ofUri SIL.InferenceMetaData⟩
  let m := m.add ⟨uri, .ofUri RDF.predicate, sourceStatement.predicate,
    .ofUri SIL.InferenceMetaData⟩
  let m := m.add ⟨uri, .ofUri RDF.object, sourceStatement.object, .ofUri SIL.InferenceMetaData⟩
  (uri, if sourceStatement.context.isValid then
    m.add ⟨uri, .ofUri SIL.context, sourceStatement.context, .ofUri SIL.InferenceMetaData⟩ else m)

/-- One source statement of an inference graph. -/
def addSource (graph : Node) (m : InferenceModel) (sourceStatement : Statement) : InferenceModel :=
  if m.compressedStatements then
    m.add ⟨graph, .ofUri SIL.sourceStatement, .ofLiteral (compressStatement sourceStatement),
      .ofUri SIL.InferenceMetaData⟩
  else
    let (uri, m) := m.storeUncompressedSourceStatement createRandomUri sourceStatement
    m.add ⟨graph, .ofUri SIL.sourceStatement, uri, .ofUri SIL.InferenceMetaData⟩

/-- An inferred statement that is not yet in the model, with its metadata. -/
def addInfered (m : InferenceModel) (inferedStatement : Statement)
    (sourceStatements : List Statement) : InferenceModel :=
  let graph := m.randomUri createRandomUri
  let m := { m with uris := m.uris + 1 }
  let m := m.add { inferedStatement with context := graph }
  let m := m.add ⟨graph, .ofUri RDF.type, .ofUri SIL.InferenceGraph, .ofUri SIL.InferenceMetaData⟩
  sourceStatements.foldl (addSource createRandomUri graph) m

/-- One turn of the loop of `inferRule`, with the statements that were inferred so far. -/
def inferBinding (rule : Rule) (acc : InferenceModel × List Statement) (binding : BindingSet) :
    InferenceModel × List Statement :=
  let (m, inferedStatements) := acc
  let inferedStatement := rule.bindEffect binding
  if inferedStatement.isValid && !Store.containsAnyStatement m.parentModel inferedStatement then
    (m.addInfered createRandomUri inferedStatement (rule.bindPreconditions binding),
      inferedStatements ++ [{ inferedStatement with context := m.randomUri createRandomUri }])
  else acc

/-- The results of the rule's query. -/
def ruleBindings (m : InferenceModel) (rule : Rule) : List BindingSet :=
  let q := rule.createSparqlQuery m.optimizedQueries
  if q.isEmpty then [] else select q m.parentModel

/-- `inferRule` for the rule at a position, where `again` is the call of `inferStatement`. -/
def inferRule (again : Statement → InferenceModel → Option (Nat × InferenceModel)) (recurse : Bool)
    (k : Nat) (m : InferenceModel) : Option (Nat × InferenceModel) :=
  match m.rules[k]? with
  | none => some (0, m)
  | some rule =>
    let (m, inferedStatements) :=
      (m.ruleBindings select rule).foldl (inferBinding createRandomUri rule) (m, [])
    let inferedStatementsCount := inferedStatements.length
    -- The recursion is behind the loop, since it binds the rules to other statements.
    if recurse && inferedStatementsCount != 0 then
      inferedStatements.foldlM (fun (cnt, m) s => (again s m).map fun (n, m) => (cnt + n, m))
        (inferedStatementsCount, m)
    else some (inferedStatementsCount, m)

def bindRule (m : InferenceModel) (k : Nat) (s : Statement) : InferenceModel :=
  { m with rules := m.rules.modify k (·.bindToStatement s) }

/-- One turn of the loop of `inferStatement`. -/
def inferMatching (again : Statement → InferenceModel → Option (Nat × InferenceModel))
    (recurse : Bool) (statement : Statement) (acc : Nat × InferenceModel) (k : Nat) :
    Option (Nat × InferenceModel) :=
  let (cnt, m) := acc
  match m.rules[k]? with
  | none => some (cnt, m)
  | some rule =>
    if rule.match statement then
      (inferRule select createRandomUri again recurse k (m.bindRule k statement)).map
        fun (n, m) => (cnt + n, m)
    else some (cnt, m)

/-- `inferStatement`; the first argument bounds the depth of the recursion. -/
def inferStatement : Nat → Bool → Statement → InferenceModel → Option (Nat × InferenceModel)
  | 0, _, _, _ => none
  | fuel + 1, recurse, statement, m =>
    (List.range m.rules.length).foldlM
      (inferMatching select createRandomUri (inferStatement fuel true) recurse statement) (0, m)

def addStatement (fuel : Nat) (m : InferenceModel) (statement : Statement) :
    Option (ErrorCode × InferenceModel) :=
  if statement.isValid then
    (inferStatement select createRandomUri fuel true statement (m.add statement)).map fun (_, m) =>
      (.errorNone, m)
  else some (.errorInvalidArgument, m)

def performInference (fuel : Nat) (m : InferenceModel) : Option InferenceModel :=
  (List.range m.rules.length).foldlM (fun m k =>
    (inferRule select createRandomUri (inferStatement select createRandomUri fuel true) true k
      (m.bindRule k .empty)).map Prod.snd) m

/-- The query of `clearInference`. -/
def clearQuery : QString :=
  QString.arg (QString.arg "select ?g where \x7b ?g <%1> <%2> . \x7d".toList
    (Qt.urlToString RDF.type)) (Qt.urlToString SIL.InferenceGraph)

def clearInference (m : InferenceModel) : InferenceModel :=
  let bindings := select clearQuery m.parentModel
  let parentModel := bindings.foldl (fun store b =>
    Store.removeContext store (b.values.head?.getD .empty)) m.parentModel
  { m with parentModel := Store.removeContext parentModel (.ofUri SIL.InferenceMetaData) }

end Engine

end InferenceModel

end Inference

end Soprano
