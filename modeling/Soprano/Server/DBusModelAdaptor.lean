import Soprano.DBusError
import Soprano.Server.ServerCore

/-! `DBusModelAdaptor`: the calls of a model over D-Bus, answered at once or, behind an `AsyncModel`,
with a delayed reply. -/

namespace Soprano

/-- `Query::QueryLanguage` -/
inductive QueryLanguage where
  | none
  | sparql
  | rdql
  | serql
  | sparqlNoInference
  | user
deriving DecidableEq

namespace QueryLanguage

/-- `Query::queryLanguageToString` -/
def queryLanguageToString (lang : QueryLanguage) (userQueryLanguage : QString) : QString :=
  match lang with
  | .none => "none".toList
  | .sparql => "SPARQL".toList
  | .rdql => "RDQL".toList
  | .serql => "SERQL".toList
  | .sparqlNoInference => "SPARQL_NO_INFERENCE".toList
  | .user => userQueryLanguage

/-- `Query::queryLanguageFromString`; the names are ASCII. -/
def queryLanguageFromString (queryLanguage : QString) : QueryLanguage :=
  let ql := queryLanguage.map Char.toUpper
  if ql = "SPARQL".toList then .sparql
  else if ql = "RDQL".toList then .rdql
  else if ql = "SERQL".toList then .serql
  else if ql = "SPARQL_NO_INFERENCE".toList then .sparqlNoInference
  else .user

/-- A language that has a name of its own. -/
def Named (lang : QueryLanguage) : Prop := lang ≠ .none ∧ lang ≠ .user

theorem queryLanguage_roundtrip {lang : QueryLanguage} (h : lang.Named) (user : QString) :
    queryLanguageFromString (queryLanguageToString lang user) = lang := by
  cases lang with
  | none => exact absurd rfl h.1
  | user => exact absurd rfl h.2
  | sparql | rdql | serql | sparqlNoInference => rfl

end QueryLanguage

namespace DBus

open Server

variable [Qt]

/-- An operation of a model; `L` stands for the language of a query. -/
inductive Operation (L : Type) where
  | addStatement (s : Statement)
  | removeStatement (s : Statement)
  | removeAllStatements (s : Statement)
  | containsStatement (s : Statement)
  | containsAnyStatement (s : Statement)
  | statementCount
  | isEmpty
  | createBlankNode
  | listStatements (s : Statement)
  | listContexts
  | executeQuery (query : QString) (language : L)

def Operation.mapLanguage {L L' : Type} (f : L → L') : Operation L → Operation L'
  | addStatement s => .addStatement s
  | removeStatement s => .removeStatement s
  | removeAllStatements s => .removeAllStatements s
  | containsStatement s => .containsStatement s
  | containsAnyStatement s => .containsAnyStatement s
  | statementCount => .statementCount
  | isEmpty => .isEmpty
  | createBlankNode => .createBlankNode
  | listStatements s => .listStatements s
  | listContexts => .listContexts
  | executeQuery query language => .executeQuery query (f language)

/-- What an operation returns, also as the `QVariant` of an `AsyncResult`; an iterator that is not valid
is `none`. -/
inductive Value (I : Type) where
  | invalid
  | errorCode (c : ErrorCode)
  | int (n : Int32)
  | bool (b : Bool)
  | node (n : Node)
  | statementIterator (it : Option I)
  | nodeIterator (it : Option I)
  | queryResultIterator (it : Option I)

/-- The model that is exported; each operation returns its value and the `lastError` behind it. -/
structure Model (I : Type) where
  addStatement : Statement → ErrorCode × Error
  removeStatement : Statement → ErrorCode × Error
  removeAllStatements : Statement → ErrorCode × Error
  containsStatement : Statement → Bool × Error
  containsAnyStatement : Statement → Bool × Error
  statementCount : Int32 × Error
  isEmpty : Bool × Error
  createBlankNode : Node × Error
  listStatements : Statement → Option I × Error
  listContexts : Option I × Error
  executeQuery : QString → QueryLanguage → QString → Option I × Error

/-- The parent of the exported model. -/
inductive AsyncModelMode where
  | singleThreaded
  | multiThreaded
deriving DecidableEq

inductive Parent where
  | plain
  | async (mode : AsyncModelMode)
deriving DecidableEq

inductive ReplyValue where
  | int (n : Int32)
  | bool (b : Bool)
  | node (n : Node)
  | string (s : QString)

inductive Message where
  | methodReturn (a : ReplyValue)
  | error (e : QDBusError)

/-- What a slot of the adaptor leaves: QtDBus sends the returned value unless the reply is delayed. -/
structure Handled where
  sent : List Message
  delayed : Bool
  returned : ReplyValue

def Handled.messages (h : Handled) : List Message :=
  h.sent ++ if h.delayed then [] else [.methodReturn h.returned]

/-- The path of an iterator's object. -/
def iteratorPath (dbusObjectPath : QString) (count : Nat) : QString :=
  QString.arg (QString.arg "%1/iterator%2".toList dbusObjectPath) (QString.number count)

/-- The adaptor: the object path of its model, which is a valid one, and the iterators that it has
registered. -/
structure DBusModelAdaptor (I : Type) where
  dbusObjectPath : QString
  iteratorCount : Nat
  objects : QHash QString (Option I)
  plain : '%' ∉ dbusObjectPath
  old : ∀ path, objects.lookup path ≠ none →
    ∃ n, n ≤ iteratorCount ∧ path = iteratorPath dbusObjectPath n

/-- `ErrorCache::setError` and `lastError` of one thread -/
def cached (thread : Nat) (e : Error) : Error := (ErrorCache.setError [] thread e).lastError thread

/-- `AsyncResult::setResult` by the thread that executes the command, and `lastError` by the thread of
the adaptor. -/
def resultError (mode : AsyncModelMode) (e : Error) : Error :=
  let worker := match mode with
    | .singleThreaded => 0
    | .multiThreaded => 1
  (ErrorCache.setError [] worker e).lastError 0

namespace DBusModelAdaptor

variable {I α : Type} (parent : Parent) (model : Model I) (σ : DBusModelAdaptor I)

/-- QtDBus registers no second object under a path. -/
def registerIterator (it : Option I) : QString × DBusModelAdaptor I :=
  let path := iteratorPath σ.dbusObjectPath (σ.iteratorCount + 1)
  (path, { σ with
    iteratorCount := σ.iteratorCount + 1
    objects := if σ.objects.lookup path = none then σ.objects.insert path it else σ.objects
    old := by
      intro p hp
      have hOld : σ.objects.lookup p ≠ none → ∃ n, n ≤ σ.iteratorCount + 1 ∧
          p = iteratorPath σ.dbusObjectPath n := by
        intro h
        obtain ⟨n, hn, hPath⟩ := σ.old p h
        exact ⟨n, Nat.le_succ_of_le hn, hPath⟩
      split at hp
      · rw [QHash.lookup_insert] at hp
        split at hp
        · exact ⟨σ.iteratorCount + 1, Nat.le_refl _, ‹_›⟩
        · exact hOld hp
      · exact hOld hp })

/-- `_s_delayedResultReady`, `none` where its last assertion fails. -/
def delayedResultReady (value : Value I) (lastError : Error) :
    Option (Message × DBusModelAdaptor I) :=
  if lastError.code ≠ 0 then some (.error (errorReply lastError), σ)
  else
    match value with
    | .bool b => some (.methodReturn (.bool b), σ)
    | .int n => some (.methodReturn (.int n), σ)
    | .node n => some (.methodReturn (.node n), σ)
    | .errorCode c => some (.methodReturn (.int c.code), σ)
    | .statementIterator it | .nodeIterator it | .queryResultIterator it =>
      let (path, σ) := σ.registerIterator it
      some (.methodReturn (.string path), σ)
    | .invalid => none

/-- Every message that answers a call whose reply is delayed. -/
def delayed (mode : AsyncModelMode) (dummy : ReplyValue) (value : Value I) (error : Error) :
    Option (List Message × DBusModelAdaptor I) := do
  let (m, σ) ← σ.delayedResultReady value (resultError mode (cached 0 error))
  some ((⟨[], true, dummy⟩ : Handled).messages ++ [m], σ)

/-- The methods that return a value. -/
def answerValue (outcome : α × Error) (argument : α → ReplyValue) (variant : α → Value I)
    (dummy : ReplyValue) : Option (List Message × DBusModelAdaptor I) :=
  match parent with
  | .plain =>
    let lastError := cached 0 outcome.2
    some ((if lastError.code ≠ 0 then
      ⟨[.error (errorReply lastError)], true, argument outcome.1⟩
      else ⟨[], false, argument outcome.1⟩ : Handled).messages, σ)
  | .async mode => σ.delayed mode dummy (variant outcome.1) outcome.2

/-- The methods that return an iterator.  The one of an `AsyncModel` has a backend in every case, so it
is always valid. -/
def answerIterator (outcome : Option I × Error) (variant : Option I → Value I) :
    Option (List Message × DBusModelAdaptor I) :=
  match parent with
  | .plain =>
    match outcome.1 with
    | some it =>
      let (path, σ) := σ.registerIterator (some it)
      some ((⟨[], false, .string path⟩ : Handled).messages, σ)
    | none => some ((⟨[.error (errorReply (cached 0 outcome.2))], true, .string []⟩ : Handled).messages, σ)
  | .async mode => σ.delayed mode (.string []) (variant outcome.1) outcome.2

def addStatement (s : Statement) : Option (List Message × DBusModelAdaptor I) :=
  σ.answerValue parent (model.addStatement s) (fun c => .int c.code) .errorCode (.int 0)

def removeStatement (s : Statement) : Option (List Message × DBusModelAdaptor I) :=
  σ.answerValue parent (model.removeStatement s) (fun c => .int c.code) .errorCode (.int 0)

def removeAllStatements (s : Statement) : Option (List Message × DBusModelAdaptor I) :=
  σ.answerValue parent (model.removeAllStatements s) (fun c => .int c.code) .errorCode (.int 0)

def containsStatement (s : Statement) : Option (List Message × DBusModelAdaptor I) :=
  σ.answerValue parent (model.containsStatement s) .bool .bool (.bool false)

def containsAnyStatement (s : Statement) : Option (List Message × DBusModelAdaptor I) :=
  σ.answerValue parent (model.containsAnyStatement s) .bool .bool (.bool false)

def statementCount : Option (List Message × DBusModelAdaptor I) :=
  σ.answerValue parent model.statementCount .int .int (.int 0)

def isEmpty : Option (List Message × DBusModelAdaptor I) :=
  σ.answerValue parent model.isEmpty .bool .bool (.bool false)

def createBlankNode : Option (List Message × DBusModelAdaptor I) :=
  σ.answerValue parent model.createBlankNode .node .node (.node .empty)

def listStatements (s : Statement) : Option (List Message × DBusModelAdaptor I) :=
  σ.answerIterator parent (model.listStatements s) .statementIterator

def listContexts : Option (List Message × DBusModelAdaptor I) :=
  σ.answerIterator parent model.listContexts .nodeIterator

def executeQuery (query queryLanguage : QString) : Option (List Message × DBusModelAdaptor I) :=
  σ.answerIterator parent (model.executeQuery query
    (QueryLanguage.queryLanguageFromString queryLanguage) queryLanguage) .queryResultIterator

/-- The slot of a method call. -/
def call : Operation QString → Option (List Message × DBusModelAdaptor I)
  | .addStatement s => σ.addStatement parent model s
  | .removeStatement s => σ.removeStatement parent model s
  | .removeAllStatements s => σ.removeAllStatements parent model s
  | .containsStatement s => σ.containsStatement parent model s
  | .containsAnyStatement s => σ.containsAnyStatement parent model s
  | .statementCount => σ.statementCount parent model
  | .isEmpty => σ.isEmpty parent model
  | .createBlankNode => σ.createBlankNode parent model
  | .listStatements s => σ.listStatements parent model s
  | .listContexts => σ.listContexts parent model
  | .executeQuery query language => σ.executeQuery parent model query language

/-! ### The iterators' paths -/

omit [Qt] in
theorem iteratorPath_eq {p : QString} (h : '%' ∉ p) (count : Nat) :
    iteratorPath p count = p ++ ("/iterator".toList ++ QString.number count) := by
  have hFirst : QString.arg "%1/iterator%2".toList p = p ++ '/' :: "iterator%2".toList := rfl
  have hSecond : QString.arg ('/' :: "iterator%2".toList) (QString.number count) =
      "/iterator".toList ++ (QString.number count ++ []) := rfl
  rw [iteratorPath, hFirst, QString.arg_append (QString.markersAbove_of_notMem (k := 2) h) rfl
    (n := 2) rfl (by decide), hSecond, List.append_nil]

omit [Qt] in
theorem iteratorPath_inj {p : QString} (h : '%' ∉ p) {m n : Nat}
    (hPath : iteratorPath p m = iteratorPath p n) : m = n := by
  rw [iteratorPath_eq h, iteratorPath_eq h] at hPath
  have hNumber := congrArg QString.toIntegral
    (List.append_cancel_left (List.append_cancel_left hPath))
  rw [QString.toIntegral_number, QString.toIntegral_number, Option.some.injEq] at hNumber
  exact Int.ofNat_inj.mp hNumber

omit [Qt] in
/-- A new iterator is registered under its path. -/
theorem lookup_registerIterator (it : Option I) :
    (σ.registerIterator it).2.objects.lookup (σ.registerIterator it).1 = some it := by
  have hFree : σ.objects.lookup (iteratorPath σ.dbusObjectPath (σ.iteratorCount + 1)) = none := by
    by_contra hTaken
    obtain ⟨n, hn, hPath⟩ := σ.old _ hTaken
    have := iteratorPath_inj σ.plain hPath
    omega
  rw [registerIterator]
  simp only [hFree, if_true, QHash.lookup_insert]

end DBusModelAdaptor

end DBus

end Soprano
