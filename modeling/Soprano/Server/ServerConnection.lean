import Soprano.Server.Commands

/-! `ModelPool` and `ServerConnection`: the state of one connection, the handlers of its commands and
the dispatch in `_s_readNextCommand`. -/

namespace Soprano

namespace Server

open Codec DataStream

/-- A hash, whose operations keep its keys distinct. -/
abbrev QHash (κ α : Type) : Type := List (κ × α)

namespace QHash

variable {κ α : Type} [DecidableEq κ]

def contains (h : QHash κ α) (key : κ) : Bool := (h.lookup key).isSome

def remove (h : QHash κ α) (key : κ) : QHash κ α := h.filter fun e => e.1 ≠ key

def insert (h : QHash κ α) (key : κ) (value : α) : QHash κ α := (key, value) :: h.remove key

def keys (h : QHash κ α) : List κ := h.map Prod.fst

theorem keys_remove (h : QHash κ α) (key : κ) :
    (h.remove key).keys = h.keys.filter (· ≠ key) := by
  rw [remove, keys, keys, List.filter_map]
  rfl

theorem keys_insert (h : QHash κ α) (key : κ) (value : α) :
    (h.insert key value).keys = key :: h.keys.filter (· ≠ key) := by
  rw [← keys_remove]
  rfl

section Lookup

-- `lookup` compares the keys by `==`, which need not be the one of `DecidableEq`.
variable [BEq κ] [LawfulBEq κ]

theorem lookup_cons (k : κ) (v : α) (h : QHash κ α) (key : κ) :
    List.lookup key ((k, v) :: h) = if key = k then some v else h.lookup key := by
  rw [List.lookup_cons]
  by_cases hKey : key = k
  · simp [hKey]
  · simp [hKey, beq_eq_false_iff_ne.mpr hKey]

theorem mem_keys {h : QHash κ α} {key : κ} : key ∈ h.keys ↔ (h.lookup key).isSome = true := by
  induction h with
  | nil => simp [keys]
  | cons e h ih =>
    obtain ⟨k, v⟩ := e
    rw [lookup_cons, keys, List.map_cons, List.mem_cons]
    by_cases hKey : key = k
    · simp [hKey]
    · simp only [hKey, if_false, false_or]
      exact ih

theorem lookup_remove (h : QHash κ α) (key other : κ) :
    (h.remove key).lookup other = if other = key then none else h.lookup other := by
  induction h with
  | nil => simp [remove]
  | cons e h ih =>
    obtain ⟨k, v⟩ := e
    rw [remove, List.filter_cons, lookup_cons]
    rw [remove] at ih
    by_cases hKey : k = key
    · rw [if_neg (by simp [hKey]), ih, hKey]
      split <;> rfl
    · rw [if_pos (by simp [hKey]), lookup_cons, ih]
      by_cases hOther : other = k
      · simp [hOther, hKey]
      · simp [hOther]

theorem lookup_insert (h : QHash κ α) (key : κ) (value : α) (other : κ) :
    (h.insert key value).lookup other = if other = key then some value else h.lookup other := by
  rw [insert, lookup_cons, lookup_remove]
  split <;> rfl

theorem lookup_filter (p : κ → Bool) (h : QHash κ α) (key : κ) :
    (h.filter fun e => p e.1).lookup key = if p key then h.lookup key else none := by
  induction h with
  | nil => simp
  | cons e h ih =>
    obtain ⟨k, v⟩ := e
    rw [List.filter_cons, lookup_cons]
    by_cases hKey : key = k
    · subst hKey
      by_cases hp : p key = true
      · rw [if_pos hp, if_pos hp, lookup_cons, if_pos rfl, if_pos rfl]
      · rw [if_neg hp, if_neg hp, ih, if_neg hp]
    · rw [if_neg hKey, ← ih]
      by_cases hp : p k = true
      · rw [if_pos hp, lookup_cons, if_neg hKey]
      · rw [if_neg hp]

end Lookup

end QHash

section Qt

variable [Qt]

/-- The iterators of one kind over a world `W` of stores. -/
structure IteratorBackend (W I α : Type) where
  next : I → W → Bool × W
  current : I → W → α × W
  close : I → W → W
  lastError : I → W → Error

/-- What a connection uses of `ServerCore`, of its backend's models and of their iterators.  An
iterator that is not valid is `none`. -/
structure Host (W M SI NI QI : Type) where
  model : QString → W → Option M × W
  removeModel : QString → W → W
  supportedFeatures : Option UInt32
  addStatement : M → Statement → W → ErrorCode × W
  removeStatement : M → Statement → W → ErrorCode × W
  removeAllStatements : M → Statement → W → ErrorCode × W
  containsStatement : M → Statement → W → Bool × W
  containsAnyStatement : M → Statement → W → Bool × W
  listStatements : M → Statement → W → Option SI × W
  listContexts : M → W → Option NI × W
  executeQuery : M → QString → UInt16 → QString → W → Option QI × W
  statementCount : M → W → Int32 × W
  isEmpty : M → W → Bool × W
  createBlankNode : M → W → Node × W
  lastError : M → W → Error
  statements : IteratorBackend W SI Statement
  nodes : IteratorBackend W NI Node
  results : IteratorBackend W QI BindingSet
  currentStatement : QI → W → Statement × W
  isGraph : QI → W → Bool × W
  isBool : QI → W → Bool × W
  boolValue : QI → W → Bool × W

end Qt

/-- The state behind a connection; `draws` are the numbers that `rand()` returns from now on. -/
structure State (W M SI NI QI : Type) where
  world : W
  modelIdMap : QHash UInt32 M
  modelNameMap : QHash QString UInt32
  openStatementIterators : QHash UInt32 SI
  openNodeIterators : QHash UInt32 NI
  openQueryIterators : QHash UInt32 QI
  draws : List UInt32

/-- `generateUniqueId`: the first number drawn that is not in use; `none` where none ever is. -/
def generateUniqueId (inUse : UInt32 → Bool) : List UInt32 → Option (UInt32 × List UInt32)
  | [] => none
  | id :: draws => if inUse id then generateUniqueId inUse draws else some (id, draws)

theorem generateUniqueId_split {inUse : UInt32 → Bool} {draws rest : List UInt32} {id : UInt32}
    (h : generateUniqueId inUse draws = some (id, rest)) :
    ∃ used, draws = used ++ id :: rest ∧ (∀ k ∈ used, inUse k = true) ∧ inUse id = false := by
  induction draws with
  | nil => cases h
  | cons d draws ih =>
    rw [generateUniqueId] at h
    split at h
    · rename_i hUse
      obtain ⟨used, rfl, hUsed, hFree⟩ := ih h
      exact ⟨d :: used, rfl, List.forall_mem_cons.mpr ⟨hUse, hUsed⟩, hFree⟩
    · rename_i hUse
      cases h
      exact ⟨[], rfl, List.forall_mem_nil _, Bool.eq_false_of_not_eq_true hUse⟩

theorem generateUniqueId_free {inUse : UInt32 → Bool} {draws rest : List UInt32} {id : UInt32}
    (h : generateUniqueId inUse draws = some (id, rest)) : inUse id = false := by
  obtain ⟨used, -, -, hFree⟩ := generateUniqueId_split h
  exact hFree

theorem generateUniqueId_isSome {inUse : UInt32 → Bool} {draws : List UInt32}
    (h : ∃ id ∈ draws, inUse id = false) : (generateUniqueId inUse draws).isSome = true := by
  induction draws with
  | nil =>
    obtain ⟨id, hMem, -⟩ := h
    cases hMem
  | cons d draws ih =>
    unfold generateUniqueId
    by_cases hUse : inUse d = true
    · rw [if_pos hUse]
      obtain ⟨id, hMem, hFree⟩ := h
      rcases List.mem_cons.mp hMem with rfl | hMem
      · rw [hUse] at hFree
        cases hFree
      · exact ih ⟨id, hMem, hFree⟩
    · rw [if_neg hUse]
      rfl

variable {W M SI NI QI : Type} [Qt]

namespace ModelPool

def modelById (σ : State W M SI NI QI) (id : UInt32) : Option M := σ.modelIdMap.lookup id

variable (host : Host W M SI NI QI)

def idForModelName (σ : State W M SI NI QI) (name : QString) :
    Option (UInt32 × State W M SI NI QI) :=
  match σ.modelNameMap.lookup name with
  | some id => some (id, σ)
  | none =>
    match host.model name σ.world with
    | (some model, world) =>
      (generateUniqueId σ.modelIdMap.contains σ.draws).map fun (id, draws) =>
        (id, { σ with
          world := world
          draws := draws
          modelIdMap := σ.modelIdMap.insert id model
          modelNameMap := σ.modelNameMap.insert name id })
    | (none, world) => some (0, { σ with world := world })

/-- A name that the pool does not know stands for the number 0. -/
def removeModel (σ : State W M SI NI QI) (name : QString) : State W M SI NI QI :=
  { σ with
    modelIdMap := σ.modelIdMap.remove ((σ.modelNameMap.lookup name).getD 0)
    modelNameMap := σ.modelNameMap.remove name }

end ModelPool

namespace ServerConnection

/-! ### What the handlers do with their arguments -/

/-- An operation on the world, replied to with its value and the error after it. -/
def answer {α : Type} (σ : State W M SI NI QI) (op : W → α × W) (value : α → Value)
    (error : W → Error) : State W M SI NI QI × Reply :=
  let (a, world) := op σ.world
  ({ σ with world := world }, ⟨value a, some (error world)⟩)

def invalidModelId (value : Value) : Reply :=
  ⟨value, some (.ofMessage "Invalid model id".toList ErrorCode.errorUnknown.code)⟩

def invalidIteratorId (value : Value) : Reply :=
  ⟨value, some (.ofMessage "Invalid iterator ID.".toList ErrorCode.errorUnknown.code)⟩

def iteratorIdInUse (σ : State W M SI NI QI) (id : UInt32) : Bool :=
  σ.openStatementIterators.contains id || σ.openNodeIterators.contains id ||
    σ.openQueryIterators.contains id

/-- `mapIterator`, with `insert` into the table of the iterator's kind. -/
def mapIterator {I : Type} (insert : State W M SI NI QI → UInt32 → I → State W M SI NI QI)
    (σ : State W M SI NI QI) (it : I) : Option (UInt32 × State W M SI NI QI) :=
  (generateUniqueId (iteratorIdInUse σ) σ.draws).map fun (id, draws) =>
    (id, insert { σ with draws := draws } id it)

def insertStatementIterator (σ : State W M SI NI QI) (id : UInt32) (it : SI) :
    State W M SI NI QI :=
  { σ with openStatementIterators := σ.openStatementIterators.insert id it }

def insertNodeIterator (σ : State W M SI NI QI) (id : UInt32) (it : NI) : State W M SI NI QI :=
  { σ with openNodeIterators := σ.openNodeIterators.insert id it }

def insertQueryIterator (σ : State W M SI NI QI) (id : UInt32) (it : QI) : State W M SI NI QI :=
  { σ with openQueryIterators := σ.openQueryIterators.insert id it }

/-- An iterator that the model returned, replied to with its id, or 0 for an invalid one. -/
def answerIterator {I : Type} (insert : State W M SI NI QI → UInt32 → I → State W M SI NI QI)
    (σ : State W M SI NI QI) (op : W → Option I × W) (error : W → Error) :
    Option (State W M SI NI QI × Reply) :=
  match op σ.world with
  | (some it, world) =>
    (mapIterator insert { σ with world := world } it).map fun (id, τ) =>
      (τ, ⟨.id id, some (error world)⟩)
  | (none, world) => some ({ σ with world := world }, ⟨.id 0, some (error world)⟩)

variable (host : Host W M SI NI QI)

def performCreateModel (σ : State W M SI NI QI) (name : QString) :
    Option (State W M SI NI QI × Reply) :=
  (ModelPool.idForModelName host σ name).map fun (id, τ) => (τ, ⟨.id id, some .none⟩)

def performRemoveModel (σ : State W M SI NI QI) (name : QString) : State W M SI NI QI × Reply :=
  let τ := ModelPool.removeModel σ name
  ({ τ with world := host.removeModel name τ.world }, ⟨.nothing, some .none⟩)

def performSupportedFeatures (σ : State W M SI NI QI) : State W M SI NI QI × Reply :=
  match host.supportedFeatures with
  | some features => (σ, ⟨.id features, some .none⟩)
  | none =>
    (σ, ⟨.id 0, some (.ofMessage "No backend available".toList ErrorCode.errorUnknown.code)⟩)

def performIteratorNext (σ : State W M SI NI QI) (id : UInt32) : State W M SI NI QI × Reply :=
  match σ.openStatementIterators.lookup id with
  | some it => answer σ (host.statements.next it) .bool (host.statements.lastError it)
  | none =>
    match σ.openNodeIterators.lookup id with
    | some it => answer σ (host.nodes.next it) .bool (host.nodes.lastError it)
    | none =>
      match σ.openQueryIterators.lookup id with
      | some it => answer σ (host.results.next it) .bool (host.results.lastError it)
      | none => (σ, invalidIteratorId (.bool false))

def performStatementIteratorCurrent (σ : State W M SI NI QI) (id : UInt32) :
    State W M SI NI QI × Reply :=
  match σ.openStatementIterators.lookup id with
  | some it => answer σ (host.statements.current it) .statement (host.statements.lastError it)
  | none =>
    match σ.openQueryIterators.lookup id with
    | some it => answer σ (host.currentStatement it) .statement (host.results.lastError it)
    | none => (σ, invalidIteratorId (.statement .empty))

def performNodeIteratorCurrent (σ : State W M SI NI QI) (id : UInt32) :
    State W M SI NI QI × Reply :=
  match σ.openNodeIterators.lookup id with
  | some it => answer σ (host.nodes.current it) .node (host.nodes.lastError it)
  | none => (σ, invalidIteratorId (.node .empty))

def performQueryIteratorCurrent (σ : State W M SI NI QI) (id : UInt32) :
    State W M SI NI QI × Reply :=
  match σ.openQueryIterators.lookup id with
  | some it => answer σ (host.results.current it) .bindingSet (host.results.lastError it)
  | none => (σ, invalidIteratorId (.bindingSet .empty))

/-- A closed iterator leaves its table. -/
def performIteratorClose (σ : State W M SI NI QI) (id : UInt32) : State W M SI NI QI × Reply :=
  match σ.openStatementIterators.lookup id with
  | some it =>
    let (τ, reply) := answer σ (fun w => ((), host.statements.close it w)) (fun _ => .nothing)
      (host.statements.lastError it)
    ({ τ with openStatementIterators := τ.openStatementIterators.remove id }, reply)
  | none =>
    match σ.openNodeIterators.lookup id with
    | some it =>
      let (τ, reply) := answer σ (fun w => ((), host.nodes.close it w)) (fun _ => .nothing)
        (host.nodes.lastError it)
      ({ τ with openNodeIterators := τ.openNodeIterators.remove id }, reply)
    | none =>
      match σ.openQueryIterators.lookup id with
      | some it =>
        let (τ, reply) := answer σ (fun w => ((), host.results.close it w)) (fun _ => .nothing)
          (host.results.lastError it)
        ({ τ with openQueryIterators := τ.openQueryIterators.remove id }, reply)
      | none => (σ, invalidIteratorId .nothing)

/-- 1 for a graph, 2 for a Boolean result and 3 for bindings. -/
def queryType (it : QI) (w : W) : UInt8 × W :=
  let (graph, w) := host.isGraph it w
  if graph then (1, w)
  else
    let (bool, w) := host.isBool it w
    if bool then (2, w) else (3, w)

def performQueryIteratorType (σ : State W M SI NI QI) (id : UInt32) : State W M SI NI QI × Reply :=
  match σ.openQueryIterators.lookup id with
  | some it => answer σ (queryType host it) .type (host.results.lastError it)
  | none => (σ, invalidIteratorId (.type 0))

def performQueryIteratorBoolValue (σ : State W M SI NI QI) (id : UInt32) :
    State W M SI NI QI × Reply :=
  match σ.openQueryIterators.lookup id with
  | some it => answer σ (host.boolValue it) .bool (host.results.lastError it)
  | none => (σ, invalidIteratorId (.bool false))

/-! ### The handlers -/

/-- A handler reads the arguments of its command; it fails only where it never returns. -/
abbrev Handler (W M SI NI QI : Type) : Type :=
  State W M SI NI QI → Reader UInt8 (State W M SI NI QI × Reply)

/-- A computation that may never return. -/
def returns {α : Type} (a : Option α) : Reader UInt8 α := fun input => (a, input)

/-- `getModel` -/
def getModel (σ : State W M SI NI QI) : Reader UInt8 (Option M) := do
  let id ← attempt readUnsignedInt32
  pure (id.bind (ModelPool.modelById σ))

/-- A handler of a model: the further arguments are read only where the model is known. -/
def withModel {α : Type} (arguments : Reader UInt8 α)
    (perform : State W M SI NI QI → M → α → Option (State W M SI NI QI × Reply))
    (invalid : Value) : Handler W M SI NI QI := fun σ => do
  let model ← getModel σ
  match model with
  | some model => do
    let a ← arguments
    returns (perform σ model a)
  | none => pure (σ, invalidModelId invalid)

/-- The statement of a request; one that cannot be read stays empty. -/
def statementArgument : Reader UInt8 Statement := do
  let s ← attempt readStatement
  pure (s.getD .empty)

def nameArgument : Reader UInt8 QString := do
  let name ← attempt readString
  pure (name.getD [])

def idArgument : Reader UInt8 UInt32 := do
  let id ← attempt readUnsignedInt32
  pure (id.getD 0)

/-- The text, the language and the user language of a query. -/
def queryArguments : Reader UInt8 (QString × UInt16 × QString) := do
  let queryString ← nameArgument
  let queryLang ← attempt readUnsignedInt16
  let userLang ← nameArgument
  pure (queryString, queryLang.getD 0, userLang)

/-- A handler of an iterator. -/
def withIterator (perform : State W M SI NI QI → UInt32 → State W M SI NI QI × Reply) :
    Handler W M SI NI QI := fun σ => do
  let id ← idArgument
  pure (perform σ id)

def createModel : Handler W M SI NI QI := fun σ => do
  let name ← nameArgument
  returns (performCreateModel host σ name)

def removeModel : Handler W M SI NI QI := fun σ => do
  let name ← nameArgument
  pure (performRemoveModel host σ name)

def supportedFeatures : Handler W M SI NI QI := fun σ => pure (performSupportedFeatures host σ)

def addStatement : Handler W M SI NI QI :=
  withModel statementArgument
    (fun σ model s => some (answer σ (host.addStatement model s) .code (host.lastError model)))
    (.code .errorInvalidArgument)

def removeStatement : Handler W M SI NI QI :=
  withModel statementArgument
    (fun σ model s => some (answer σ (host.removeStatement model s) .code (host.lastError model)))
    (.code .errorInvalidArgument)

def removeAllStatements : Handler W M SI NI QI :=
  withModel statementArgument
    (fun σ model s =>
      some (answer σ (host.removeAllStatements model s) .code (host.lastError model)))
    (.code .errorInvalidArgument)

def listStatements : Handler W M SI NI QI :=
  withModel statementArgument
    (fun σ model s =>
      answerIterator insertStatementIterator σ (host.listStatements model s) (host.lastError model))
    (.id 0)

def containsStatement : Handler W M SI NI QI :=
  withModel statementArgument
    (fun σ model s => some (answer σ (host.containsStatement model s) .bool (host.lastError model)))
    (.bool false)

def containsAnyStatement : Handler W M SI NI QI :=
  withModel statementArgument
    (fun σ model s =>
      some (answer σ (host.containsAnyStatement model s) .bool (host.lastError model)))
    (.bool false)

def listContexts : Handler W M SI NI QI :=
  withModel (pure ())
    (fun σ model _ =>
      answerIterator insertNodeIterator σ (host.listContexts model) (host.lastError model))
    (.id 0)

def query : Handler W M SI NI QI :=
  withModel queryArguments
    (fun σ model (queryString, queryLang, userLang) =>
      answerIterator insertQueryIterator σ
        (host.executeQuery model queryString queryLang userLang) (host.lastError model))
    (.id 0)

def statementCount : Handler W M SI NI QI :=
  withModel (pure ())
    (fun σ model _ => some (answer σ (host.statementCount model) .count (host.lastError model)))
    (.count (-1))

def isEmpty : Handler W M SI NI QI :=
  withModel (pure ())
    (fun σ model _ => some (answer σ (host.isEmpty model) .bool (host.lastError model)))
    (.bool false)

def createBlankNode : Handler W M SI NI QI :=
  withModel (pure ())
    (fun σ model _ => some (answer σ (host.createBlankNode model) .node (host.lastError model)))
    (.node .empty)

def iteratorNext : Handler W M SI NI QI := withIterator (performIteratorNext host)

def statementIteratorCurrent : Handler W M SI NI QI :=
  withIterator (performStatementIteratorCurrent host)

def nodeIteratorCurrent : Handler W M SI NI QI := withIterator (performNodeIteratorCurrent host)

def queryIteratorCurrent : Handler W M SI NI QI := withIterator (performQueryIteratorCurrent host)

def iteratorClose : Handler W M SI NI QI := withIterator (performIteratorClose host)

def queryIteratorType : Handler W M SI NI QI := withIterator (performQueryIteratorType host)

def queryIteratorBoolValue : Handler W M SI NI QI :=
  withIterator (performQueryIteratorBoolValue host)

def supportsProtocolVersion : Handler W M SI NI QI :=
  withIterator fun σ requestedVersion =>
    (σ, ⟨.bool (requestedVersion = protocolVersion), none⟩)

/-- The `switch` of `_s_readNextCommand`. -/
def handlers : List (UInt16 × Handler W M SI NI QI) := [
  (commandIteratorNext, iteratorNext host),
  (commandIteratorCurrentBindingSet, queryIteratorCurrent host),
  (commandSupportsProtocolVersion, supportsProtocolVersion),
  (commandCreateModel, createModel host),
  (commandRemoveModel, removeModel host),
  (commandSupportedFeatures, supportedFeatures host),
  (commandModelAddStatement, addStatement host),
  (commandModelRemoveStatement, removeStatement host),
  (commandModelRemoveAllStatements, removeAllStatements host),
  (commandModelListStatements, listStatements host),
  (commandModelContainsStatement, containsStatement host),
  (commandModelContainsAnyStatement, containsAnyStatement host),
  (commandModelListContexts, listContexts host),
  (commandModelStatementCount, statementCount host),
  (commandModelIsEmpty, isEmpty host),
  (commandModelQuery, query host),
  (commandIteratorCurrentStatement, statementIteratorCurrent host),
  (commandIteratorCurrentNode, nodeIteratorCurrent host),
  (commandIteratorClose, iteratorClose host),
  (commandIteratorQueryType, queryIteratorType host),
  (commandIteratorQueryBoolValue, queryIteratorBoolValue host),
  (commandModelCreateBlankNode, createBlankNode host)]

/-- `_s_readNextCommand`: the command, and the reply to it; the connection is closed, `none`, on a
command that is not known. -/
def readNextCommand (σ : State W M SI NI QI) :
    Reader UInt8 (UInt16 × Option (State W M SI NI QI × Reply)) := do
  let command ← attempt readUnsignedInt16
  match (handlers host).lookup (command.getD 0) with
  | some handler => do
    let result ← handler σ
    pure (command.getD 0, some result)
  | none => pure (command.getD 0, none)

end ServerConnection

end Server

end Soprano
