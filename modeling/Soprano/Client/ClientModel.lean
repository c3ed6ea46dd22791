import Soprano.Library.Runs
import Soprano.Server.IteratorTables

/-! `ClientModel` and the iterators that it returns: which iterators of the server each client model
remembers, and who closes them. -/

namespace Soprano

namespace Client

open Server

variable {W M SI NI QI : Type} [Qt]

/-- A `ClientModel`.  One that was destroyed is kept with `alive` false; pointers to it are null. -/
structure ClientModel where
  modelId : Int32
  openIterators : List Int32
  alive : Bool

/-- The classes of iterator backends. -/
inductive IteratorKind where
  | statement
  | node
  | queryResult
deriving DecidableEq

/-- The backend of an iterator and the number of `Iterator` objects that share it; `ended` once it
was closed, exhausted or destroyed. -/
structure ClientIteratorBackend where
  iteratorId : Int32
  model : Nat
  kind : IteratorKind
  handles : Nat
  ended : Bool

/-- A connection: the server's side of it, the client models and the iterators. -/
structure Connection (W M SI NI QI : Type) where
  server : State W M SI NI QI
  models : List ClientModel
  iterators : List ClientIteratorBackend

/-- What the program on the client's side does next. -/
inductive Action where
  | construct (modelId : Int32)
  | listStatements (model : Nat) (partialStatement : Statement)
  | listContexts (model : Nat)
  | executeQuery (model : Nat) (query : QString) (language : UInt16) (userQueryLanguage : QString)
  | next (iterator : Nat)
  | close (iterator : Nat)
  | copy (iterator : Nat)
  | release (iterator : Nat)
  | destroy (model : Nat)
  | request (r : Request)

variable (host : Host W M SI NI QI)

namespace ClientModel

/-- `closeIterator`, of a model that exists. -/
def closeIterator (c : Connection W M SI NI QI) (model : Nat) (id : Int32) :
    Connection W M SI NI QI :=
  match c.models[model]? with
  | some m =>
    if m.alive && m.openIterators.contains id then
      { c with
        server := (ServerConnection.performIteratorClose host c.server id.toUInt32).1
        models := c.models.set model
          { m with openIterators := m.openIterators.filter (· ≠ id) } }
    else c
  | none => c

/-- `listStatements`, `listContexts` and `executeQuery`, by their request: a positive id is remembered
first, and there is an iterator where there is no error. -/
def openIterator (c : Connection W M SI NI QI) (model : Nat) (kind : IteratorKind)
    (r : Int32 → Request) : Option (Connection W M SI NI QI) :=
  match c.models[model]? with
  | some m =>
    if m.alive then do
      let (server, reply) ← (r m.modelId).perform host c.server
      let itId : Int32 :=
        match reply.value with
        | .id id => id.toInt32
        | _ => 0
      let models :=
        if itId > 0 then c.models.set model { m with openIterators := m.openIterators ++ [itId] }
        else c.models
      if (reply.error.getD .none).code ≠ 0 then some { c with server := server, models := models }
      else
        some ⟨server, models, c.iterators ++ [⟨itId, model, kind, 1, false⟩]⟩
    else none
  | none => none

/-- The destructor closes what is still open. -/
def destroy (c : Connection W M SI NI QI) (model : Nat) : Option (Connection W M SI NI QI) :=
  match c.models[model]? with
  | some m =>
    if m.alive then
      some { c with
        server := m.openIterators.foldl (fun server id =>
          (ServerConnection.performIteratorClose host server id.toUInt32).1) c.server
        models := c.models.set model { m with alive := false } }
    else none
  | none => none

end ClientModel

namespace ClientIteratorBackend

/-- `close`, which asks the model if it still exists. -/
def close (c : Connection W M SI NI QI) (b : ClientIteratorBackend) : Connection W M SI NI QI :=
  ClientModel.closeIterator host c b.model b.iteratorId

/-- `next`: the result, and the state behind it; a query iterator asks for its bindings. -/
def next (c : Connection W M SI NI QI) (b : ClientIteratorBackend) :
    Bool × Connection W M SI NI QI :=
  match c.models[b.model]? with
  | some m =>
    if m.alive then
      let (server, reply) :=
        ServerConnection.performIteratorNext host c.server b.iteratorId.toUInt32
      let r := reply.value == .bool true
      let server :=
        if r && b.kind == .queryResult then
          (ServerConnection.performQueryIteratorCurrent host server b.iteratorId.toUInt32).1
        else server
      (r, { c with server := server })
    else (false, c)
  | none => (false, c)

end ClientIteratorBackend

namespace Connection

/-- The iterator is closed, exhausted or destroyed. -/
def endIterator (c : Connection W M SI NI QI) (iterator : Nat) : Connection W M SI NI QI :=
  { c with iterators := c.iterators.modify iterator fun b => { b with ended := true } }

/-- The backend of an iterator that the program still has. -/
def backend (c : Connection W M SI NI QI) (iterator : Nat) : Option ClientIteratorBackend :=
  c.iterators[iterator]?.filter fun b => 0 < b.handles

/-- `none` where the program uses what does not exist, or where the server never replies. -/
def perform (c : Connection W M SI NI QI) : Action → Option (Connection W M SI NI QI)
  | .construct modelId => some { c with models := c.models ++ [⟨modelId, [], true⟩] }
  | .listStatements model s =>
    ClientModel.openIterator host c model .statement fun id => .listStatements id s
  | .listContexts model => ClientModel.openIterator host c model .node fun id => .listContexts id
  | .executeQuery model query language userQueryLanguage =>
    ClientModel.openIterator host c model .queryResult fun id =>
      .executeQuery id query language userQueryLanguage
  | .next iterator => do
    let b ← c.backend iterator
    -- `Iterator::next` closes a backend that has no further element.
    let (hasNext, c) := b.next host c
    some (if hasNext then c else (b.close host c).endIterator iterator)
  | .close iterator => do
    let b ← c.backend iterator
    some ((b.close host c).endIterator iterator)
  | .copy iterator => do
    let b ← c.backend iterator
    some { c with iterators := c.iterators.set iterator { b with handles := b.handles + 1 } }
  | .release iterator => do
    let b ← c.backend iterator
    let c := { c with iterators := c.iterators.set iterator { b with handles := b.handles - 1 } }
    -- The last `Iterator` closes the backend, and so does the backend's destructor.
    if b.handles = 1 then some ((b.close host (b.close host c)).endIterator iterator) else some c
  | .destroy model => ClientModel.destroy host c model
  | .request r =>
    if r.opens host c.server = none ∧ r.closes = none then do
      let (server, _) ← r.perform host c.server
      some { c with server := server }
    else none

def run (c : Connection W M SI NI QI) (actions : List Action) :
    Option (Connection W M SI NI QI) :=
  Runs.run (perform host) c actions

end Connection

end Client

end Soprano
