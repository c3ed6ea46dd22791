import Mathlib.Logic.Function.Basic
import Soprano.Library.Runs
import Soprano.Server.ServerConnection
import Soprano.Virtuoso.Odbc

/-! `ConnectionPool::connection`, the end of threads and the end of the pool, as the threads take turns: who
has the mutex, and which connections there are. -/

namespace Soprano

namespace ODBC

open Server (QHash)

/-- Who deletes a connection: `createConnection` behind a setup command that has failed, the slot
`cleanup`, or the destructor of the pool. -/
inductive Caller where
  | createConnection
  | cleanup
  | pool
deriving DecidableEq

/-- Where a thread is. -/
inductive Place where
  /-- It has ended. -/
  | gone
  /-- It is not in the code of the pool. -/
  | out
  /-- `connection` asks for the mutex. -/
  | entering
  /-- `connection` has the mutex. -/
  | inside
  /-- `createConnection` connects the driver. -/
  | creating
  /-- `createConnection` has these setup commands left for a connection. -/
  | setup (conn : Nat) (commands : List QString)
  /-- `~Connection` asks for the mutex. -/
  | deleting (conn : Nat) (caller : Caller)
  /-- `~Connection` has the mutex. -/
  | removing (conn : Nat) (caller : Caller)
  /-- `~Connection` has given the mutex back. -/
  | freeing (conn : Nat) (caller : Caller)
  /-- It has ended, and its signals are delivered. -/
  | ending
  /-- It is in the destructor of the pool. -/
  | destroying
deriving DecidableEq

namespace Place

/-- The thread has the mutex, where no setup command has failed. -/
def holds : Place → Bool
  | inside | creating | setup _ _ | removing _ _ => true
  | _ => false

/-- The thread asks for the mutex. -/
def asks : Place → Bool
  | entering | deleting _ _ => true
  | _ => false

/-- The thread has not ended. -/
def running : Place → Bool
  | gone | ending | deleting _ .cleanup | removing _ .cleanup | freeing _ .cleanup => false
  | _ => true

/-- The connection that the thread sets up. -/
def setsUp : Place → Option Nat
  | setup conn _ => some conn
  | _ => none

/-- The connection that the thread deletes, once it has taken it from the map. -/
def frees : Place → Option Nat
  | freeing conn _ => some conn
  | _ => none

/-- The connection that the thread sets up or deletes. -/
def conn : Place → Option Nat
  | setup conn _ | deleting conn _ | removing conn _ | freeing conn _ => some conn
  | _ => none

/-- The thread is in the destructor of the pool. -/
def destroys : Place → Bool
  | destroying | deleting _ .pool | removing _ .pool | freeing _ .pool => true
  | _ => false

end Place

/-- Whether the pool is there. -/
inductive Phase (τ : Type) where
  | there
  | destroying (t : τ)
  | destroyed
deriving DecidableEq

/-- The pool and its threads. -/
structure Threads (τ : Type) where
  m_openConnections : QHash τ Nat
  m_connectionMutex : Option τ
  phase : Phase τ
  place : τ → Place
  /-- The connections whose `cleanup` is connected to the signals of a thread. -/
  listeners : List (τ × Nat)
  /-- The number of the next connection. -/
  created : Nat
  deleted : List Nat
  /-- What `connection` has returned to each thread. -/
  handed : List (τ × Nat)
  /-- The map when `connection` took the mutex, and the maps before and behind each creation that failed. -/
  entered : QHash τ Nat
  failed : List (QHash τ Nat × QHash τ Nat)

/-- What the next step of a thread is, with what comes from outside. -/
inductive Action (τ : Type) where
  /-- `ConnectionPool::connection` is called. -/
  | call (t : τ)
  | lock (t : τ)
  | find (t : τ)
  /-- The driver is connected, or is not. -/
  | connect (t : τ) (succeeds : Bool)
  /-- `executeCommand` returns. -/
  | execute (t : τ) (code : ErrorCode)
  | insert (t : τ)
  | remove (t : τ)
  | free (t : τ)
  /-- The thread ends, and emits the first of its signals. -/
  | finish (t : τ)
  /-- The next one of `finished`, `terminated` and `destroyed` is emitted. -/
  | signal (t : τ)
  | deliver (t : τ)
  /-- `ConnectionPool::~ConnectionPool` is called. -/
  | destroy (t : τ)
  /-- The loop of the destructor goes on with a connection, or ends. -/
  | next (t : τ) (conn : Option Nat)

namespace Threads

variable {τ : Type} [DecidableEq τ]

/-- The pool is empty. A thread that is started again counts as another one. -/
def init : Threads τ where
  m_openConnections := []
  m_connectionMutex := none
  phase := .there
  place _ := .out
  listeners := []
  created := 0
  deleted := []
  handed := []
  entered := []
  failed := []

variable (s : Threads τ) (t : τ)

def move (place : Place) : Threads τ := { s with place := Function.update s.place t place }

/-- `connection` returns the connection, and the mutex is unlocked. -/
def succeed (conn : Nat) : Threads τ :=
  { s.move t .out with
    m_connectionMutex := none
    handed := (t, conn) :: s.handed }

/-- `connection` returns the null pointer, and the mutex is unlocked. -/
def fail : Threads τ :=
  { s.move t .out with
    m_connectionMutex := none
    failed := (s.entered, s.m_openConnections) :: s.failed }

/-- `QHash::key` and `QHash::remove` of a connection, which has no key if it is not in the map. -/
def removeConnection (conn : Nat) : QHash τ Nat :=
  match s.m_openConnections.find? (·.2 = conn) with
  | some (key, _) => QHash.remove s.m_openConnections key
  | none => s.m_openConnections

/-- Where a thread goes on behind the destructor of a connection. -/
def leave : Caller → Threads τ
  | .createConnection => s.fail t
  | .cleanup => s.move t .ending
  | .pool => s.move t .destroying

/-- One step of a thread, unless it waits. -/
def perform (connectionSetupCommands : List QString) (s : Threads τ) : Action τ → Option (Threads τ)
  | .call t =>
    if s.place t = .out ∧ s.phase ≠ .destroyed then some (s.move t .entering) else none
  | .lock t =>
    match s.place t, s.m_connectionMutex with
    | .entering, none =>
      some { s.move t .inside with m_connectionMutex := some t, entered := s.m_openConnections }
    | .deleting conn caller, none =>
      some { s.move t (.removing conn caller) with m_connectionMutex := some t }
    | _, _ => none
  | .find t =>
    if s.place t = .inside then
      match s.m_openConnections.lookup t with
      | some conn => some (s.succeed t conn)
      | none => some (s.move t .creating)
    else none
  | .connect t succeeds =>
    if s.place t = .creating then
      if succeeds then
        some { s.move t (.setup s.created connectionSetupCommands) with created := s.created + 1 }
      else some (s.fail t)
    else none
  | .execute t code =>
    match s.place t with
    | .setup conn (_ :: commands) =>
      if code = .errorNone then some (s.move t (.setup conn commands))
      else some (s.move t (.deleting conn .createConnection))
    | _ => none
  | .insert t =>
    match s.place t with
    | .setup conn [] =>
      some { s.succeed t conn with
        m_openConnections := QHash.insert s.m_openConnections t conn
        listeners := (t, conn) :: s.listeners }
    | _ => none
  | .remove t =>
    match s.place t with
    | .removing conn caller =>
      some { s.move t (.freeing conn caller) with
        m_connectionMutex := none
        m_openConnections := s.removeConnection conn }
    | _ => none
  | .free t =>
    match s.place t with
    | .freeing conn caller =>
      some { s.leave t caller with
        deleted := conn :: s.deleted
        listeners := s.listeners.filter (·.2 ≠ conn) }
    | _ => none
  | .finish t => if s.place t = .out then some (s.move t .ending) else none
  | .signal t => if s.place t = .gone then some (s.move t .ending) else none
  | .deliver t =>
    if s.place t = .ending then
      match s.listeners.find? (·.1 = t) with
      | some (_, conn) => some (s.move t (.deleting conn .cleanup))
      | none => some (s.move t .gone)
    else none
  | .destroy t =>
    if s.place t = .out ∧ s.phase = .there then
      some { s.move t .destroying with phase := .destroying t }
    else none
  | .next t conn =>
    if s.place t = .destroying then
      match conn with
      | some conn =>
        -- the loop takes the first connection of the map, in the order of the hash
        if conn ∈ s.m_openConnections.map Prod.snd then some (s.move t (.deleting conn .pool)) else none
      | none => if s.m_openConnections = [] then some { s.move t .out with phase := .destroyed } else none
    else none

/-- The condition on a step: the setup commands succeed, the pool is destroyed when all other threads have
left its code, and then no thread asks for a connection or ends before it is gone. -/
def Meets (s : Threads τ) : Action τ → Prop
  | .execute _ code => code = .errorNone
  | .destroy t => ∀ u, u ≠ t → s.place u = .out ∨ s.place u = .gone
  | .call _ | .finish _ | .signal _ => ∀ u, s.phase ≠ .destroying u
  | _ => True

end Threads

end ODBC

end Soprano
