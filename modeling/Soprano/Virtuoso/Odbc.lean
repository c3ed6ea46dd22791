import Soprano.Error
import Soprano.Node

/-! `ODBC::Connection` and `ODBC::ConnectionPool`: commands and their parameters, sent through the ODBC
driver, as one thread sees them. -/

namespace Soprano

/-- The messages that `SQLGetDiagRec` returns behind a failed call. -/
abbrev Diagnostics : Type := List QString

namespace Virtuoso

/-- `Virtuoso::convertSqlError` -/
def convertSqlError (records : Diagnostics) (extraMessage : QString) : Error :=
  let msg := (records.getLast?.map fun buf => "iODBC Error: ".toList ++ buf).getD []
  if msg.isEmpty then
    .ofMessage "Failed to retrieve error information from iODBC".toList ErrorCode.errorUnknown.code
  else if extraMessage.isEmpty then .ofMessage msg ErrorCode.errorUnknown.code
  else .ofMessage (extraMessage ++ " (".toList ++ msg ++ [')']) ErrorCode.errorUnknown.code

theorem code_convertSqlError (records : Diagnostics) (extraMessage : QString) :
    (convertSqlError records extraMessage).code = 0x1000 := by
  unfold convertSqlError
  simp only
  split
  · rfl
  · split <;> rfl

/-- There is no real default graph in Virtuoso: this one stands for it. -/
def defaultGraph : QUrl := .ofString "sopranofakes:/DEFAULTGRAPH" (by decide)

def openlinkVirtualGraph : QUrl :=
  .ofString "http://www.openlinksw.com/schemas/virtrdf#" (by decide)

def fakeBooleanType : QUrl :=
  .ofString "sopranofakes:/booleanHackUntilVirtuosoProblemIsResolved" (by decide)

def fakeBase64BinaryType : QUrl :=
  .ofString "sopranofakes:/base64BinaryHackUntilVirtuosoProblemIsResolved" (by decide)

end Virtuoso

namespace ODBC

open Virtuoso

/-- The three parameters that a node is bound to. -/
structure Parameter where
  mode : Int16
  value : QByteArray
  dtOrLang : QByteArray
deriving DecidableEq

/-- A column of a result, with its SQL type. -/
structure Column where
  name : QString
  type : Int16
deriving DecidableEq

/-- What the driver has for one column of a row: the text that `SQLGetData` returns, which is empty
for a null value, and the fields of the descriptor, each with the messages of a call that fails. -/
structure Cell where
  data : Except Diagnostics QByteArray
  stmtAttr : Except Diagnostics Unit
  dvType : Except Diagnostics Int32
  boxFlags : Except Diagnostics UInt32
  literalType : Option QByteArray
  literalLang : Except Diagnostics QByteArray
  dtType : Except Diagnostics Int32

/-- An executed statement: the columns that it describes, what `SQLFetch` returns each time, and the
messages of `SQLGetData` where there is no row or column. -/
structure ResultSet where
  columns : List Column
  rows : List (Except Diagnostics (List Cell))
  noData : Diagnostics

/-- Why there is no connection. -/
inductive ConnectFailure where
  | environment
  | handle
  | driver (records : Diagnostics)

/-- The ODBC driver manager and the server behind it. -/
structure Driver (S : Type) where
  /-- `Environment::createEnvironment`, `SQLAllocConnect` and `SQLDriverConnect` -/
  connect : QString → S → Except ConnectFailure Unit × S
  /-- `SQLAllocHandle` for a statement -/
  allocHandle : S → Except Diagnostics Unit × S
  /-- `SQLExecDirect` with the parameters that are bound to the statement -/
  execDirect : List Parameter → QByteArray → S → Except Diagnostics ResultSet × S

/-- A connection, by what is behind it and its last error. -/
structure Connection (S : Type) where
  state : S
  lastError : Error

/-- The pool, with the connection of the current thread. -/
structure ConnectionPool (S : Type) where
  odbcConnectString : QString
  connectionSetupCommands : List QString
  state : S
  /-- The last error of the thread's connection, if it has one. -/
  openConnection : Option Error
  /-- The error cache of `ConnectionPoolPrivate`, which `createConnection` sets. -/
  privateError : Error

section Qt

variable [Qt]

/-- The parameters of a node. Blank nodes are not parameterized. -/
def parameter : Node → Option Parameter
  | .resource uri _ => some ⟨1, uri.toEncoded, uri.toEncoded⟩
  | .literal literal _ =>
    let value := literal.toString.toUtf8
    if !literal.dataTypeUri.isEmpty then some ⟨4, value, literal.dataTypeUri.toEncoded⟩
    else if literal.language.isValid then some ⟨5, value, literal.language.toString.toUtf8⟩
    else some ⟨3, value, []⟩
  | _ => none

end Qt

namespace Connection

variable {S : Type} [Qt]

/-- `Connection::execute`: the statement handle, by its result. The code has room for four nodes. -/
def execute (driver : Driver S) (conn : Connection S) (request : QString) (params : List Node) :
    Option ResultSet × Connection S :=
  match driver.allocHandle conn.state with
  | (.error records, state) => (none, ⟨state, convertSqlError records []⟩)
  | (.ok _, state) =>
    match driver.execDirect (params.filterMap parameter) request.toUtf8 state with
    | (.error records, state) =>
      (none, ⟨state, convertSqlError records
        ("SQLExecDirect failed on query '".toList ++ request ++ ['\x27'])⟩)
    | (.ok result, state) => (some result, ⟨state, .none⟩)

/-- `Connection::executeCommand` -/
def executeCommand (driver : Driver S) (conn : Connection S) (command : QString)
    (params : List Node) : ErrorCode × Connection S :=
  (.errorNone, (conn.execute driver command params).2)

/-- The loop of `createConnection` over the setup commands. -/
def setup (driver : Driver S) (conn : Connection S) : List QString → Bool × Connection S
  | [] => (true, conn)
  | command :: commands =>
    let executed := conn.executeCommand driver command []
    if executed.1 ≠ .errorNone then (false, executed.2) else setup driver executed.2 commands

/-- The SQL execution succeeds. -/
def Succeeds (driver : Driver S) (conn : Connection S) (request : QString) (params : List Node) :
    Prop := (conn.execute driver request params).1.isSome = true

instance (driver : Driver S) (conn : Connection S) (request : QString) (params : List Node) :
    Decidable (conn.Succeeds driver request params) := by
  unfold Succeeds
  infer_instance

end Connection

namespace ConnectionPool

variable {S : Type} [Qt]

/-- `ConnectionPoolPrivate::createConnection` -/
def createConnection (driver : Driver S) (pool : ConnectionPool S) :
    Option (Connection S) × ConnectionPool S :=
  match driver.connect pool.odbcConnectString pool.state with
  | (.error failure, state) =>
    let error := match failure with
      | .environment =>
        Error.ofMessage "Unable to create ODBC environment.".toList ErrorCode.errorUnknown.code
      | .handle => .ofMessage "Failed to allocate SQL handle".toList ErrorCode.errorUnknown.code
      | .driver records => convertSqlError records []
    (none, { pool with state, privateError := error })
  | (.ok _, state) =>
    match Connection.setup driver ⟨state, .none⟩ pool.connectionSetupCommands with
    | (true, conn) => (some conn, { pool with state := conn.state, privateError := .none })
    | (false, conn) => (none, { pool with state := conn.state, privateError := conn.lastError })

/-- `ConnectionPool::lastError`: the error cache of the pool itself, which no function sets. -/
def lastError (_ : ConnectionPool S) : Error := .none

/-- The pool behind a call on its connection. -/
def update (pool : ConnectionPool S) (conn : Connection S) : ConnectionPool S :=
  { pool with state := conn.state, openConnection := some conn.lastError }

/-- `ConnectionPool::connection` -/
def connection (driver : Driver S) (pool : ConnectionPool S) :
    Option (Connection S) × ConnectionPool S :=
  match pool.openConnection with
  | some error => (some ⟨pool.state, error⟩, pool)
  | none =>
    match pool.createConnection driver with
    | (some conn, pool) => (some conn, pool.update conn)
    | (none, pool) => (none, pool)

end ConnectionPool

end ODBC

end Soprano
