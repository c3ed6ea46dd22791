import Soprano.Server.Commands

/-! `ClientConnection`: the bytes of each request and what is read of the reply. -/

namespace Soprano

namespace Client

open Codec DataStream Server

variable [Qt]

/-- What a method of the client returns, and the last error that it leaves.  A value that could not
be read is `none`. -/
structure Result where
  value : Option Value
  error : Error
deriving DecidableEq

/-- A request: its command, the arguments behind it, and the reader of its reply. -/
structure Call where
  command : UInt16
  arguments : QByteArray
  result : Reader UInt8 Result

namespace ClientConnection

/-- The value of a reply and the error behind it. -/
def readReply (value : Reader UInt8 Value) : Reader UInt8 Result := do
  let value ← attempt value
  let error ← attempt readError
  pure ⟨value, error.getD .none⟩

/-- A request that is replied to with a value of one kind. -/
def call {α : Type} (command : UInt16) (arguments : QByteArray) (read : Reader UInt8 α)
    (value : α → Value) : Call :=
  ⟨command, arguments, readReply (read >>= fun a => pure (value a))⟩

/-- A request to a model. -/
def modelCall {α : Type} (command : UInt16) (modelId : Int32) (arguments : QByteArray)
    (read : Reader UInt8 α) (value : α → Value) : Call :=
  call command (writeUnsignedInt32 modelId.toUInt32 ++ arguments) read value

/-- A request to an iterator. -/
def iteratorCall {α : Type} (command : UInt16) (id : Int32) (read : Reader UInt8 α)
    (value : α → Value) : Call :=
  call command (writeUnsignedInt32 id.toUInt32) read value

def createModel (name : QString) : Call :=
  call commandCreateModel (writeString name) readUnsignedInt32 .id

def removeModel (name : QString) : Call :=
  call commandRemoveModel (writeString name) (pure ()) fun _ => .nothing

def supportedFeatures : Call := call commandSupportedFeatures [] readUnsignedInt32 .id

def addStatement (modelId : Int32) (statement : Statement) : Call :=
  modelCall commandModelAddStatement modelId (writeStatement statement) readErrorCode .code

def listContexts (modelId : Int32) : Call :=
  modelCall commandModelListContexts modelId [] readUnsignedInt32 .id

def executeQuery (modelId : Int32) (query : QString) (type : UInt16)
    (userQueryLanguage : QString) : Call :=
  modelCall commandModelQuery modelId
    (writeString query ++ (writeUnsignedInt16 type ++ writeString userQueryLanguage))
    readUnsignedInt32 .id

def listStatements (modelId : Int32) (pattern : Statement) : Call :=
  modelCall commandModelListStatements modelId (writeStatement pattern) readUnsignedInt32 .id

def removeAllStatements (modelId : Int32) (statement : Statement) : Call :=
  modelCall commandModelRemoveAllStatements modelId (writeStatement statement) readErrorCode .code

def removeStatement (modelId : Int32) (statement : Statement) : Call :=
  modelCall commandModelRemoveStatement modelId (writeStatement statement) readErrorCode .code

def statementCount (modelId : Int32) : Call :=
  modelCall commandModelStatementCount modelId [] readInt32 .count

def containsStatement (modelId : Int32) (statement : Statement) : Call :=
  modelCall commandModelContainsStatement modelId (writeStatement statement) readBool .bool

def containsAnyStatement (modelId : Int32) (statement : Statement) : Call :=
  modelCall commandModelContainsAnyStatement modelId (writeStatement statement) readBool .bool

def isEmpty (modelId : Int32) : Call := modelCall commandModelIsEmpty modelId [] readBool .bool

def createBlankNode (modelId : Int32) : Call :=
  modelCall commandModelCreateBlankNode modelId [] readNode .node

def iteratorNext (id : Int32) : Call := iteratorCall commandIteratorNext id readBool .bool

def nodeIteratorCurrent (id : Int32) : Call :=
  iteratorCall commandIteratorCurrentNode id readNode .node

def statementIteratorCurrent (id : Int32) : Call :=
  iteratorCall commandIteratorCurrentStatement id readStatement .statement

def queryIteratorCurrent (id : Int32) : Call :=
  iteratorCall commandIteratorCurrentBindingSet id readBindingSet .bindingSet

def queryIteratorCurrentStatement (id : Int32) : Call :=
  iteratorCall commandIteratorCurrentStatement id readStatement .statement

def queryIteratorType (id : Int32) : Call :=
  iteratorCall commandIteratorQueryType id readUnsignedInt8 .type

def queryIteratorBoolValue (id : Int32) : Call :=
  iteratorCall commandIteratorQueryBoolValue id readBool .bool

def iteratorClose (id : Int32) : Call :=
  iteratorCall commandIteratorClose id (pure ()) fun _ => .nothing

/-- The reply holds no error; the client makes one of a refusal. -/
def checkProtocolVersion : Call :=
  ⟨commandSupportsProtocolVersion, writeUnsignedInt32 protocolVersion, do
    let reply ← attempt readBool
    pure ⟨reply.map .bool, if reply = some true then .none else
      .ofMessage "Server does not support protocol version 5".toList
        ErrorCode.errorUnknown.code⟩⟩

end ClientConnection

end Client

end Soprano
