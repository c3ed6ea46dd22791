import Soprano.DataStream

/-! The commands of `commands.h` and the replies that follow them. -/

namespace Soprano

namespace Server

def commandCreateModel : UInt16 := 0x1
def commandModelAddStatement : UInt16 := 0x2
def commandModelRemoveStatement : UInt16 := 0x3
def commandModelRemoveAllStatements : UInt16 := 0x4
def commandModelListStatements : UInt16 := 0x5
def commandModelContainsStatement : UInt16 := 0x6
def commandModelContainsAnyStatement : UInt16 := 0x7
def commandModelListContexts : UInt16 := 0x8
def commandModelStatementCount : UInt16 := 0x9
def commandModelIsEmpty : UInt16 := 0x10
def commandModelQuery : UInt16 := 0x11
def commandIteratorNext : UInt16 := 0x12
def commandIteratorCurrentStatement : UInt16 := 0x13
def commandIteratorCurrentNode : UInt16 := 0x14
def commandIteratorCurrentBindingSet : UInt16 := 0x15
def commandIteratorClose : UInt16 := 0x16
def commandIteratorQueryType : UInt16 := 0x17
def commandIteratorQueryBoolValue : UInt16 := 0x18
def commandSupportedFeatures : UInt16 := 0x19
def commandSupportsProtocolVersion : UInt16 := 0x20
def commandModelCreateBlankNode : UInt16 := 0x21
def commandRemoveModel : UInt16 := 0x22

def protocolVersion : UInt32 := 5

variable [Qt]

/-- The value that a reply starts with. -/
inductive Value where
  | nothing
  | id (v : UInt32)
  | type (v : UInt8)
  | code (v : ErrorCode)
  | bool (v : Bool)
  | count (v : Int32)
  | node (v : Node)
  | statement (v : Statement)
  | bindingSet (v : BindingSet)
deriving DecidableEq

/-- What a handler writes: a value and, but for the protocol version, an error. -/
structure Reply where
  value : Value
  error : Option Error
deriving DecidableEq

open DataStream

def writeValue : Value → QByteArray
  | .nothing => []
  | .id v => writeUnsignedInt32 v
  | .type v => writeUnsignedInt8 v
  | .code v => writeErrorCode v
  | .bool v => writeBool v
  | .count v => writeInt32 v
  | .node v => writeNode v
  | .statement v => writeStatement v
  | .bindingSet v => writeBindingSet v

def writeReply (reply : Reply) : QByteArray :=
  writeValue reply.value ++
    match reply.error with
    | some error => writeError error
    | none => []

end Server

end Soprano
