import Soprano.Qt.Text

/-! `Error::Error` and `Error::ParserError`. -/

namespace Soprano

/-- `Error::ErrorCode` -/
inductive ErrorCode where
  | errorNone
  | errorInvalidArgument
  | errorNotSupported
  | errorParsingFailed
  | errorPermissionDenied
  | errorTimeout
  | errorUnknown
deriving DecidableEq, Repr

namespace ErrorCode

/-- The number of an error code. -/
def code : ErrorCode → Int32
  | .errorNone => 0
  | .errorInvalidArgument => 1
  | .errorNotSupported => 2
  | .errorParsingFailed => 3
  | .errorPermissionDenied => 4
  | .errorTimeout => 5
  | .errorUnknown => 0x1000

/-- `Error::convertErrorCode` -/
def convertErrorCode (code : Int) : ErrorCode :=
  if code = 0 then .errorNone
  else if code = 1 then .errorInvalidArgument
  else if code = 2 then .errorNotSupported
  else if code = 3 then .errorParsingFailed
  else if code = 4 then .errorPermissionDenied
  else if code = 5 then .errorTimeout
  else .errorUnknown

/-- `Error::errorMessage` of a number -/
def errorMessage (code : Int32) : QString :=
  match convertErrorCode code.toInt with
  | .errorNone => "Success".toList
  | .errorInvalidArgument => "Invalid argument".toList
  | .errorNotSupported => "Unsupported operation".toList
  | .errorParsingFailed => "Parsing failed".toList
  | .errorPermissionDenied => "Permission denied".toList
  | .errorTimeout => "Timeout".toList
  | .errorUnknown => "Unknown error".toList

theorem convertErrorCode_code (c : ErrorCode) : convertErrorCode c.code.toInt = c := by
  cases c <;> rfl

end ErrorCode

/-- `Error::Locator` -/
structure Locator where
  line : Int32
  column : Int32
  byte : Int32
  fileName : QString
deriving DecidableEq

/-- `Error::Error`; a `ParserError` has a locator. -/
structure Error where
  message : QString
  code : Int32
  locator : Option Locator
deriving DecidableEq

namespace Error

/-- `Error()` -/
def none : Error := ⟨[], 0, .none⟩

/-- `Error( message, code )`: the message of the code stands in for an empty one. -/
def ofMessage (message : QString) (code : Int32) : Error :=
  ⟨if message.isEmpty ∧ code < ErrorCode.errorUnknown.code then ErrorCode.errorMessage code
    else message, code, .none⟩

/-- `ParserError( loc, message, code )` -/
def ofLocator (loc : Locator) (message : QString) (code : Int32) : Error := ⟨message, code, loc⟩

/-- `Error::isParserError` -/
def isParserError (e : Error) : Bool := e.locator.isSome

end Error

end Soprano
