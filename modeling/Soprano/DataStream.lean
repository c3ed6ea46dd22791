import Soprano.Error
import Soprano.Library.Codec
import Soprano.Node

/-! `DataStream`: the bytes that client and server exchange.  Numbers are in the byte order of the
machine, here the least significant byte first. -/

namespace Soprano

open Codec

namespace DataStream

/-! ### Numbers -/

/-- `DataStream::writeUnsignedInt8` -/
def writeUnsignedInt8 (v : UInt8) : QByteArray := leBytes 1 v.toNat

/-- `DataStream::writeUnsignedInt16` -/
def writeUnsignedInt16 (v : UInt16) : QByteArray := leBytes 2 v.toNat

/-- `DataStream::writeUnsignedInt32` -/
def writeUnsignedInt32 (v : UInt32) : QByteArray := leBytes 4 v.toNat

/-- `DataStream::writeInt32` -/
def writeInt32 (v : Int32) : QByteArray := writeUnsignedInt32 v.toUInt32

/-- `DataStream::writeBool` -/
def writeBool (v : Bool) : QByteArray := writeUnsignedInt8 (if v then 1 else 0)

/-- `DataStream::readUnsignedInt8` -/
def readUnsignedInt8 : Reader UInt8 UInt8 := readLe 1 >>= fun n => pure (UInt8.ofNat n)

/-- `DataStream::readUnsignedInt16` -/
def readUnsignedInt16 : Reader UInt8 UInt16 := readLe 2 >>= fun n => pure (UInt16.ofNat n)

/-- `DataStream::readUnsignedInt32` -/
def readUnsignedInt32 : Reader UInt8 UInt32 := readLe 4 >>= fun n => pure (UInt32.ofNat n)

/-- `DataStream::readInt32` -/
def readInt32 : Reader UInt8 Int32 := readUnsignedInt32 >>= fun n => pure n.toInt32

/-- `DataStream::readBool` -/
def readBool : Reader UInt8 Bool := readUnsignedInt8 >>= fun v => pure (v != 0)

/-! ### Texts -/

/-- `DataStream::writeByteArray`: the length is an `int`. -/
def writeByteArray (a : QByteArray) : QByteArray :=
  writeUnsignedInt32 (UInt32.ofNat a.length) ++ a

/-- `DataStream::readByteArray` -/
def readByteArray : Reader UInt8 QByteArray := readUnsignedInt32 >>= fun len => take len.toNat

section Qt

variable [Qt]

/-- `DataStream::writeString` -/
def writeString (s : QString) : QByteArray := writeByteArray (QString.toUtf8 s)

/-- `DataStream::writeUrl` -/
def writeUrl (url : QUrl) : QByteArray := writeByteArray url.toEncoded

/-- `DataStream::readString` -/
def readString : Reader UInt8 QString := readByteArray >>= fun a => pure (QString.fromUtf8 a)

/-- `DataStream::readUrl` -/
def readUrl : Reader UInt8 QUrl :=
  readByteArray >>= fun a => pure (QUrl.fromEncoded a .strictMode)

/-! ### Errors -/

/-- `DataStream::writeErrorCode` -/
def writeErrorCode (code : ErrorCode) : QByteArray :=
  writeUnsignedInt16 code.code.toUInt32.toUInt16

/-- `DataStream::readErrorCode` -/
def readErrorCode : Reader UInt8 ErrorCode :=
  readUnsignedInt16 >>= fun v => pure (ErrorCode.convertErrorCode v.toNat)

/-- `DataStream::writeLocator` -/
def writeLocator (loc : Locator) : QByteArray :=
  writeInt32 loc.line ++ (writeInt32 loc.column ++ (writeInt32 loc.byte ++
    writeString loc.fileName))

/-- `DataStream::readLocator` -/
def readLocator : Reader UInt8 Locator := do
  let line ← readInt32
  let column ← readInt32
  let byte ← readInt32
  let fileName ← readString
  pure ⟨line, column, byte, fileName⟩

/-- `DataStream::writeError` -/
def writeError (error : Error) : QByteArray :=
  writeBool error.isParserError ++ (writeInt32 error.code ++ (writeString error.message ++
    match error.locator with
    | some loc => writeLocator loc
    | none => []))

/-- `DataStream::readError` -/
def readError : Reader UInt8 Error := do
  let isParserError ← readBool
  let code ← readInt32
  let message ← readString
  if isParserError then do
    let loc ← readLocator
    pure (.ofLocator loc message code)
  else pure (.ofMessage message code)

/-! ### Nodes, statements and binding sets -/

/-- `DataStream::writeLiteralValue`: the data type is written for some types of values only. -/
def writeLiteralValue (value : LiteralValue) : QByteArray :=
  writeBool value.isPlain ++
    if value.isPlain then writeString value.toString ++ writeString value.language.toString
    else
      writeInt32 value.type.code ++
        match value.variant with
        | .string s => writeString s
        | .url u => writeUrl u
        | .int i => writeInt32 i
        | .bool b => writeBool b
        | .byteArray a => writeByteArray a
        | .dateTime dt => writeUnsignedInt32 dt.toTime_t
        | _ => writeString value.toString ++ writeUrl value.dataTypeUri

/-- `DataStream::readLiteralValue` -/
def readLiteralValue : Reader UInt8 LiteralValue := do
  let plain ← readBool
  if plain then do
    let v ← readString
    let lang ← readString
    pure (.createPlainLiteral v (.ofString lang))
  else do
    let t ← readInt32
    match VariantType.ofCode t with
    | .string => do
      let str ← readString
      pure (.ofVariant (.string str))
    | .url => do
      let url ← readUrl
      pure (.ofVariant (.url url))
    | .int => do
      let integer ← readInt32
      pure (.ofVariant (.int integer))
    | .bool => do
      let boolean ← readBool
      pure (.ofVariant (.bool boolean))
    | .byteArray => do
      let array ← readByteArray
      pure (.ofVariant (.byteArray array))
    | .dateTime => do
      let timet ← readUnsignedInt32
      pure (.ofVariant (.dateTime (.fromTime_t timet)))
    | _ => do
      let str ← readString
      let dt ← readUrl
      pure (.fromString str dt)

/-- The number of a node type. -/
def typeCode : NodeType → UInt8
  | .emptyNode => 0
  | .resourceNode => 1
  | .literalNode => 2
  | .blankNode => 3

/-- `DataStream::writeNode` -/
def writeNode (node : Node) : QByteArray :=
  writeUnsignedInt8 (typeCode node.type) ++
    match node with
    | .literal value _ => writeLiteralValue value
    | .resource uri _ => writeUrl uri
    | .blank id _ => writeString id
    | .empty => []

/-- `DataStream::readNode` -/
def readNode : Reader UInt8 Node := do
  let type ← readUnsignedInt8
  if type = typeCode .literalNode then do
    let v ← readLiteralValue
    pure (.ofLiteral v)
  else if type = typeCode .resourceNode then do
    let url ← readUrl
    pure (.ofUri url)
  else if type = typeCode .blankNode then do
    let id ← readString
    pure (.ofIdentifier id)
  else pure .empty

/-- `DataStream::writeStatement` -/
def writeStatement (s : Statement) : QByteArray :=
  writeNode s.subject ++ (writeNode s.predicate ++ (writeNode s.object ++ writeNode s.context))

/-- `DataStream::readStatement` -/
def readStatement : Reader UInt8 Statement := do
  let subject ← readNode
  let predicate ← readNode
  let object ← readNode
  let context ← readNode
  pure ⟨subject, predicate, object, context⟩

/-- `DataStream::writeBindingSet`: the number of names, and as many bindings as the map has. -/
def writeBindingSet (set : BindingSet) : QByteArray :=
  writeUnsignedInt32 (UInt32.ofNat set.bindingNames.length) ++
    (set.bindings.take set.count).flatMap fun (name, value) => writeString name ++ writeNode value

/-- One turn of the loop that reads a binding set. -/
def readBinding : Reader UInt8 (QString × Node) := do
  let name ← readString
  let node ← readNode
  pure (name, node)

/-- `DataStream::readBindingSet` -/
def readBindingSet : Reader UInt8 BindingSet := do
  let nb ← readUnsignedInt32
  let bindings ← times readBinding nb.toNat
  pure (bindings.foldl (fun set (name, node) => set.insert name node) .empty)

/-! ### What is read of what was written -/

omit [Qt] in
theorem reads_unsignedInt8 (v : UInt8) : Reads readUnsignedInt8 (writeUnsignedInt8 v) v := by
  have := (reads_le (k := 1) v.toNat_lt).bind_pure (f := UInt8.ofNat)
  rwa [UInt8.ofNat_toNat] at this

omit [Qt] in
theorem reads_unsignedInt16 (v : UInt16) : Reads readUnsignedInt16 (writeUnsignedInt16 v) v := by
  have := (reads_le (k := 2) v.toNat_lt).bind_pure (f := UInt16.ofNat)
  rwa [UInt16.ofNat_toNat] at this

omit [Qt] in
theorem reads_unsignedInt32 (v : UInt32) : Reads readUnsignedInt32 (writeUnsignedInt32 v) v := by
  have := (reads_le (k := 4) v.toNat_lt).bind_pure (f := UInt32.ofNat)
  rwa [UInt32.ofNat_toNat] at this

omit [Qt] in
theorem reads_int32 (v : Int32) : Reads readInt32 (writeInt32 v) v :=
  (reads_unsignedInt32 v.toUInt32).bind_pure

omit [Qt] in
theorem reads_bool (v : Bool) : Reads readBool (writeBool v) v := by
  have := (reads_unsignedInt8 (if v then 1 else 0)).bind_pure (f := (· != 0))
  cases v <;> exact this

/-- The length of a `QByteArray` is an `int`. -/
def Fits (a : QByteArray) : Prop := a.length < 2 ^ 31

instance (a : QByteArray) : Decidable (Fits a) :=
  inferInstanceAs (Decidable (a.length < 2 ^ 31))

omit [Qt] in
theorem reads_byteArray {a : QByteArray} (h : Fits a) :
    Reads readByteArray (writeByteArray a) a := by
  have hLength : (UInt32.ofNat a.length).toNat = a.length :=
    UInt32.toNat_ofNat_of_lt' (Nat.lt_trans h (by decide))
  refine (reads_unsignedInt32 _).bind ?_
  rw [hLength]
  exact Reads.take a

theorem reads_string {s : QString} (h : Fits s.toUtf8) : Reads readString (writeString s) s := by
  have := (reads_byteArray h).bind_pure (f := QString.fromUtf8)
  rwa [QString.fromUtf8_toUtf8] at this

theorem reads_url {u : QUrl} (h : Fits u.toEncoded) : Reads readUrl (writeUrl u) u := by
  have := (reads_byteArray h).bind_pure (f := fun a => QUrl.fromEncoded a .strictMode)
  rwa [QUrl.fromEncoded_toEncoded] at this

/-- The literal that is read where `v` was written. -/
def receivedLiteral (v : LiteralValue) : LiteralValue :=
  match v with
  | .typed (.dateTime dt) _ _ => .ofVariant (.dateTime (.fromTime_t dt.toTime_t))
  | .typed (.string s) _ _ => .ofVariant (.string s)
  | .typed (.int i) _ _ => .ofVariant (.int i)
  | .typed (.bool b) _ _ => .ofVariant (.bool b)
  | .typed (.byteArray a) _ _ => .ofVariant (.byteArray a)
  | .typed value dtUri _ => .fromString (LiteralValue.text value) dtUri
  | v => v

/-- The byte arrays that are written for a literal. -/
def literalArrays (v : LiteralValue) : List QByteArray :=
  [v.toString.toUtf8, v.language.toString.toUtf8, v.dataTypeUri.toEncoded] ++
    match v.variant with
    | .byteArray a => [a]
    | _ => []

theorem reads_literalValue {v : LiteralValue} (hValid : v.isValid = true)
    (h : ∀ a ∈ literalArrays v, Fits a) :
    Reads readLiteralValue (writeLiteralValue v) (receivedLiteral v) := by
  simp only [literalArrays, List.mem_append, List.mem_cons, List.not_mem_nil, or_false] at h
  have hText : Fits v.toString.toUtf8 := h _ (by simp)
  have hLang : Fits v.language.toString.toUtf8 := h _ (by simp)
  have hUri : Fits v.dataTypeUri.toEncoded := h _ (by simp)
  unfold readLiteralValue writeLiteralValue
  refine (reads_bool _).bind ?_
  cases v with
  | null => cases hValid
  | plain s l =>
    simp only [LiteralValue.isPlain, if_true]
    refine (reads_string hText).bind ?_
    have := (reads_string hLang).bind_pure
      (f := fun lang => LiteralValue.createPlainLiteral s (.ofString lang))
    rw [LiteralValue.language, LanguageTag.ofString_toString] at this
    exact this
  | typed value u hStored =>
    simp only [LiteralValue.isPlain, Bool.false_eq_true, if_false]
    refine (reads_int32 _).bind ?_
    cases value with
    | invalid => exact absurd hStored.1.symm (stored_ne _).1
    | url => exact absurd hStored.1.symm (stored_ne _).2.1
    | other n => exact absurd hStored.1.symm ((stored_ne _).2.2 n)
    | string s => exact (reads_string hText).bind_pure
    | int i => exact (reads_int32 i).bind_pure
    | bool b => exact (reads_bool b).bind_pure
    | byteArray a => exact (reads_byteArray (h a (by simp [LiteralValue.variant]))).bind_pure
    | dateTime dt => exact (reads_unsignedInt32 _).bind_pure
    | uint | longLong | uLongLong | double | date | time =>
      exact (reads_string hText).bind (reads_url hUri).bind_pure

/-- The node that is read where `n` was written. -/
def receivedNode : Node → Node
  | .literal v _ => .ofLiteral (receivedLiteral v)
  | n => n

/-- The byte arrays that are written for a node. -/
def nodeArrays (n : Node) : List QByteArray :=
  match n with
  | .literal v _ => literalArrays v
  | .resource u _ => [u.toEncoded]
  | .blank id _ => [id.toUtf8]
  | .empty => []

/-- Each byte array that is written for the node has the length of a `QByteArray`. -/
def NodeFits (n : Node) : Prop := ∀ a ∈ nodeArrays n, Fits a

theorem reads_node {n : Node} (h : NodeFits n) :
    Reads readNode (writeNode n) (receivedNode n) := by
  unfold readNode writeNode
  refine (reads_unsignedInt8 _).bind ?_
  cases n with
  | empty => exact Reads.pure _
  | resource u hu =>
    have := (reads_url (h u.toEncoded (by simp [nodeArrays]))).bind_pure (f := Node.ofUri)
    rwa [Node.ofUri_self u hu] at this
  | blank id hId =>
    have := (reads_string (h id.toUtf8 (by simp [nodeArrays]))).bind_pure (f := Node.ofIdentifier)
    rwa [Node.ofIdentifier_self id hId] at this
  | literal v hv => exact (reads_literalValue hv h).bind_pure

/-- The statement that is read where `s` was written. -/
def receivedStatement (s : Statement) : Statement :=
  ⟨receivedNode s.subject, receivedNode s.predicate, receivedNode s.object, receivedNode s.context⟩

theorem reads_statement {s : Statement} (h : ∀ n ∈ s.nodes, NodeFits n) :
    Reads readStatement (writeStatement s) (receivedStatement s) := by
  unfold readStatement writeStatement
  refine (reads_node (h _ (by simp [Statement.nodes]))).bind ?_
  refine (reads_node (h _ (by simp [Statement.nodes]))).bind ?_
  refine (reads_node (h _ (by simp [Statement.nodes]))).bind ?_
  exact (reads_node (h _ (by simp [Statement.nodes]))).bind_pure

/-- A binding set of fewer than `2^31` bindings, whose names and nodes fit. -/
def BindingSetFits (set : BindingSet) : Prop :=
  set.bindings.length < 2 ^ 31 ∧ ∀ b ∈ set.bindings, Fits (QString.toUtf8 b.1) ∧ NodeFits b.2

/-- The binding set that is read where `set` was written. -/
def receivedBindingSet (set : BindingSet) : BindingSet :=
  ⟨set.bindings.map fun b => (b.1, receivedNode b.2)⟩

theorem foldl_insert (set : BindingSet) (bindings : List (QString × Node)) :
    bindings.foldl (fun set (name, node) => set.insert name node) set =
      ⟨set.bindings ++ bindings⟩ := by
  induction bindings generalizing set with
  | nil => simp
  | cons b bindings ih =>
    rw [List.foldl_cons, ih]
    simp [BindingSet.insert]

theorem reads_binding {b : QString × Node} (hName : Fits (QString.toUtf8 b.1)) (h : NodeFits b.2) :
    Reads readBinding (writeString b.1 ++ writeNode b.2) (b.1, receivedNode b.2) :=
  (reads_string hName).bind (reads_node h).bind_pure

/-- A binding set in which no name is bound twice is read as it was written. -/
theorem reads_bindingSet {set : BindingSet} (hNames : set.DistinctNames)
    (h : BindingSetFits set) :
    Reads readBindingSet (writeBindingSet set) (receivedBindingSet set) := by
  obtain ⟨hSize, hFits⟩ := h
  have hLength : set.bindingNames.length = set.bindings.length := List.length_map _
  have hNumber : (UInt32.ofNat set.bindings.length).toNat = set.bindings.length :=
    UInt32.toNat_ofNat_of_lt' (Nat.lt_trans hSize (by decide))
  have hBindings : Reads (times readBinding set.bindings.length)
      (set.bindings.flatMap fun b => writeString b.1 ++ writeNode b.2)
      (set.bindings.map fun b => (b.1, receivedNode b.2)) :=
    Reads.times set.bindings fun b hb => reads_binding (hFits b hb).1 (hFits b hb).2
  have hSet := hBindings.bind_pure
    (f := List.foldl (fun set (name, node) => set.insert name node) BindingSet.empty)
  rw [foldl_insert] at hSet
  unfold readBindingSet writeBindingSet
  rw [BindingSet.count_eq hNames, List.take_length, hLength]
  refine (reads_unsignedInt32 _).bind ?_
  rw [hNumber]
  exact hSet

omit [Qt] in
theorem reads_errorCode (code : ErrorCode) :
    Reads readErrorCode (writeErrorCode code) code := by
  have := (reads_unsignedInt16 code.code.toUInt32.toUInt16).bind_pure
    (f := fun v => ErrorCode.convertErrorCode v.toNat)
  rwa [show ErrorCode.convertErrorCode (code.code.toUInt32.toUInt16).toNat = code by
    cases code <;> rfl] at this

/-- The error that is read where `e` was written: an empty message of a small code is filled in. -/
def receivedError (e : Error) : Error :=
  match e.locator with
  | some loc => .ofLocator loc e.message e.code
  | none => .ofMessage e.message e.code

/-- Each text of the error has the length of a `QByteArray`. -/
def ErrorFits (e : Error) : Prop :=
  Fits (QString.toUtf8 e.message) ∧ ∀ loc, e.locator = some loc → Fits (QString.toUtf8 loc.fileName)

theorem reads_locator {loc : Locator} (h : Fits (QString.toUtf8 loc.fileName)) :
    Reads readLocator (writeLocator loc) loc :=
  (reads_int32 _).bind ((reads_int32 _).bind ((reads_int32 _).bind (reads_string h).bind_pure))

theorem reads_error {e : Error} (h : ErrorFits e) :
    Reads readError (writeError e) (receivedError e) := by
  unfold readError writeError
  refine (reads_bool _).bind ((reads_int32 _).bind ((reads_string h.1).bind ?_))
  unfold Error.isParserError receivedError
  cases hLocator : e.locator with
  | some loc => exact (reads_locator (h.2 loc hLocator)).bind_pure
  | none => exact Reads.pure _

/-! ### What comes back unchanged -/

/-- The literals whose bytes determine them.  The data type is not written for strings, `int`s,
Booleans, byte arrays and date-times, and a date-time is written as whole seconds. -/
def Kept : LiteralValue → Prop
  | .typed value dtUri _ =>
    match value with
    | .string _ | .int _ | .bool _ | .byteArray _ => dtUri = dataTypeUriFromType value.type
    | .dateTime dt => dt.WholeSeconds
    | _ => value.ValidDateTime
  | _ => True

theorem ofVariant_eq_typed_iff {v w : QVariant} {dtUri : QUrl} {h : StoredAs w dtUri}
    (hv : (dataTypeUriFromType v.type).isEmpty = false) :
    LiteralValue.ofVariant v = .typed w dtUri h ↔ v = w ∧ dataTypeUriFromType v.type = dtUri := by
  rw [LiteralValue.ofVariant_eq hv, LiteralValue.typed.injEq]

theorem receivedLiteral_eq_iff {v : LiteralValue} (h : v.isDouble = false) :
    receivedLiteral v = v ↔ Kept v := by
  cases v with
  | null | plain => simp [receivedLiteral, Kept]
  | typed value u hStored =>
    have hDouble : value.type ≠ .double := by
      simpa [LiteralValue.isDouble, LiteralValue.type, LiteralValue.variant] using h
    cases value with
    | string | int | bool | byteArray =>
      rw [receivedLiteral, ofVariant_eq_typed_iff rfl]
      simp [Kept, eq_comm]
    | dateTime dt =>
      rw [receivedLiteral, ofVariant_eq_typed_iff rfl]
      simp [Kept, eq_dateTime_of_storedAs hStored, QVariant.type, dataTypeUriFromType,
        QDateTime.fromTime_t_toTime_t_iff]
    | _ => exact LiteralValue.fromString_eq_typed_iff hStored hDouble

theorem receivedNode_eq_iff {n : Node} (h : n.isDouble = false) :
    receivedNode n = n ↔ Kept n.toLiteral := by
  cases n with
  | literal v hv =>
    refine Iff.trans ?_ (receivedLiteral_eq_iff (v := v) h)
    rw [receivedNode, Node.ofLiteral]
    split
    · rw [Node.literal.injEq]
    · rename_i hInvalid
      simp only [reduceCtorEq, false_iff]
      rintro hEq
      exact hInvalid (by rw [hEq]; exact hv)
  | _ => simp [receivedNode, Node.toLiteral, Kept]

/-- A node comes back from its bytes exactly if its literal, where it has one, is kept, and a
statement exactly if this holds of its four nodes. -/
theorem wire_roundtrip_iff :
    (∀ n : Node, n.isDouble = false → NodeFits n →
      ((∃ m, (readNode (writeNode n)).1 = some m ∧ n.operatorEq m = true) ↔ Kept n.toLiteral)) ∧
    (∀ s : Statement, (∀ n ∈ s.nodes, n.isDouble = false ∧ NodeFits n) →
      ((∃ t, (readStatement (writeStatement s)).1 = some t ∧ s.operatorEq t = true) ↔
        ∀ n ∈ s.nodes, Kept n.toLiteral)) := by
  refine ⟨fun n hDouble hFits => ?_, fun s h => ?_⟩
  · rw [(reads_node hFits).run, ← receivedNode_eq_iff hDouble]
    simp [Node.operatorEq_iff hDouble, eq_comm]
  · rw [(reads_statement fun n hn => (h n hn).2).run]
    have hKept := fun n hn => receivedNode_eq_iff (h n hn).1
    simp only [Statement.nodes, List.mem_cons, List.not_mem_nil, or_false, forall_eq_or_imp,
      forall_eq] at hKept ⊢
    obtain ⟨hSubject, hPredicate, hObject, hContext⟩ := hKept
    rw [← hSubject, ← hPredicate, ← hObject, ← hContext]
    simp only [Option.some.injEq, exists_eq_left',
      Statement.operatorEq_iff fun n hn => (h n hn).1]
    cases s
    simp [receivedStatement, eq_comm]

/-- The data type that `ServerOperatorTest::testLiteralValue` defines. -/
def userDataType : QUrl := .ofString "http://soprano.org/mytestType" (by decide)

end Qt

section Example

local instance wireQt : Qt := asciiQt

/-- A text of a data type that the user defined is read as an `xsd:string`. -/
theorem wire_roundtrip_userDataType :
    let n := Node.ofLiteral (.fromString "Hello World".toList userDataType)
    let m := Node.ofLiteral (.ofVariant (.string "Hello World".toList))
    n.isDouble = false ∧ NodeFits n ∧ (readNode (writeNode n)).1 = some m ∧
      n.operatorEq m = false := by
  have hFits : NodeFits (.ofLiteral (.fromString "Hello World".toList userDataType)) := by
    unfold NodeFits Fits
    decide
  refine ⟨by decide, hFits, ?_, by decide +kernel⟩
  rw [(reads_node hFits).run]
  decide

/-- An `xsd:unsignedShort` is kept. -/
theorem wire_roundtrip_unsignedShort :
    let n := Node.ofLiteral (.fromString "42".toList Vocabulary.XMLSchema.unsignedShort)
    ∃ m, (readNode (writeNode n)).1 = some m ∧ n.operatorEq m = true := by
  refine (wire_roundtrip_iff.1 _ (by decide) ?_).mpr ?_
  · unfold NodeFits Fits
    decide
  · rw [show (Node.ofLiteral (.fromString "42".toList Vocabulary.XMLSchema.unsignedShort)).toLiteral
      = .typed (.uint 42) Vocabulary.XMLSchema.unsignedShort (by decide) by decide +kernel]
    trivial

end Example

end DataStream

end Soprano
