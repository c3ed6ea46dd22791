import Soprano.Virtuoso.Odbc

/-! `ODBC::QueryResult`: the rows of an executed statement, and the node that a cell of the current row
is converted to. -/

namespace Soprano

namespace ODBC

open Virtuoso

section Qt

variable [Qt]

/-- The bytes of a C string. -/
def cString (data : QByteArray) : QByteArray := data.takeWhile (· ≠ 0)

/-- The case of `VIRTUOSO_DV_STRING`, whose flags tell IRIs and UTF-8 apart. -/
def stringNode (data : QByteArray) (boxFlags : UInt32) : Node :=
  if boxFlags &&& 1 ≠ 0 then
    if (QString.toLatin1 "_:".toList).isPrefixOf data then .ofIdentifier (.fromUtf8 (data.drop 2))
    else .ofUri (.fromEncoded data .strictMode)
  else if (QString.toLatin1 "nodeID://".toList).isPrefixOf data then
    .ofIdentifier (.fromLatin1 (data.drop 9))
  else if boxFlags &&& 2 ≠ 0 then
    .ofLiteral (.createPlainLiteral (.fromUtf8 data) .empty)
  else .ofLiteral (.createPlainLiteral (.fromLatin1 data) .empty)

/-- The case of `VIRTUOSO_DV_RDF` with a type: the types that stand for others are compared up to the
length of the one that the server returns. -/
def typedNode (str typeStr : QByteArray) : Node :=
  if typeStr.isPrefixOf fakeBooleanType.toEncoded then
    .ofLiteral (.ofVariant (.bool (str = QString.toLatin1 "true".toList)))
  else
    let type :=
      if typeStr.isPrefixOf fakeBase64BinaryType.toEncoded then Vocabulary.XMLSchema.base64Binary
      else .fromEncoded typeStr .strictMode
    .ofLiteral (.fromString (.fromUtf8 str) type)

/-- The type of a `VIRTUOSO_DV_DATETIME`. -/
def dateType (dtType : Int32) : VariantType :=
  if dtType = 2 then .date else if dtType = 3 then .time else .dateTime

namespace Cell

/-- The switch over the type of a cell in `QueryResult::getData`. -/
def convert (cell : Cell) (data : QByteArray) (dvType : Int32) : Node × Error :=
  let text := QString.fromUtf8 (cString data)
  if dvType = 182 then
    match cell.boxFlags with
    | .error records => (.empty, convertSqlError records "SQLGetDescField failed".toList)
    | .ok boxFlags => (stringNode (cString data) boxFlags, .none)
  else if dvType = 246 then
    match cell.literalType with
    | some typeStr => (typedNode (cString data) typeStr, .none)
    | none =>
      match cell.literalLang with
      | .ok lang =>
        (.ofLiteral (.createPlainLiteral text (.ofString (QString.fromLatin1 lang))), .none)
      | .error records =>
        (.empty, convertSqlError records "SQLGetDescField SQL_DESC_COL_LITERAL_* failed".toList)
  else if dvType = 189 then (.ofLiteral (.fromStringAs text .int), .none)
  else if dvType = 190 then
    (.ofLiteral (.fromString text Vocabulary.XMLSchema.xsdFloat), .none)
  else if dvType = 191 then (.ofLiteral (.fromStringAs text .double), .none)
  else if dvType = 219 then (.ofLiteral (.fromString text Vocabulary.XMLSchema.decimal), .none)
  else if dvType = 128 ∨ dvType = 129 ∨ dvType = 210 ∨ dvType = 211 then
    match cell.dtType with
    | .error records =>
      (.empty, convertSqlError records "SQLGetDescField SQL_DESC_COL_DT_DT_TYPE failed".toList)
    | .ok dtType =>
      let dts := text.map fun c => if c = ' ' then 'T' else c
      (.ofLiteral (.fromStringAs dts (dateType dtType)), .none)
  -- an IRI ID, which is passed on as a string
  else if dvType = 243 then (.ofLiteral (.ofVariant (.string (.fromLatin1 data))), .none)
  -- a null value
  else if dvType = 204 then (.empty, .none)
  else
    (.empty, .ofMessage ("Internal Error: Unknown result type ".toList ++ QString.number dvType.toInt)
      ErrorCode.errorUnknown.code)

/-- The node of a cell, and the error that is left behind. -/
def getData (cell : Cell) : Node × Error :=
  match cell.data with
  | .error records => (.empty, convertSqlError records "SQLGetData failed".toList)
  | .ok data =>
    match cell.stmtAttr with
    | .error records => (.empty, convertSqlError records "SQLGetStmtAttr failed".toList)
    | .ok _ =>
      match cell.dvType with
      | .error records =>
        (.empty,
          convertSqlError records "SQLGetDescField SQL_DESC_COL_DV_TYPE failed".toList)
      | .ok dvType => cell.convert data dvType

end Cell

end Qt

/-- `QueryResult`: the rows that are not fetched yet and the current one, which has no cells before the
first row and behind the last. -/
structure QueryResult where
  columns : List Column
  rows : List (Except Diagnostics (List Cell))
  /-- The messages of `SQLGetData` for a column that the current row does not have. -/
  noData : Diagnostics
  current : List Cell
  lastError : Error

namespace QueryResult

/-- The result of an executed statement. -/
def ofResultSet (result : ResultSet) : QueryResult :=
  ⟨result.columns, result.rows, result.noData, [], .none⟩

/-- `QueryResult::resultColumns` -/
def resultColumns (result : QueryResult) : List QString := result.columns.map (·.name)

/-- `QueryResult::isBlob`: `SQL_LONGVARCHAR`, `SQL_LONGVARBINARY` or `SQL_WLONGVARCHAR`. -/
def isBlob (result : QueryResult) (colNum : Nat) : Bool :=
  (result.columns[colNum - 1]?.map Column.type).any fun type => type = -1 || type = -4 || type = -10

/-- `QueryResult::fetchRow` -/
def fetchRow (result : QueryResult) : Bool × QueryResult :=
  match result.rows with
  | [] => (false, { result with current := [], lastError := .none })
  | .error records :: rows =>
    (false, { result with
      rows, current := [], lastError := convertSqlError records "SQLFetch failed".toList })
  | .ok row :: rows => (true, { result with rows, current := row })

/-- `QueryResult::getData` -/
def getData [Qt] (result : QueryResult) (colNum : Nat) : Node × QueryResult :=
  match result.current[colNum - 1]? with
  | some cell => (cell.getData.1, { result with lastError := cell.getData.2 })
  | none =>
    (.empty, { result with lastError := convertSqlError result.noData "SQLGetData failed".toList })

/-- The data of a column that the current row has. -/
theorem getData_of_drop [Qt] {result : QueryResult} {i : Nat} {cell : Cell} {row : List Cell}
    (h : result.current.drop i = cell :: row) :
    result.getData (i + 1) = (cell.getData.1, { result with lastError := cell.getData.2 }) := by
  have hCell : result.current[i]? = some cell := by
    have hHead : (result.current.drop i)[0]? = result.current[i + 0]? := List.getElem?_drop
    rw [h] at hHead
    exact hHead.symm
  simp [getData, hCell]

/-- There is no data for any other column. -/
theorem code_getData_of_drop [Qt] {result : QueryResult} {i : Nat}
    (h : result.current.drop i = []) : (result.getData (i + 1)).2.lastError.code ≠ 0 := by
  have hCell : result.current[i]? = none :=
    List.getElem?_eq_none (List.drop_eq_nil_iff.mp h)
  simp [getData, hCell, code_convertSqlError]

theorem length_fetchRow {result : QueryResult} (h : result.fetchRow.1 = true) :
    result.fetchRow.2.rows.length + 1 = result.rows.length := by
  unfold fetchRow at h ⊢
  split at h
  · cases h
  · cases h
  · rename_i hRows
    simp [hRows]

@[simp] theorem getData_rows [Qt] (result : QueryResult) (colNum : Nat) :
    (result.getData colNum).2.rows = result.rows := by
  unfold getData
  split <;> rfl

@[simp] theorem getData_current [Qt] (result : QueryResult) (colNum : Nat) :
    (result.getData colNum).2.current = result.current := by
  unfold getData
  split <;> rfl

end QueryResult

end ODBC

end Soprano
