import Soprano.DateTime
import Soprano.Qt.Variant
import Soprano.Vocabulary

/-! `LanguageTag` and `LiteralValue`.  A literal carries what its constructors establish: a
normalized language tag, and a variant of the type in which its data type's values are stored. -/

namespace Soprano

open Vocabulary

/-! ### Data types -/

/-- `XsdTypePool::m_xsdHash` -/
def xsdHash : List (QUrl × VariantType) :=
  [(XMLSchema.xsdInt, .int),
    (XMLSchema.integer, .int),
    (XMLSchema.negativeInteger, .int),
    (XMLSchema.nonNegativeInteger, .uint),
    (XMLSchema.decimal, .int),
    (XMLSchema.xsdShort, .int),
    (XMLSchema.xsdLong, .longLong),
    (XMLSchema.unsignedInt, .uint),
    (XMLSchema.unsignedShort, .uint),
    (XMLSchema.unsignedLong, .uLongLong),
    (XMLSchema.boolean, .bool),
    (XMLSchema.xsdDouble, .double),
    (XMLSchema.xsdFloat, .double),
    (XMLSchema.string, .string),
    (XMLSchema.date, .date),
    (XMLSchema.time, .time),
    (XMLSchema.dateTime, .dateTime),
    (XMLSchema.base64Binary, .byteArray),
    (RDF.XMLLiteral, .string)]

/-- `LiteralValue::typeFromDataTypeUri` -/
def typeFromDataTypeUri (dataTypeUri : QUrl) : VariantType :=
  (xsdHash.lookup dataTypeUri).getD .invalid

/-- `LiteralValue::dataTypeUriFromType`: the entries of `XsdTypePool::m_variantHash`, and an empty
URI for any other type. -/
def dataTypeUriFromType : VariantType → QUrl
  | .int => XMLSchema.xsdInt
  | .longLong => XMLSchema.xsdLong
  | .uint => XMLSchema.unsignedInt
  | .uLongLong => XMLSchema.unsignedLong
  | .bool => XMLSchema.boolean
  | .double => XMLSchema.xsdDouble
  | .string => XMLSchema.string
  | .date => XMLSchema.date
  | .time => XMLSchema.time
  | .dateTime => XMLSchema.dateTime
  | .byteArray => XMLSchema.base64Binary
  | _ => QUrl.empty

/-- The type of the value that `LiteralValue::fromString` makes of a text for a type. -/
def VariantType.stored : VariantType → VariantType
  | .invalid | .url | .other _ => .string
  | t => t

/-- The variant is of the type in which the values of the data type are stored. -/
def StoredAs (value : QVariant) (dtUri : QUrl) : Prop :=
  value.type = (typeFromDataTypeUri dtUri).stored ∧ dtUri.isEmpty = false

instance (value : QVariant) (dtUri : QUrl) : Decidable (StoredAs value dtUri) := by
  unfold StoredAs
  infer_instance

theorem typeFromDataTypeUri_dataTypeUriFromType : ∀ t ∈ [VariantType.bool, .int, .uint, .longLong,
    .uLongLong, .double, .string, .byteArray, .date, .time, .dateTime],
    typeFromDataTypeUri (dataTypeUriFromType t) = t := by
  decide

/-- Each type that has a data type is the type that its data type is stored in. -/
theorem storedAs_dataTypeUriFromType {value : QVariant}
    (h : (dataTypeUriFromType value.type).isEmpty = false) :
    StoredAs value (dataTypeUriFromType value.type) := by
  refine ⟨?_, h⟩
  have hType := typeFromDataTypeUri_dataTypeUriFromType value.type
  cases value with
  | invalid | url | other => cases h
  | _ =>
    rw [hType (by simp [QVariant.type])]
    rfl

theorem stored_ne (t : VariantType) :
    t.stored ≠ .invalid ∧ t.stored ≠ .url ∧ ∀ n, t.stored ≠ .other n := by
  cases t <;> simp [VariantType.stored]

theorem eq_of_stored_eq {t s : VariantType} (h : s = t.stored) (hs : s ≠ .string) : t = s := by
  cases t <;> simp_all [VariantType.stored]

/-- Date-times have one data type. -/
theorem eq_dateTime_of_storedAs {dt : QDateTime} {dtUri : QUrl}
    (h : StoredAs (.dateTime dt) dtUri) : dtUri = XMLSchema.dateTime := by
  have hType : typeFromDataTypeUri dtUri = .dateTime := eq_of_stored_eq h.1 nofun
  unfold typeFromDataTypeUri at hType
  cases hLookup : xsdHash.lookup dtUri with
  | none =>
    rw [hLookup] at hType
    cases hType
  | some t =>
    obtain rfl : t = .dateTime := by rwa [hLookup] at hType
    obtain ⟨l₁, l₂, hSplit, -⟩ := List.lookup_eq_some_iff.mp hLookup
    have hMem : (dtUri, VariantType.dateTime) ∈ xsdHash := by simp [hSplit]
    exact (by decide : ∀ e ∈ xsdHash, e.2 = .dateTime → e.1 = XMLSchema.dateTime) _ hMem rfl

/-! ### Language tags -/

variable [Qt]

/-- `LanguageTag`: a lower-case tag, which may be empty. -/
structure LanguageTag where
  normalizedTag : QString
  normalized : Qt.toLower normalizedTag = normalizedTag
deriving DecidableEq

namespace LanguageTag

/-- `LanguageTag( const QString& )` -/
def ofString (tag : QString) : LanguageTag := ⟨Qt.toLower tag, Qt.toLower_toLower tag⟩

/-- `LanguageTag::toString` -/
def toString (tag : LanguageTag) : QString := tag.normalizedTag

/-- `LanguageTag::isEmpty` -/
def isEmpty (tag : LanguageTag) : Bool := tag.normalizedTag.isEmpty

/-- `LanguageTag::subTags` -/
def subTags (tag : LanguageTag) : List QString := tag.toString.splitOn '-'

/-- The loop of `LanguageTag::isValid` over the sub-tags from `s` on. -/
def validSubTags : (s : Nat) → (privateUse : Bool) → List QString → Bool
  | _, _, [] => true
  | s, privateUse, st :: rest =>
    (1 ≤ st.length && st.length ≤ 8) &&
      -- Letters only for the primary subtag
      (if s = 0 then st.all Char.isAlpha else st.all Char.isAlphanum) &&
      (privateUse || !(st.length = 1 && rest.isEmpty)) &&
      validSubTags (s + 1) (privateUse || st = ['x']) rest

/-- `LanguageTag::isValid` -/
def isValid (tag : LanguageTag) : Bool := validSubTags 0 false tag.subTags

/-- `LanguageTag()` -/
def empty : LanguageTag := ⟨[], by rw [Qt.toLower_ascii [] (by simp)]; rfl⟩

@[ext] theorem ext {l m : LanguageTag} (h : l.normalizedTag = m.normalizedTag) : l = m := by
  cases l
  cases m
  simpa using h

@[simp] theorem ofString_toString (tag : LanguageTag) : ofString tag.toString = tag :=
  ext tag.normalized

end LanguageTag

/-! ### Literals -/

/-- `LiteralValue`.  The data type URI of a typed literal is the one that `dataTypeUri` returns: the
code fills in the default of the variant's type when it is first asked. -/
inductive LiteralValue where
  | null
  | plain (value : QString) (lang : LanguageTag)
  | typed (value : QVariant) (dtUri : QUrl) (stored : StoredAs value dtUri)
deriving DecidableEq

namespace LiteralValue

/-- `LiteralValue( const QVariant& )`, and the constructors for the types that a variant holds.  A
variant of any other type makes no literal. -/
def ofVariant (value : QVariant) : LiteralValue :=
  if h : (dataTypeUriFromType value.type).isEmpty = false then
    typed value (dataTypeUriFromType value.type) (storedAs_dataTypeUriFromType h)
  else null

/-- A literal of a variant whose type has a data type. -/
theorem ofVariant_eq {value : QVariant} (h : (dataTypeUriFromType value.type).isEmpty = false) :
    ofVariant value =
      typed value (dataTypeUriFromType value.type) (storedAs_dataTypeUriFromType h) := dif_pos h

/-- `LiteralValue::createPlainLiteral` -/
def createPlainLiteral (value : QString) (lang : LanguageTag) : LiteralValue := plain value lang

/-- `LiteralValue::variant` -/
def variant : LiteralValue → QVariant
  | null => .invalid
  | plain value _ => .string value
  | typed value _ _ => value

/-- `LiteralValue::type` -/
def type (v : LiteralValue) : VariantType := v.variant.type

/-- `LiteralValue::isValid` -/
def isValid (v : LiteralValue) : Bool := v.variant.isValid

theorem isValid_plain (value : QString) (lang : LanguageTag) : (plain value lang).isValid = true :=
  rfl

/-- `LiteralValue::isPlain` -/
def isPlain : LiteralValue → Bool
  | plain _ _ => true
  | _ => false

/-- `LiteralValue::language` -/
def language : LiteralValue → LanguageTag
  | plain _ lang => lang
  | _ => LanguageTag.empty

/-- `LiteralValue::dataTypeUri` -/
def dataTypeUri : LiteralValue → QUrl
  | typed _ dtUri _ => dtUri
  | _ => QUrl.empty

/-- `LiteralValue::operator==` -/
def operatorEq (v w : LiteralValue) : Bool :=
  if !v.variant.operatorEq w.variant || v.isPlain != w.isPlain then false
  else if v.isPlain then v.language = w.language
  else v.dataTypeUri = w.dataTypeUri

/-- The text of a variant in `LiteralValue::toString`. -/
def text : QVariant → QString
  | .int i => QString.number i.toInt
  | .longLong i => QString.number i.toInt
  | .uint i => QString.natural i.toNat
  | .uLongLong i => QString.natural i.toNat
  | .bool b => if b then "true".toList else "false".toList
  | .double d => Qt.number d
  | .date d => DateTime.dateToString d
  | .time t => DateTime.timeToString t
  | .dateTime dt => DateTime.dateTimeToString dt
  | .byteArray a => QString.fromLatin1 (QByteArray.toBase64 a)
  | v => v.toString

/-- `LiteralValue::toString` -/
def toString : LiteralValue → QString
  | null => []
  | plain value _ => value
  | typed value _ _ => text value

/-- `LiteralValue::toInt` -/
def toInt (v : LiteralValue) : Int32 :=
  match v.variant with
  | .int i => i
  | value => (Qt.variantToInt value).getD 0

/-- `LiteralValue& operator=( int )`: a data type whose values are stored as `int` is kept. -/
def assignInt (v : LiteralValue) (i : Int32) : LiteralValue :=
  if h : typeFromDataTypeUri v.dataTypeUri = .int ∧ v.dataTypeUri.isEmpty = false then
    typed (.int i) v.dataTypeUri ⟨by rw [h.1]; rfl, h.2⟩
  else ofVariant (.int i)

/-- `LiteralValue& operator=( uint )` -/
def assignUInt (v : LiteralValue) (i : UInt32) : LiteralValue :=
  if h : typeFromDataTypeUri v.dataTypeUri = .uint ∧ v.dataTypeUri.isEmpty = false then
    typed (.uint i) v.dataTypeUri ⟨by rw [h.1]; rfl, h.2⟩
  else ofVariant (.uint i)

/-! ### Literals of texts -/

/-- The variant that `LiteralValue::fromString( value, type )` makes of a text. -/
def parse (value : QString) : VariantType → Option QVariant
  | .string => some (.string value)
  | .dateTime =>
    let date := DateTime.fromDateTimeString value
    if date.isValid then some (.dateTime date) else none
  | .int => (QString.toInt value).map .int
  | .longLong => (QString.toLongLong value).map .longLong
  | .uint => (QString.toUInt value).map .uint
  | .uLongLong => (QString.toULongLong value).map .uLongLong
  | .double => (Qt.toDouble value).map .double
  | .date => (DateTime.fromDateString value).map fun d => .date (some d)
  | .time => (DateTime.fromTimeString value).map fun t => .time (some t)
  | .bool =>
    match QString.toInt value with
    | some v => some (.bool (v != 0))
    | none =>
      if Qt.toLower value = "true".toList ∨ Qt.toLower value = "yes".toList then some (.bool true)
      else if Qt.toLower value = "false".toList ∨ Qt.toLower value = "no".toList then
        some (.bool false)
      else none
  | .byteArray => some (.byteArray (QByteArray.fromBase64 (QString.toLatin1 value)))
  | _ => some (.string value)

omit [Qt] in
theorem type_of_map {α : Type} {f : α → QVariant} {o : Option α} {v : QVariant} {t : VariantType}
    (hf : ∀ a, (f a).type = t) (h : o.map f = some v) : v.type = t := by
  obtain ⟨a, -, rfl⟩ := Option.map_eq_some_iff.mp h
  exact hf a

theorem type_of_parse {value : QString} {t : VariantType} {v : QVariant}
    (h : parse value t = some v) : v.type = t.stored := by
  cases t with
  | int | longLong | uint | uLongLong | double | date | time =>
    exact type_of_map (fun _ => rfl) h
  | string | byteArray | invalid | url | other _ =>
    cases h
    rfl
  | dateTime =>
    simp only [parse] at h
    split at h <;> cases h
    rfl
  | bool =>
    simp only [parse] at h
    repeat' split at h
    all_goals cases h <;> rfl

/-- `LiteralValue::fromString( const QString&, QVariant::Type )` -/
def fromStringAs (value : QString) (type : VariantType) : LiteralValue :=
  match parse value type with
  | some v => ofVariant v
  | none => null

/-- The data type of a typed literal whose `dtUri` was set to `type`. -/
def resolved (v : QVariant) (type : QUrl) : QUrl :=
  if type.isEmpty then dataTypeUriFromType v.type else type

omit [Qt] in
theorem storedAs_resolved {v : QVariant} {type : QUrl}
    (h : v.type = (typeFromDataTypeUri type).stored) : StoredAs v (resolved v type) := by
  unfold resolved
  split
  · rename_i hEmpty
    rw [QUrl.isEmpty_iff.mp hEmpty] at h
    have hString : v.type = .string := h
    exact storedAs_dataTypeUriFromType (by rw [hString]; rfl)
  · exact ⟨h, by simp_all⟩

/-- `LiteralValue::fromString( const QString&, const QUrl& )` -/
def fromString (value : QString) (type : QUrl) : LiteralValue :=
  if type.isEmpty && value.isEmpty then null
  else
    match h : parse value (typeFromDataTypeUri type) with
    | some v => typed v (resolved v type) (storedAs_resolved (type_of_parse h))
    | none => null

/-- What a literal that was made of a text says about the text and the data type. -/
theorem fromString_eq_typed {value : QString} {type dtUri : QUrl} {v : QVariant}
    {h : StoredAs v dtUri} (hType : type.isEmpty = false)
    (hEq : fromString value type = typed v dtUri h) :
    dtUri = type ∧ parse value (typeFromDataTypeUri type) = some v := by
  rw [fromString, if_neg (by simp [hType])] at hEq
  split at hEq
  · rename_i w hParse
    rw [typed.injEq] at hEq
    obtain ⟨rfl, rfl⟩ := hEq
    exact ⟨by simp [resolved, hType], hParse⟩
  · cases hEq

/-- A text of a data type that is stored as strings is kept as it is. -/
theorem parse_string {value : QString} {t : VariantType} (h : t.stored = .string) :
    parse value t = some (.string value) := by
  cases t <;> first | rfl | cases h

/-! ### Literals of variants -/

/-- The conversions of `LiteralValue::fromVariant` to the type of a data type.  No literal holds an
invalid variant, so the match of two invalid types counts for nothing. -/
def convert (value : QVariant) (literalType : VariantType) : Option QVariant :=
  if !Qt.canConvert value literalType then none
  else
    match literalType with
    | .int => (Qt.variantToInt value).map .int
    | .uint => (Qt.variantToUInt value).map .uint
    | .double => (Qt.variantToDouble value).map .double
    | .invalid | .url | .other _ => none
    | _ => if value.type = literalType then some value else none

theorem type_of_convert {value : QVariant} {t : VariantType} {v : QVariant}
    (h : convert value t = some v) : v.type = t.stored := by
  unfold convert at h
  split at h
  · cases h
  · cases t with
    | int | uint | double => exact type_of_map (fun _ => rfl) h
    | invalid | url | other _ => cases h
    | _ =>
      simp only at h
      split at h <;> cases h
      assumption

/-- `LiteralValue::fromVariant`: a number is taken as a `time_t` where a date-time is asked for. -/
def fromVariant (value : QVariant) (dataType : QUrl) : LiteralValue :=
  let time :=
    if dataType = XMLSchema.dateTime ∧ Qt.canConvert value .int then Qt.variantToInt value else none
  match time with
  | some t => ofVariant (.dateTime (QDateTime.fromTime_t t.toUInt32))
  | none =>
    match h : convert value (typeFromDataTypeUri dataType) with
    | some v => typed v (resolved v dataType) (storedAs_resolved (type_of_convert h))
    | none => fromString value.toString dataType

/-! ### The lexical form -/

/-- `LiteralValue::isDouble` -/
def isDouble (v : LiteralValue) : Bool := v.type == .double

theorem parse_true : parse "true".toList .bool = some (.bool true) := by
  have hLower : Qt.toLower "true".toList = "true".toList := by
    rw [Qt.toLower_ascii _ (by simp)]
    decide
  simp only [parse, show QString.toInt "true".toList = none by decide]
  rw [if_pos (.inl hLower)]

theorem parse_false : parse "false".toList .bool = some (.bool false) := by
  have hLower : Qt.toLower "false".toList = "false".toList := by
    rw [Qt.toLower_ascii _ (by simp)]
    decide
  simp only [parse, show QString.toInt "false".toList = none by decide]
  rw [if_neg (by rw [hLower]; decide), if_pos (.inl hLower)]

/-- The text of a variant is read as that variant. -/
theorem parse_text {v : QVariant} {t : VariantType} (h : v.type = t.stored)
    (hDouble : v.type ≠ .double) (hValid : v.ValidDateTime) : parse (text v) t = some v := by
  cases v with
  | string s => cases t <;> first | rfl | cases h
  | invalid | url | other => cases t <;> cases h
  | double d => exact absurd rfl hDouble
  | bool b =>
    obtain rfl : t = .bool := eq_of_stored_eq h nofun
    cases b
    · exact parse_false
    · exact parse_true
  | int i =>
    obtain rfl : t = .int := eq_of_stored_eq h nofun
    simp [parse, text, QString.toInt_number]
  | uint i =>
    obtain rfl : t = .uint := eq_of_stored_eq h nofun
    simp [parse, text, QString.toUInt_number]
  | longLong i =>
    obtain rfl : t = .longLong := eq_of_stored_eq h nofun
    simp [parse, text, QString.toLongLong_number]
  | uLongLong i =>
    obtain rfl : t = .uLongLong := eq_of_stored_eq h nofun
    simp [parse, text, QString.toULongLong_number]
  | byteArray a =>
    obtain rfl : t = .byteArray := eq_of_stored_eq h nofun
    simp [parse, text]
  | date d =>
    obtain rfl : t = .date := eq_of_stored_eq h nofun
    obtain ⟨d, rfl⟩ := Option.isSome_iff_exists.mp hValid
    simp [parse, text, DateTime.fromDateString_dateToString]
  | time clock =>
    obtain rfl : t = .time := eq_of_stored_eq h nofun
    obtain ⟨clock, rfl⟩ := Option.isSome_iff_exists.mp hValid
    simp [parse, text, DateTime.fromTimeString_timeToString]
  | dateTime dt =>
    obtain rfl : t = .dateTime := eq_of_stored_eq h nofun
    have hDt : dt.isValid = true := hValid
    simp [parse, text, DateTime.fromDateTimeString_dateTimeToString, hDt]

/-- A literal that is plain, or that holds neither a `double` nor an invalid date or time. -/
def Printable (v : LiteralValue) : Prop :=
  v.isPlain = false → v.type ≠ .double ∧ v.variant.ValidDateTime

instance (v : LiteralValue) : Decidable v.Printable := by
  unfold Printable
  infer_instance

/-- A typed literal is read back from its text and its data type. -/
theorem fromString_text {v : QVariant} {dtUri : QUrl} (h : StoredAs v dtUri)
    (hDouble : v.type ≠ .double) (hValid : v.ValidDateTime) :
    fromString (text v) dtUri = typed v dtUri h := by
  have hParse := parse_text h.1 hDouble hValid
  rw [fromString, if_neg (by simp [h.2])]
  split
  · rename_i w hw
    rw [hParse] at hw
    cases hw
    simp only [resolved, h.2, Bool.false_eq_true, if_false]
  · rename_i hw
    rw [hParse] at hw
    cases hw

theorem Printable.isDouble {v : LiteralValue} (h : v.Printable) : v.isDouble = false := by
  cases v with
  | null | plain => rfl
  | typed v u hv => simpa [LiteralValue.isDouble] using (h rfl).1

omit [Qt] in
theorem isTokenChar_of_digits {s : QString} (h : QString.Digits s) :
    ∀ c ∈ s, isTokenChar c = true := by
  intro c hc
  have := h.2 c hc
  simp [isTokenChar, Char.isAlphanum, this]

omit [Qt] in
theorem isTokenChar_number (n : Int) : ∀ c ∈ QString.number n, isTokenChar c = true := by
  have h := isTokenChar_of_digits (QString.digits_natural n.natAbs)
  unfold QString.number
  split
  · simpa [show isTokenChar '-' = true from rfl] using h
  · exact h

omit [Qt] in
theorem isTokenChar_ymdToString (year : Int) (month day : Nat) :
    ∀ c ∈ DateTime.ymdToString year month day, isTokenChar c = true := by
  have h := fun width n => isTokenChar_of_digits (QString.digits_padded width n)
  have hDash : isTokenChar '-' = true := rfl
  unfold DateTime.ymdToString
  intro c hc
  simp only [List.mem_append, List.mem_cons] at hc
  rcases hc with hc | hc | rfl | hc | rfl | hc
  · split at hc
    · rwa [List.mem_singleton.mp hc]
    · cases hc
  · exact h _ _ c hc
  · exact hDash
  · exact h _ _ c hc
  · exact hDash
  · exact h _ _ c hc

omit [Qt] in
theorem isTokenChar_dateToString (d : QDate) :
    ∀ c ∈ DateTime.dateToString d, isTokenChar c = true := by
  cases d <;> exact isTokenChar_ymdToString _ _ _

omit [Qt] in
theorem isTokenChar_timeToString (t : QTime) :
    ∀ c ∈ DateTime.timeToString t, isTokenChar c = true := by
  have h := fun width n => isTokenChar_of_digits (QString.digits_padded width n)
  have hFraction : ∀ msec, ∀ c ∈ DateTime.fractionText msec, isTokenChar c = true := by
    intro msec c hc
    unfold DateTime.fractionText at hc
    split at hc
    · have := (List.rdropWhile_prefix _ _).subset hc
      rcases List.mem_cons.mp this with rfl | hc
      · rfl
      · exact h _ _ c hc
    · cases hc
  cases t with
  | none => simp [DateTime.timeToString, show isTokenChar 'Z' = true from rfl]
  | some t =>
    intro c hc
    simp only [DateTime.timeToString, List.mem_append, List.mem_cons, List.not_mem_nil,
      or_false] at hc
    rcases hc with hc | rfl | hc | rfl | hc | hc | rfl
    · exact h _ _ c hc
    · rfl
    · exact h _ _ c hc
    · rfl
    · exact h _ _ c hc
    · exact hFraction _ c hc
    · rfl

/-- The text of a variant that holds neither a string nor a `double`. -/
theorem isTokenChar_text {v : QVariant} {dtUri : QUrl} (h : StoredAs v dtUri)
    (hString : v.type ≠ .string) (hDouble : v.type ≠ .double) :
    ∀ c ∈ text v, isTokenChar c = true := by
  cases v with
  | invalid => exact absurd h.1.symm (stored_ne _).1
  | url => exact absurd h.1.symm (stored_ne _).2.1
  | other n => exact absurd h.1.symm ((stored_ne _).2.2 n)
  | string => exact absurd rfl hString
  | double => exact absurd rfl hDouble
  | bool b => cases b <;> simp [text] <;> decide
  | int i => exact isTokenChar_number _
  | longLong i => exact isTokenChar_number _
  | uint i => exact isTokenChar_of_digits (QString.digits_natural _)
  | uLongLong i => exact isTokenChar_of_digits (QString.digits_natural _)
  | date d => exact isTokenChar_dateToString d
  | time t => exact isTokenChar_timeToString t
  | dateTime dt =>
    intro c hc
    simp only [text, DateTime.dateTimeToString, List.mem_append, List.mem_cons] at hc
    rcases hc with hc | rfl | hc
    · exact isTokenChar_dateToString _ c hc
    · rfl
    · exact isTokenChar_timeToString _ c hc
  | byteArray a =>
    rw [text, QByteArray.toBase64, fromLatin1_encode]
    exact isTokenChar_of_mem_encode a

/-- The text of an invalid date or time makes no literal. -/
theorem fromString_text_invalid {v : QVariant} {dtUri : QUrl} (h : StoredAs v dtUri)
    (hInvalid : ¬v.ValidDateTime) : fromString (text v) dtUri = null := by
  have hParse : parse (text v) (typeFromDataTypeUri dtUri) = none := by
    cases v with
    | date d =>
      cases d with
      | none =>
        rw [eq_of_stored_eq h.1 nofun]
        simp only [parse, text, QVariant.type, DateTime.fromDateString_null]
        rfl
      | some d => exact absurd rfl hInvalid
    | time t =>
      cases t with
      | none =>
        rw [eq_of_stored_eq h.1 nofun]
        rfl
      | some t => exact absurd rfl hInvalid
    | dateTime dt =>
      rw [eq_of_stored_eq h.1 nofun]
      have hDt : ¬dt.isValid = true := hInvalid
      simp only [parse, text, QVariant.type, DateTime.fromDateTimeString_dateTimeToString,
        if_neg hDt]
      rfl
    | _ => exact absurd trivial hInvalid
  rw [fromString, if_neg (by simp [h.2])]
  split
  · rename_i hw
    rw [hParse] at hw
    cases hw
  · rfl

/-- A typed literal is read back from its text and its data type exactly if its date or time is
valid. -/
theorem fromString_eq_typed_iff {v : QVariant} {dtUri : QUrl} (h : StoredAs v dtUri)
    (hDouble : v.type ≠ .double) : fromString (text v) dtUri = typed v dtUri h ↔
      v.ValidDateTime := by
  constructor
  · intro hEq
    by_contra hInvalid
    rw [fromString_text_invalid h hInvalid] at hEq
    cases hEq
  · exact fromString_text h hDouble

theorem isPlain_fromString (value : QString) (type : QUrl) :
    (fromString value type).isPlain = false := by
  unfold fromString
  split
  · rfl
  · split <;> rfl

/-! ### Equality -/

omit [Qt] in
/-- Literals of one data type hold variants of one type. -/
theorem type_eq_of_storedAs {v w : QVariant} {dtUri : QUrl} (hv : StoredAs v dtUri)
    (hw : StoredAs w dtUri) : v.type = w.type := hv.1.trans hw.1.symm

/-- `operator==` decides equality of literals that hold no `double`. -/
theorem operatorEq_iff {v w : LiteralValue} (h : v.isDouble = false) :
    v.operatorEq w = true ↔ v = w := by
  constructor
  · intro hEq
    simp only [operatorEq] at hEq
    split at hEq
    · cases hEq
    rename_i hSame
    simp only [Bool.or_eq_true, Bool.not_eq_true', bne_iff_ne, not_or, Bool.not_eq_false,
      ne_eq, not_not] at hSame
    obtain ⟨hVariant, hPlain⟩ := hSame
    cases v with
    | null =>
      cases w with
      | null => rfl
      | plain => cases hPlain
      | typed w u hw =>
        have hEmpty : QUrl.empty = u := of_decide_eq_true hEq
        exact absurd hw.2 (by rw [← hEmpty]; decide)
    | plain s l =>
      cases w with
      | plain t m =>
        have hValue := (QVariant.operatorEq_iff (v := .string s) (w := .string t) rfl
          (by simp [QVariant.type])).mp hVariant
        have hLang : l = m := of_decide_eq_true hEq
        rw [QVariant.string.inj hValue, hLang]
      | _ => cases hPlain
    | typed v u hv =>
      cases w with
      | null =>
        have hEmpty : u = QUrl.empty := of_decide_eq_true hEq
        exact absurd hv.2 (by rw [hEmpty]; decide)
      | plain => cases hPlain
      | typed w u' hw =>
        obtain rfl : u = u' := of_decide_eq_true hEq
        have hType := type_eq_of_storedAs hv hw
        obtain rfl : v = w := (QVariant.operatorEq_iff hType (by
          simpa [isDouble, type, variant] using h)).mp hVariant
        rfl
  · rintro rfl
    have : v.variant.operatorEq v.variant = true :=
      (QVariant.operatorEq_iff rfl (by simpa [isDouble, type] using h)).mpr rfl
    simp [operatorEq, this]

end LiteralValue

end Soprano
