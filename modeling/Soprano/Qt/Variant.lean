import Soprano.Qt.DateTime
import Soprano.Library.Base64
import Soprano.Qt.Url

/-! `QVariant`, and `Qt`: the functions of the Qt libraries that the modelled code calls and whose
results it does not fix, with what their documentation promises. -/

namespace Soprano

/-- A C++ `double`, by its bits. -/
structure Double where
  bits : UInt64
deriving DecidableEq, Repr

/-- `QVariant::Type` -/
inductive VariantType where
  | invalid
  | bool
  | int
  | uint
  | longLong
  | uLongLong
  | double
  | string
  | byteArray
  | date
  | time
  | dateTime
  | url
  | other (code : Int32)
deriving DecidableEq, Repr

namespace VariantType

/-- The number of an enumerator. -/
def code : VariantType → Int32
  | .invalid => 0
  | .bool => 1
  | .int => 2
  | .uint => 3
  | .longLong => 4
  | .uLongLong => 5
  | .double => 6
  | .string => 10
  | .byteArray => 12
  | .date => 14
  | .time => 15
  | .dateTime => 16
  | .url => 17
  | .other n => n

/-- The enumerator of a number: a `static_cast<QVariant::Type>`. -/
def ofCode (n : Int32) : VariantType :=
  ([.invalid, .bool, .int, .uint, .longLong, .uLongLong, .double, .string, .byteArray, .date, .time,
    .dateTime, .url].find? fun t => t.code == n).getD (.other n)

end VariantType

/-- A `QVariant`.  Types that no literal can hold are `other`, with the value's text. -/
inductive QVariant where
  | invalid
  | bool (b : Bool)
  | int (i : Int32)
  | uint (i : UInt32)
  | longLong (i : Int64)
  | uLongLong (i : UInt64)
  | double (d : Double)
  | string (s : QString)
  | byteArray (a : QByteArray)
  | date (d : QDate)
  | time (t : QTime)
  | dateTime (dt : QDateTime)
  | url (u : QUrl)
  | other (code : Int32) (text : QString)
deriving DecidableEq

namespace QVariant

/-- `QVariant::type` -/
def type : QVariant → VariantType
  | .invalid => .invalid
  | .bool _ => .bool
  | .int _ => .int
  | .uint _ => .uint
  | .longLong _ => .longLong
  | .uLongLong _ => .uLongLong
  | .double _ => .double
  | .string _ => .string
  | .byteArray _ => .byteArray
  | .date _ => .date
  | .time _ => .time
  | .dateTime _ => .dateTime
  | .url _ => .url
  | .other n _ => .other n

/-- `QVariant::isValid` -/
def isValid (v : QVariant) : Bool := v.type != .invalid

/-- The date or time that the variant holds, if it holds one, is valid. -/
def ValidDateTime : QVariant → Prop
  | .date d => d.isSome = true
  | .time t => t.isSome = true
  | .dateTime dt => dt.isValid = true
  | _ => True

instance (v : QVariant) : Decidable v.ValidDateTime := by
  cases v <;> unfold ValidDateTime <;> infer_instance

end QVariant

/-- What the modelled code asks of Qt beyond the types above. -/
class Qt where
  /-- `QString::toLower` -/
  toLower : QString → QString
  toLower_toLower : ∀ s, toLower (toLower s) = toLower s
  toLower_ascii : ∀ s, (∀ c ∈ s, c.toNat < 128) → toLower s = s.map Char.toLower
  /-- `QString::number( d, 'e', 10 )` -/
  number : Double → QString
  /-- `QString::toDouble` -/
  toDouble : QString → Option Double
  /-- `QVariant::canConvert` -/
  canConvert : QVariant → VariantType → Bool
  /-- `QVariant::toInt( &ok )` -/
  variantToInt : QVariant → Option Int32
  /-- `QVariant::toUInt( &ok )` -/
  variantToUInt : QVariant → Option UInt32
  /-- `QVariant::toDouble( &ok )` -/
  variantToDouble : QVariant → Option Double
  /-- `QVariant::toString` of a variant that holds no string -/
  variantToString : QVariant → QString
  /-- `operator==` of two `double`s -/
  doubleEq : Double → Double → Bool
  /-- `QVariant::operator==` of two variants of different types, one of which is converted -/
  convertedEq : QVariant → QVariant → Bool
  /-- `QString::fromUtf8` of bytes that are no UTF-8 -/
  fromBrokenUtf8 : QByteArray → QString
  /-- `QUrl::fromEncoded` of bytes that are no encoded URL -/
  urlOfText : QUrl.ParsingMode → QByteArray → QUrl
  /-- `QUrl( const QString& )` -/
  urlOfString : QString → QUrl
  /-- The characters that `\w` of `QRegExp` matches -/
  isWordChar : Char → Bool
  /-- `QUrl::toString`, which decodes percent encodings -/
  urlToString : QUrl → QString
  urlToString_plain : ∀ u, '%' ∉ u.encoded → urlToString u = u.encoded

variable [Qt]

/-- `QVariant::toString` -/
def QVariant.toString : QVariant → QString
  | .string s => s
  | v => Qt.variantToString v

/-- `QVariant::operator==` -/
def QVariant.operatorEq : QVariant → QVariant → Bool
  | .double d, .double e => Qt.doubleEq d e
  | v, w => if v.type = w.type then v = w else Qt.convertedEq v w

theorem QVariant.operatorEq_iff {v w : QVariant} (h : v.type = w.type)
    (hDouble : v.type ≠ .double) : v.operatorEq w = true ↔ v = w := by
  cases v with
  | double d => exact absurd rfl hDouble
  | _ => cases w <;> simp_all [operatorEq]

/-- `QUrl::fromEncoded` -/
def QUrl.fromEncoded (bytes : QByteArray) (mode : QUrl.ParsingMode) : QUrl :=
  if h : (QString.fromLatin1 bytes).all isUrlChar = true then ⟨QString.fromLatin1 bytes, h⟩
  else Qt.urlOfText mode bytes

@[simp] theorem QUrl.fromEncoded_toEncoded (u : QUrl) (mode : QUrl.ParsingMode) :
    QUrl.fromEncoded u.toEncoded mode = u := by
  unfold fromEncoded
  rw [dif_pos (by rw [fromLatin1_toEncoded]; exact u.legal)]
  exact QUrl.ext (fromLatin1_toEncoded u)

/-- `QString::toUtf8` -/
def QString.toUtf8 (s : QString) : QByteArray := s.flatMap String.utf8EncodeChar

/-- `QString::fromUtf8` -/
def QString.fromUtf8 (bytes : QByteArray) : QString :=
  match bytes.toByteArray.utf8Decode? with
  | some chars => chars.toList
  | none => Qt.fromBrokenUtf8 bytes

@[simp] theorem QString.fromUtf8_toUtf8 (s : QString) : fromUtf8 s.toUtf8 = s := by
  unfold fromUtf8 toUtf8
  rw [show (s.flatMap String.utf8EncodeChar).toByteArray = s.utf8Encode from rfl]
  simp

/-- `QByteArray::toBase64` -/
def QByteArray.toBase64 (a : QByteArray) : QByteArray := QString.toLatin1 (Base64.encode a)

/-- `QByteArray::fromBase64` -/
def QByteArray.fromBase64 (a : QByteArray) : QByteArray := Base64.decode (QString.fromLatin1 a)

omit [Qt] in
theorem isTokenChar_of_mem_encode (a : QByteArray) : ∀ c ∈ Base64.encode a,
    isTokenChar c = true := by
  intro c hc
  rcases Base64.isAlphanum_of_isLetter (Base64.isLetter_of_mem_encode a c hc) with h | rfl | rfl |
    rfl
  · simp [isTokenChar, h]
  · rfl
  · rfl
  · rfl

omit [Qt] in
theorem fromLatin1_encode (a : QByteArray) :
    QString.fromLatin1 (QString.toLatin1 (Base64.encode a)) = Base64.encode a :=
  QString.fromLatin1_toLatin1 fun c hc => by
    have := toNat_of_isTokenChar (isTokenChar_of_mem_encode a c hc)
    omega

omit [Qt] in
@[simp] theorem QByteArray.fromBase64_toBase64 (a : QByteArray) :
    fromBase64 (QString.toLatin1 (QString.fromLatin1 (toBase64 a))) = a := by
  rw [toBase64, fromLatin1_encode, fromBase64, fromLatin1_encode, Base64.decode_encode]

omit [Qt] in
theorem toLower_toLower (c : Char) : c.toLower.toLower = c.toLower := by
  unfold Char.toLower
  by_cases h : c.val ≥ 'A'.val ∧ c.val ≤ 'Z'.val
  · rw [dif_pos h]
    refine dif_neg fun h' => ?_
    have hLow := UInt32.le_iff_toNat_le.mp h.1
    have hHigh := UInt32.le_iff_toNat_le.mp h.2
    have hHigh' := UInt32.le_iff_toNat_le.mp h'.2
    rw [UInt32.toNat_add] at hHigh'
    simp only [show ('A'.val).toNat = 65 from rfl, show ('Z'.val).toNat = 90 from rfl,
      show ('a'.val - 'A'.val).toNat = 32 from rfl] at hLow hHigh hHigh'
    omega
  · rw [dif_neg h]
    exact dif_neg h

/-- `Qt` for ASCII text without percent encodings and for variants of equal types: no conversion
succeeds. -/
@[reducible] def asciiQt : Qt where
  toLower s := s.map Char.toLower
  toLower_toLower s := by
    rw [List.map_map]
    exact List.map_congr_left fun c _ => toLower_toLower c
  toLower_ascii _ _ := rfl
  number _ := []
  toDouble _ := none
  canConvert _ _ := false
  variantToInt _ := none
  variantToUInt _ := none
  variantToDouble _ := none
  variantToString _ := []
  doubleEq d e := d == e
  convertedEq _ _ := false
  fromBrokenUtf8 _ := []
  urlOfText _ _ := QUrl.empty
  urlOfString _ := QUrl.empty
  isWordChar c := c.isAlphanum || c == '_'
  urlToString u := u.encoded
  urlToString_plain _ _ := rfl

end Soprano
