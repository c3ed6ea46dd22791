import Soprano.Library.Memory
import Soprano.LiteralVariant
import Soprano.Virtuoso.QueryResult

/-! The case of `VIRTUOSO_DV_RDF` in `QueryResult::getData`, down to the buffers in which the driver returns
the datatype and the language. -/

namespace Soprano

namespace ODBC

namespace RdfBox

open Memory Virtuoso Vocabulary

/-! ### Buffers -/

/-- `SQLGetDescField` of a text: the buffer, with as much of the text as it has room for, and the length of the
text. -/
def SQLGetDescField (buffer value : QByteArray) : QByteArray × Nat :=
  (overwrite buffer 0 (value.take (buffer.length - 1) ++ [0]), value.length)

/-- `qstrncmp` of two texts in memory finds no difference. A `none` is a read beyond the end. -/
def strncmpEqual : QByteArray → QByteArray → Nat → Option Bool
  | _, _, 0 => some true
  | a :: s, b :: t, n + 1 => if a ≠ b then some false else if a = 0 then some true else strncmpEqual s t n
  | _, _, _ => none

/-- The bytes of `QByteArray::fromRawData` or of `QString::fromLatin1` with a length. -/
def bytes (buffer : QByteArray) (length : Nat) : Option QByteArray :=
  if length ≤ buffer.length then some (buffer.take length) else none

/-- A C string in memory. -/
def terminated (u : QUrl) : QByteArray := u.toEncoded ++ [0]

section Qt

variable [Qt]

/-- The node of a box with a datatype. -/
def typedBox (typeBuf str type : QByteArray) : Option Node := do
  let (typeBuf, typeBufLen) := SQLGetDescField typeBuf type
  if ← strncmpEqual typeBuf (terminated fakeBooleanType) typeBufLen then
    some (.ofLiteral (.ofVariant (.bool (str = QString.toLatin1 "true".toList))))
  else
    let type ←
      if ← strncmpEqual typeBuf (terminated fakeBase64BinaryType) typeBufLen then some XMLSchema.base64Binary
      else (bytes typeBuf typeBufLen).map (QUrl.fromEncoded · .strictMode)
    some (.ofLiteral (.fromString (.fromUtf8 str) type))

/-- The node of a box with a language. -/
def langBox (langBuf str lang : QByteArray) : Option Node := do
  let (langBuf, langBufLen) := SQLGetDescField langBuf lang
  let lang ← bytes langBuf langBufLen
  some (.ofLiteral (.createPlainLiteral (.fromUtf8 str) (.ofString (QString.fromLatin1 lang))))

/-- The case of `VIRTUOSO_DV_RDF`, for the data that `getCharData` returns. -/
def rdfNode (typeBuf langBuf : QByteArray) (cell : Cell) (data : QByteArray) : Option (Node × Error) :=
  match cell.literalType with
  | some type => (typedBox typeBuf (cString data) type).map (·, .none)
  | none =>
    match cell.literalLang with
    | .ok lang => (langBox langBuf (cString data) lang).map (·, .none)
    | .error records =>
      some (.empty, convertSqlError records "SQLGetDescField SQL_DESC_COL_LITERAL_* failed".toList)

end Qt

/-! ### Comparisons -/

/-- A comparison up to the length of the first text asks whether it is a prefix of the second one. -/
theorem strncmpEqual_length {s : QByteArray} (hs : 0 ∉ s) (t rest : QByteArray) :
    strncmpEqual (s ++ 0 :: rest) (t ++ [0]) s.length = some (s.isPrefixOf t) := by
  induction s generalizing t with
  | nil => rfl
  | cons a s ih =>
    have ha : a ≠ 0 := fun h => hs (h ▸ List.mem_cons_self)
    have hRest : 0 ∉ s := fun h => hs (List.mem_cons_of_mem _ h)
    cases t with
    | nil => simp [strncmpEqual, ha]
    | cons b t =>
      simp only [List.cons_append, List.length_cons, strncmpEqual, ih hRest, List.isPrefixOf_cons_cons]
      by_cases hab : a = b
      · simp [hab, hab ▸ ha]
      · simp [hab]

/-- A comparison beyond both texts asks whether they are the same. -/
theorem strncmpEqual_of_lt {s t : QByteArray} (hs : 0 ∉ s) (ht : 0 ∉ t) {n : Nat} (hLength : s.length < n)
    (rest : QByteArray) :
    strncmpEqual (s ++ 0 :: rest) (t ++ [0]) n = some (decide (s = t)) := by
  induction s generalizing t n with
  | nil =>
    obtain ⟨n, rfl⟩ := Nat.exists_eq_add_of_lt hLength
    cases t with
    | nil => simp [strncmpEqual]
    | cons b t =>
      have hb : b ≠ 0 := fun h => ht (h ▸ List.mem_cons_self)
      simp [strncmpEqual, hb.symm]
  | cons a s ih =>
    have ha : a ≠ 0 := fun h => hs (h ▸ List.mem_cons_self)
    have hRest : 0 ∉ s := fun h => hs (List.mem_cons_of_mem _ h)
    cases n with
    | zero => cases hLength
    | succ n =>
      cases t with
      | nil => simp [strncmpEqual, ha]
      | cons b t =>
        have hRest' : 0 ∉ t := fun h => ht (List.mem_cons_of_mem _ h)
        simp only [List.cons_append, strncmpEqual, ih hRest hRest' (Nat.lt_of_succ_lt_succ hLength)]
        by_cases hab : a = b
        · simp [hab, hab ▸ ha]
        · simp [hab]

/-! ### What is read -/

/-- The size of the two buffers. -/
def bufSize : Nat := 100

/-- The datatype for which another one stands. -/
def actualType (u : QUrl) : QUrl :=
  if u = fakeBooleanType then XMLSchema.boolean
  else if u = fakeBase64BinaryType then XMLSchema.base64Binary
  else u

section Qt

variable [Qt]

/-- A literal with a text and a datatype is read, whatever was in the buffers. -/
def ReadsTyped (text : QString) (u : QUrl) : Prop :=
  ∀ (typeBuf langBuf : QByteArray) (cell : Cell), typeBuf.length = bufSize → langBuf.length = bufSize →
    cell.literalType = some u.toEncoded →
    ∃ v h, rdfNode typeBuf langBuf cell (text.toUtf8 ++ [0]) = some (.literal v h, .none) ∧
      v.toString = text ∧ v.dataTypeUri = actualType u

/-- A plain literal with a text and a language is read. -/
def ReadsPlain (text : QString) (lang : QByteArray) : Prop :=
  ∀ (typeBuf langBuf : QByteArray) (cell : Cell), typeBuf.length = bufSize → langBuf.length = bufSize →
    cell.literalType = none → cell.literalLang = .ok lang →
    ∃ v h, rdfNode typeBuf langBuf cell (text.toUtf8 ++ [0]) = some (.literal v h, .none) ∧
      v.toString = text ∧ v.isPlain = true ∧ v.language = .ofString (QString.fromLatin1 lang)

/-- `LiteralValue` prints a literal of the datatype as the text that it is made of. -/
def KeepsText (text : QString) (u : QUrl) : Prop :=
  (LiteralValue.fromString text u).isValid = true ∧ (LiteralValue.fromString text u).toString = text

/-- A datatype that fits into the buffer and does not merely begin one of those that stand for others. -/
def Fits (u : QUrl) : Prop :=
  u.toEncoded.length < bufSize ∧ (u.toEncoded <+: fakeBooleanType.toEncoded → u = fakeBooleanType) ∧
    (u.toEncoded <+: fakeBase64BinaryType.toEncoded → u = fakeBase64BinaryType)

omit [Qt] in
theorem ofNat_ne_zero {n : Nat} (h : 0 < n) (hByte : n < 256) : UInt8.ofNat n ≠ 0 := by
  intro hZero
  have hNat := congrArg UInt8.toNat hZero
  rw [UInt8.toNat_ofNat', Nat.mod_eq_of_lt hByte] at hNat
  exact absurd hNat (by simpa using h.ne')

omit [Qt] in
theorem ne_zero_of_mem_utf8EncodeChar {c : Char} (hc : c ≠ '\x00') {b : UInt8}
    (hb : b ∈ String.utf8EncodeChar c) : b ≠ 0 := by
  have hVal : c.val.toNat ≠ 0 := fun h => hc (Char.toNat_inj.mp h)
  simp only [String.utf8EncodeChar] at hb
  split at hb
  · obtain rfl := List.mem_singleton.mp hb
    exact ofNat_ne_zero (by omega) (by omega)
  · split at hb
    · simp only [List.mem_cons, List.not_mem_nil, or_false] at hb
      rcases hb with rfl | rfl <;> exact ofNat_ne_zero (by omega) (by omega)
    · split at hb
      · simp only [List.mem_cons, List.not_mem_nil, or_false] at hb
        rcases hb with rfl | rfl | rfl <;> exact ofNat_ne_zero (by omega) (by omega)
      · simp only [List.mem_cons, List.not_mem_nil, or_false] at hb
        rcases hb with rfl | rfl | rfl | rfl <;> exact ofNat_ne_zero (by omega) (by omega)

omit [Qt] in
/-- A text without terminators is read as a C string. -/
theorem cString_toUtf8 {text : QString} (hText : '\x00' ∉ text) : cString (text.toUtf8 ++ [0]) = text.toUtf8 := by
  have hBytes : ∀ b ∈ text.toUtf8, (decide (b ≠ 0)) = true := by
    intro b hb
    obtain ⟨c, hc, hbc⟩ := List.mem_flatMap.mp hb
    exact decide_eq_true (ne_zero_of_mem_utf8EncodeChar (fun h => hText (h ▸ hc)) hbc)
  rw [cString, List.takeWhile_append_of_pos hBytes]
  simp

omit [Qt] in
theorem zero_not_mem_toEncoded (u : QUrl) : 0 ∉ u.toEncoded := by
  intro hZero
  obtain ⟨c, hc, hByte⟩ := List.mem_map.mp hZero
  have hLegal := u.isUrlChar_of_mem hc
  simp only [isUrlChar, Bool.and_eq_true, decide_eq_true_eq] at hLegal
  rw [if_pos (by omega)] at hByte
  exact ofNat_ne_zero (by omega) (by omega) hByte

theorem toUtf8_eq_true {text : QString} : text.toUtf8 = QString.toLatin1 "true".toList ↔ text = "true".toList := by
  have hTrue : QString.toLatin1 "true".toList = QString.toUtf8 "true".toList := by decide
  rw [hTrue]
  refine ⟨fun h => ?_, fun h => by rw [h]⟩
  have hDecoded := congrArg QString.fromUtf8 h
  rwa [QString.fromUtf8_toUtf8, QString.fromUtf8_toUtf8] at hDecoded

omit [Qt] in
/-- What a buffer holds after a text has been copied to it. -/
theorem SQLGetDescField_eq {buffer : QByteArray} (hBuffer : buffer.length = bufSize) (value : QByteArray) :
    ∃ rest, SQLGetDescField buffer value = (value.take 99 ++ 0 :: rest, value.length) ∧
      (value.take 99 ++ 0 :: rest).length = bufSize := by
  have hSize : bufSize = 100 := rfl
  refine ⟨buffer.drop ((value.take 99).length + 1), ?_, ?_⟩
  · rw [SQLGetDescField, overwrite_zero, hBuffer, List.append_assoc, List.length_append]
    rfl
  · simp only [List.length_append, List.length_cons, List.length_drop, List.length_take, hBuffer]
    omega

/-- The node of a box by what the comparisons and the slice of the buffer give. -/
theorem typedBox_eq {typeBuf type buf : QByteArray} {n : Nat} {isBoolean isBase64 : Bool}
    (hField : SQLGetDescField typeBuf type = (buf, n)) (str : QByteArray)
    (hBoolean : strncmpEqual buf (terminated fakeBooleanType) n = some isBoolean)
    (hBase64 : strncmpEqual buf (terminated fakeBase64BinaryType) n = some isBase64) :
    typedBox typeBuf str type =
      if isBoolean then some (.ofLiteral (.ofVariant (.bool (str = QString.toLatin1 "true".toList))))
      else if isBase64 then some (.ofLiteral (.fromString (.fromUtf8 str) XMLSchema.base64Binary))
      else (bytes buf n).map fun b => .ofLiteral (.fromString (.fromUtf8 str) (.fromEncoded b .strictMode)) := by
  unfold typedBox
  rw [hField]
  simp only [hBoolean, hBase64, Option.bind_eq_bind, Option.bind_some]
  cases isBoolean with
  | true => rfl
  | false =>
    cases isBase64 with
    | true => rfl
    | false => cases bytes buf n <;> rfl

/-- A datatype that fits into the buffer is read as it is. -/
theorem typedBox_of_lt {typeBuf : QByteArray} (hBuffer : typeBuf.length = bufSize) (str : QByteArray) {u : QUrl}
    (hLength : u.toEncoded.length < bufSize) :
    typedBox typeBuf str u.toEncoded = some (typedNode str u.toEncoded) := by
  obtain ⟨rest, hField, hRest⟩ := SQLGetDescField_eq hBuffer u.toEncoded
  rw [List.take_of_length_le (by simp only [bufSize] at hLength; omega)] at hField hRest
  have hCompare := strncmpEqual_length (zero_not_mem_toEncoded u)
  have hBytes : bytes (u.toEncoded ++ 0 :: rest) u.toEncoded.length = some u.toEncoded := by
    rw [bytes, hRest, if_pos hLength.le, List.take_left]
  rw [typedBox_eq hField str (hCompare _ rest) (hCompare _ rest), hBytes, typedNode]
  split
  · rfl
  · split <;> rfl

/-- A longer datatype is cut, or read beyond the end of the buffer. -/
theorem typedBox_of_le {typeBuf : QByteArray} (hBuffer : typeBuf.length = bufSize) (str : QByteArray) {u : QUrl}
    (hLength : bufSize ≤ u.toEncoded.length) {node : Node} (hNode : typedBox typeBuf str u.toEncoded = some node) :
    u.toEncoded.length = bufSize ∧
      node = .ofLiteral (.fromString (.fromUtf8 str) (.fromEncoded (u.toEncoded.take 99 ++ [0]) .strictMode)) := by
  obtain ⟨rest, hField, hRest⟩ := SQLGetDescField_eq hBuffer u.toEncoded
  have hSize : bufSize = 100 := rfl
  have hTake : (u.toEncoded.take 99).length = 99 := by
    rw [List.length_take]
    omega
  have hCut : 0 ∉ u.toEncoded.take 99 := fun h => zero_not_mem_toEncoded u (List.mem_of_mem_take h)
  have hCompare : ∀ w : QUrl, w.toEncoded.length < 99 →
      strncmpEqual (u.toEncoded.take 99 ++ 0 :: rest) (terminated w) u.toEncoded.length = some false := by
    intro w hw
    have hNe : u.toEncoded.take 99 ≠ w.toEncoded := fun h => by
      rw [h] at hTake
      omega
    rw [terminated, strncmpEqual_of_lt hCut (zero_not_mem_toEncoded w) (by omega) rest, decide_eq_false hNe]
  rw [typedBox_eq hField str (hCompare _ (by decide)) (hCompare _ (by decide))] at hNode
  simp only [Bool.false_eq_true, if_false, bytes, hRest] at hNode
  split at hNode
  · next hLe =>
    have hExact : u.toEncoded.length = bufSize := by omega
    have hRestNil : rest = [] := by
      rw [List.length_append, List.length_cons, hTake] at hRest
      exact List.length_eq_zero_iff.mp (by omega)
    subst hRestNil
    rw [hExact, ← hRest, List.take_length, Option.map_some] at hNode
    exact ⟨hExact, (Option.some.inj hNode).symm⟩
  · cases hNode

/-! ### Literals with a datatype -/

theorem exists_literal_iff {l : LiteralValue} {P : LiteralValue → Prop} :
    (∃ v h, Node.ofLiteral l = .literal v h ∧ P v) ↔ l.isValid = true ∧ P l := by
  constructor
  · rintro ⟨v, h, hNode, hP⟩
    unfold Node.ofLiteral at hNode
    split at hNode
    · next hValid =>
      cases hNode
      exact ⟨hValid, hP⟩
    · cases hNode
  · rintro ⟨hValid, hP⟩
    exact ⟨l, hValid, Node.ofLiteral_self l hValid, hP⟩

omit [Qt] in
theorem toEncoded_inj {u v : QUrl} (h : u.toEncoded = v.toEncoded) : u = v := by
  have hText := congrArg QString.fromLatin1 h
  rw [QUrl.fromLatin1_toEncoded, QUrl.fromLatin1_toEncoded] at hText
  exact QUrl.ext hText

theorem ofVariant_bool (b : Bool) : (LiteralValue.ofVariant (.bool b)).isValid = true ∧
    (LiteralValue.ofVariant (.bool b)).toString = (if b then "true".toList else "false".toList) ∧
    (LiteralValue.ofVariant (.bool b)).dataTypeUri = XMLSchema.boolean := by
  rw [LiteralValue.ofVariant_eq rfl]
  exact ⟨rfl, rfl, rfl⟩

theorem keepsText_boolean {text : QString} :
    KeepsText text XMLSchema.boolean ↔ text = "true".toList ∨ text = "false".toList := by
  have hBool : ∀ b, KeepsText (LiteralValue.text (.bool b)) XMLSchema.boolean := by
    intro b
    have hStored : StoredAs (.bool b) XMLSchema.boolean := by
      change StoredAs _ (dataTypeUriFromType (QVariant.bool b).type)
      exact storedAs_dataTypeUriFromType rfl
    rw [KeepsText, LiteralValue.fromString_text hStored (by nofun) trivial]
    exact ⟨rfl, rfl⟩
  constructor
  · rintro ⟨hValid, hText⟩
    cases hEq : LiteralValue.fromString text XMLSchema.boolean with
    | null => cases hEq ▸ hValid
    | plain s lang =>
      have hPlain := LiteralValue.isPlain_fromString text XMLSchema.boolean
      rw [hEq] at hPlain
      cases hPlain
    | typed v dtUri stored =>
      have hType := LiteralValue.type_of_parse (LiteralValue.fromString_eq_typed rfl hEq).2
      rw [hEq] at hText
      cases v with
      | bool b =>
        cases b with
        | true => exact .inl hText.symm
        | false => exact .inr hText.symm
      | _ => cases hType
  · rintro (rfl | rfl)
    · exact hBool true
    · exact hBool false

theorem printed_iff {text : QString} :
    (if decide (text.toUtf8 = QString.toLatin1 "true".toList) then "true".toList else "false".toList) = text ↔
      text = "true".toList ∨ text = "false".toList := by
  simp only [decide_eq_true_eq, toUtf8_eq_true]
  split
  case isTrue h => exact iff_of_true h.symm (.inl h)
  case isFalse h => exact ⟨fun hFalse => .inr hFalse.symm, fun hText => (hText.resolve_left h).symm⟩

/-- What a datatype that fits into the buffer is read as. -/
theorem typedNode_iff (text : QString) (u : QUrl) :
    (∃ v h, typedNode text.toUtf8 u.toEncoded = .literal v h ∧ v.toString = text ∧ v.dataTypeUri = actualType u) ↔
      (u.toEncoded <+: fakeBooleanType.toEncoded → u = fakeBooleanType) ∧
        (u.toEncoded <+: fakeBase64BinaryType.toEncoded → u = fakeBase64BinaryType) ∧
        KeepsText text (actualType u) := by
  have hApart : ¬ fakeBooleanType.toEncoded <+: fakeBase64BinaryType.toEncoded ∧
      ¬ XMLSchema.boolean.toEncoded <+: fakeBooleanType.toEncoded ∧
      ¬ XMLSchema.base64Binary.toEncoded <+: fakeBase64BinaryType.toEncoded ∧
      XMLSchema.boolean ≠ XMLSchema.base64Binary := by decide
  obtain ⟨hFakes, hBooleanApart, hBase64Apart, hTypes⟩ := hApart
  unfold typedNode
  split
  case isTrue hPrefix =>
    rw [List.isPrefixOf_iff_prefix] at hPrefix
    obtain ⟨hValid, hText, hType⟩ := ofVariant_bool (decide (text.toUtf8 = QString.toLatin1 "true".toList))
    rw [exists_literal_iff, hText, hType]
    by_cases hu : u = fakeBooleanType
    · subst hu
      have hActual : actualType fakeBooleanType = XMLSchema.boolean := if_pos rfl
      rw [hActual, keepsText_boolean, printed_iff]
      exact ⟨fun h => ⟨fun _ => rfl, fun h' => absurd h' hFakes, h.2.1⟩, fun h => ⟨hValid, h.2.2, rfl⟩⟩
    · refine iff_of_false ?_ fun h => hu (h.1 hPrefix)
      rintro ⟨-, -, hActual⟩
      rw [actualType, if_neg hu] at hActual
      split at hActual
      · exact hTypes hActual
      · exact hBooleanApart (hActual ▸ hPrefix)
  case isFalse hBoolean =>
    rw [List.isPrefixOf_iff_prefix] at hBoolean
    have hu : u ≠ fakeBooleanType := fun h => hBoolean (h ▸ List.prefix_rfl)
    dsimp only
    split
    case isTrue hPrefix =>
      rw [List.isPrefixOf_iff_prefix] at hPrefix
      rw [exists_literal_iff]
      have hNonempty : XMLSchema.base64Binary.isEmpty = false := by decide
      have hType := LiteralValue.dataTypeUri_fromString (s := QString.fromUtf8 text.toUtf8) hNonempty
      rw [QString.fromUtf8_toUtf8] at hType ⊢
      rw [actualType, if_neg hu]
      by_cases hu' : u = fakeBase64BinaryType
      · subst hu'
        rw [if_pos rfl]
        exact ⟨fun h => ⟨fun h' => absurd h' hBoolean, fun _ => rfl, h.1, h.2.1⟩,
          fun h => ⟨h.2.2.1, h.2.2.2, hType h.2.2.1⟩⟩
      · rw [if_neg hu']
        refine iff_of_false ?_ fun h => hu' (h.2.1 hPrefix)
        rintro ⟨hValid, -, hActual⟩
        exact hBase64Apart ((hType hValid).symm.trans hActual ▸ hPrefix)
    case isFalse hBase64 =>
      rw [List.isPrefixOf_iff_prefix] at hBase64
      have hu' : u ≠ fakeBase64BinaryType := fun h => hBase64 (h ▸ List.prefix_rfl)
      have hActual : actualType u = u := by rw [actualType, if_neg hu, if_neg hu']
      have hNonempty : u.isEmpty = false := by
        rw [← Bool.not_eq_true, QUrl.isEmpty_iff]
        rintro rfl
        exact hBoolean (List.nil_prefix)
      rw [exists_literal_iff, QUrl.fromEncoded_toEncoded, QString.fromUtf8_toUtf8, hActual]
      simp only [hBoolean, hBase64, false_imp_iff, true_and, KeepsText]
      exact ⟨fun h => ⟨h.1, h.2.1⟩, fun h => ⟨h.1, h.2, LiteralValue.dataTypeUri_fromString hNonempty h.1⟩⟩

theorem rdfNode_typed {typeBuf langBuf type : QByteArray} {cell : Cell} (h : cell.literalType = some type)
    (data : QByteArray) :
    rdfNode typeBuf langBuf cell data = (typedBox typeBuf (cString data) type).map (·, .none) := by
  rw [rdfNode, h]

/-- A datatype that fills the buffer is read with a terminator in it, which makes another one of it. -/
theorem dataTypeUri_cut (hNul : ∀ bytes, 0 ∈ bytes →
    (QUrl.fromEncoded bytes .strictMode).encoded.length ≠ bytes.length) {text : QString} (hNe : text ≠ [])
    {u w : QUrl} (hLength : u.toEncoded.length = bufSize)
    (hw : w = .fromEncoded (u.toEncoded.take 99 ++ [0]) .strictMode)
    (hValid : (LiteralValue.fromString text w).isValid = true) :
    (LiteralValue.fromString text w).dataTypeUri ≠ actualType u := by
  have hEncoded : u.encoded.length = 100 := by
    rw [← QUrl.fromLatin1_toEncoded, QString.fromLatin1, List.length_map]
    exact hLength
  have hBoolean : u ≠ fakeBooleanType := by
    rintro rfl
    exact absurd hEncoded (by decide)
  have hBase64 : u ≠ fakeBase64BinaryType := by
    rintro rfl
    exact absurd hEncoded (by decide)
  rw [actualType, if_neg hBoolean, if_neg hBase64]
  by_cases hEmpty : w = QUrl.empty
  · rw [hEmpty, LiteralValue.fromString_empty hNe, LiteralValue.ofVariant_eq rfl]
    intro hString
    obtain rfl : XMLSchema.string = u := hString
    exact absurd hEncoded (by decide)
  · have hOther := hNul (u.toEncoded.take 99 ++ [0]) (by simp)
    rw [← hw, List.length_append, List.length_take, hLength] at hOther
    rw [LiteralValue.dataTypeUri_fromString (by rwa [← Bool.not_eq_true, QUrl.isEmpty_iff]) hValid]
    rintro rfl
    exact hOther hEncoded

/-- A literal is read exactly if its datatype fits and its text is kept. -/
theorem readsTyped_iff (hNul : ∀ bytes, 0 ∈ bytes →
    (QUrl.fromEncoded bytes .strictMode).encoded.length ≠ bytes.length) {text : QString} (hNe : text ≠ [])
    (hText : '\x00' ∉ text) (u : QUrl) : ReadsTyped text u ↔ Fits u ∧ KeepsText text (actualType u) := by
  have hString := cString_toUtf8 hText
  constructor
  · intro h
    obtain ⟨v, hv, hNode, hRead⟩ := h (.replicate bufSize 0) (.replicate bufSize 0)
      ⟨.ok [], .ok (), .ok 246, .ok 0, some u.toEncoded, .ok [], .ok 0⟩ (by simp) (by simp) rfl
    rw [rdfNode_typed rfl, hString] at hNode
    obtain ⟨node, hBox, hPair⟩ := Option.map_eq_some_iff.mp hNode
    obtain rfl := congrArg Prod.fst hPair
    by_cases hLength : u.toEncoded.length < bufSize
    · rw [typedBox_of_lt (by simp) _ hLength] at hBox
      obtain ⟨hBoolean, hBase64, hKeeps⟩ := (typedNode_iff text u).mp ⟨v, hv, Option.some.inj hBox, hRead⟩
      exact ⟨⟨hLength, hBoolean, hBase64⟩, hKeeps⟩
    · obtain ⟨hExact, hCut⟩ := typedBox_of_le (by simp) _ (Nat.le_of_not_lt hLength) hBox
      rw [QString.fromUtf8_toUtf8] at hCut
      obtain ⟨hValid, -, hType⟩ := (exists_literal_iff (P := fun v => v.toString = text ∧ v.dataTypeUri = actualType u)).mp
        ⟨v, hv, hCut.symm, hRead⟩
      exact absurd hType (dataTypeUri_cut hNul hNe hExact rfl hValid)
  · rintro ⟨⟨hLength, hBoolean, hBase64⟩, hKeeps⟩ typeBuf langBuf cell hType - hCell
    obtain ⟨v, hv, hNode, hRead⟩ := (typedNode_iff text u).mpr ⟨hBoolean, hBase64, hKeeps⟩
    refine ⟨v, hv, ?_, hRead⟩
    rw [rdfNode_typed hCell, hString, typedBox_of_lt hType _ hLength, hNode]
    rfl

/-! ### Literals with a language -/

theorem langBox_eq {langBuf : QByteArray} (hBuffer : langBuf.length = bufSize) (str lang : QByteArray) :
    (lang.length < bufSize → langBox langBuf str lang = some
      (.ofLiteral (.createPlainLiteral (.fromUtf8 str) (.ofString (QString.fromLatin1 lang))))) ∧
    (bufSize ≤ lang.length → ∀ node, langBox langBuf str lang = some node → lang.length = bufSize ∧
      node = .ofLiteral (.createPlainLiteral (.fromUtf8 str)
        (.ofString (QString.fromLatin1 (lang.take 99 ++ [0]))))) := by
  obtain ⟨rest, hField, hRest⟩ := SQLGetDescField_eq hBuffer lang
  have hSize : bufSize = 100 := rfl
  unfold langBox
  rw [hField]
  simp only [bytes, hRest]
  refine ⟨fun hLength => ?_, fun hLength node hNode => ?_⟩
  · rw [if_pos hLength.le, List.take_of_length_le (by omega : lang.length ≤ 99), List.take_left]
    rfl
  · split at hNode
    · have hExact : lang.length = bufSize := by omega
      have hRestNil : rest = [] := by
        rw [List.length_append, List.length_cons, List.length_take] at hRest
        exact List.length_eq_zero_iff.mp (by omega)
      subst hRestNil
      rw [hExact, ← hRest, List.take_length] at hNode
      exact ⟨hExact, (Option.some.inj hNode).symm⟩
    · cases hNode

/-- A language that fills the buffer is read with a terminator in it. -/
theorem language_cut {lang : QByteArray} (hLang : ∀ b ∈ lang, b ≠ 0 ∧ b < 128) (hLength : lang.length = bufSize) :
    LanguageTag.ofString (QString.fromLatin1 (lang.take 99 ++ [0])) ≠ LanguageTag.ofString (QString.fromLatin1 lang) := by
  have hCode : ∀ n < 128, (Char.ofNat n).toNat < 128 := by decide
  have hZero : ∀ n < 128, n ≠ 0 → (Char.ofNat n).toLower ≠ (Char.ofNat 0).toLower := by decide
  have hAscii : ∀ l : QByteArray, (∀ b ∈ l, b < 128) →
      Qt.toLower (QString.fromLatin1 l) = l.map fun b => (Char.ofNat b.toNat).toLower := by
    intro l hl
    rw [Qt.toLower_ascii, QString.fromLatin1, List.map_map]
    · rfl
    · intro c hc
      obtain ⟨b, hb, rfl⟩ := List.mem_map.mp hc
      exact hCode b.toNat (UInt8.lt_iff_toNat_lt.mp (hl b hb))
  have hCut : ∀ b ∈ lang.take 99 ++ [0], b < 128 := by
    intro b hb
    rcases List.mem_append.mp hb with hb | hb
    · exact (hLang b (List.mem_of_mem_take hb)).2
    · rw [List.mem_singleton.mp hb]
      decide
  intro hEq
  have hLower := congrArg LanguageTag.normalizedTag hEq
  simp only [LanguageTag.ofString, hAscii _ hCut, hAscii lang fun b hb => (hLang b hb).2] at hLower
  -- The last characters differ.
  have hLast := congrArg (·[99]?) hLower
  have hLt : 99 < lang.length := by
    rw [hLength]
    decide
  simp only [List.getElem?_map, List.getElem?_append_right (List.length_take_le 99 lang), List.length_take,
    Nat.min_eq_left hLt.le, Nat.sub_self, List.getElem?_eq_getElem hLt, List.getElem?_cons_zero, Option.map_some,
    Option.some.injEq] at hLast
  obtain ⟨hNe, hSmall⟩ := hLang lang[99] (List.getElem_mem hLt)
  exact hZero _ (UInt8.lt_iff_toNat_lt.mp hSmall) (fun h => hNe (UInt8.toNat_inj.mp h)) hLast.symm

/-- A plain literal is read exactly if its language fits. -/
theorem readsPlain_iff {text : QString} (hText : '\x00' ∉ text) {lang : QByteArray}
    (hLang : ∀ b ∈ lang, b ≠ 0 ∧ b < 128) : ReadsPlain text lang ↔ lang.length < bufSize := by
  have hString := cString_toUtf8 hText
  constructor
  · intro h
    obtain ⟨v, hv, hNode, -, -, hLanguage⟩ := h (.replicate bufSize 0) (.replicate bufSize 0)
      ⟨.ok [], .ok (), .ok 246, .ok 0, none, .ok lang, .ok 0⟩ (by simp) (by simp) rfl rfl
    rw [rdfNode, hString] at hNode
    obtain ⟨node, hBox, hPair⟩ := Option.map_eq_some_iff.mp hNode
    obtain rfl := congrArg Prod.fst hPair
    by_contra hLong
    obtain ⟨hExact, hCut⟩ := (langBox_eq (by simp) _ _).2 (Nat.le_of_not_lt hLong) _ hBox
    cases hCut
    exact language_cut hLang hExact hLanguage
  · intro hLength typeBuf langBuf cell _ hBuffer hType hCell
    refine ⟨_, LiteralValue.isValid_plain text _, ?_, rfl, rfl, rfl⟩
    rw [rdfNode, hType, hCell]
    simp only
    rw [hString, (langBox_eq hBuffer _ _).1 hLength, QString.fromUtf8_toUtf8]
    rfl

/-! ### RDF boxes -/

/-- `QUrl::fromEncoded` does not take a terminator for a character of a URL. -/
def RefusesNul : Prop := ∀ bytes : QByteArray, 0 ∈ bytes →
  (QUrl.fromEncoded bytes .strictMode).encoded.length ≠ bytes.length

/-- A box is read as the literal that it holds, within the buffers, exactly if its datatype or its language fits
into the buffer, the datatype does not merely begin one of those that stand for others, and `LiteralValue` keeps the
text. -/
theorem rdfBox_iff (hNul : RefusesNul) {text : QString} (hNe : text ≠ []) (hText : '\x00' ∉ text) :
    (∀ u, ReadsTyped text u ↔ Fits u ∧ KeepsText text (actualType u)) ∧
      ∀ lang : QByteArray, (∀ b ∈ lang, b ≠ 0 ∧ b < 128) → (ReadsPlain text lang ↔ lang.length < bufSize) :=
  ⟨readsTyped_iff hNul hNe hText, fun _ => readsPlain_iff hText⟩

end Qt

section Example

local instance rdfBoxQt : Qt := asciiQt

theorem refusesNul_ascii : RefusesNul := by
  intro bytes hZero
  have hLegal : ¬ (QString.fromLatin1 bytes).all isUrlChar = true := by
    intro hAll
    exact absurd (List.all_eq_true.mp hAll _ (List.mem_map.mpr ⟨0, hZero, rfl⟩)) (by decide)
  rw [QUrl.fromEncoded, dif_neg hLegal]
  exact (List.length_pos_of_mem hZero).ne

theorem rdfBox_letter :
    (∀ u, ReadsTyped ['a'] u ↔ Fits u ∧ KeepsText ['a'] (actualType u)) ∧
      ∀ lang : QByteArray, (∀ b ∈ lang, b ≠ 0 ∧ b < 128) → (ReadsPlain ['a'] lang ↔ lang.length < bufSize) :=
  rdfBox_iff refusesNul_ascii (by decide) (by decide)

/-- A datatype that begins the one that stands for Booleans is taken for it. -/
theorem not_rdfBox : ¬ ∀ (text : QString) (u : QUrl), text ≠ [] → '\x00' ∉ text → KeepsText text (actualType u) →
    ReadsTyped text u := by
  intro h
  have hReads := h ['a'] (QUrl.ofString "sopranofakes:/boolean" (by decide)) (by decide) (by decide)
  have hKeeps : KeepsText ['a'] (actualType (QUrl.ofString "sopranofakes:/boolean" (by decide))) :=
    ⟨by decide, by decide⟩
  obtain ⟨hFits, -⟩ := (readsTyped_iff refusesNul_ascii (by decide) (by decide) _).mp (hReads hKeeps)
  exact absurd (hFits.2.1 (by decide)) (by decide)

end Example

end RdfBox

end ODBC

end Soprano
