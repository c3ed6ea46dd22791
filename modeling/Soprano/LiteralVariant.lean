import Soprano.LiteralValue

/-! The contract of `LiteralValue::fromVariant`: what each pair of a value and a data type gives. -/

namespace Soprano

open Vocabulary

theorem stored_typeFromDataTypeUri (dtUri : QUrl) : typeFromDataTypeUri dtUri = .invalid ∨
    (typeFromDataTypeUri dtUri).stored = typeFromDataTypeUri dtUri := by
  unfold typeFromDataTypeUri
  cases hLookup : xsdHash.lookup dtUri with
  | none => exact .inl rfl
  | some t =>
    obtain ⟨l₁, l₂, hSplit, -⟩ := List.lookup_eq_some_iff.mp hLookup
    have hMem : (dtUri, t) ∈ xsdHash := by simp [hSplit]
    exact .inr ((by decide : ∀ e ∈ xsdHash, e.2.stored = e.2) _ hMem)

/-- A data type with a type of its own has a URI. -/
theorem isEmpty_of_typeFromDataTypeUri {dtUri : QUrl} (h : typeFromDataTypeUri dtUri ≠ .invalid) :
    dtUri.isEmpty = false := by
  cases hEmpty : dtUri.isEmpty with
  | false => rfl
  | true =>
    rw [QUrl.isEmpty_iff.mp hEmpty] at h
    exact absurd rfl h

theorem QVariant.eq_invalid {value : QVariant} (h : value.isValid = false) : value = .invalid := by
  cases value with
  | invalid => rfl
  | _ => cases h

namespace LiteralValue

section Qt

variable [Qt]

/-! ### The routes of the code -/

/-- The number that `fromVariant` takes as a `time_t`. -/
def timeStep (value : QVariant) (dataType : QUrl) : Option Int32 :=
  if dataType = XMLSchema.dateTime ∧ Qt.canConvert value .int then Qt.variantToInt value else none

variable {value : QVariant} {dataType : QUrl}

theorem fromVariant_of_time {t : Int32} (h : timeStep value dataType = some t) :
    fromVariant value dataType = ofVariant (.dateTime (QDateTime.fromTime_t t.toUInt32)) := by
  unfold timeStep at h
  simp only [fromVariant, h]

theorem fromVariant_of_convert {v : QVariant} (hTime : timeStep value dataType = none)
    (h : convert value (typeFromDataTypeUri dataType) = some v) :
    ∃ stored, fromVariant value dataType = typed v (resolved v dataType) stored := by
  unfold timeStep at hTime
  refine ⟨storedAs_resolved (type_of_convert h), ?_⟩
  simp only [fromVariant, hTime]
  split
  · rename_i w hw
    cases h.symm.trans hw
    rfl
  · rename_i hw
    cases h.symm.trans hw

theorem fromVariant_of_none (hTime : timeStep value dataType = none)
    (h : convert value (typeFromDataTypeUri dataType) = none) :
    fromVariant value dataType = fromString value.toString dataType := by
  unfold timeStep at hTime
  simp only [fromVariant, hTime]
  split
  · rename_i w hw
    cases h.symm.trans hw
  · rfl

/-- The variant of a literal that was made of a text. -/
theorem variant_fromString (s : QString) (hType : dataType.isEmpty = false) :
    (fromString s dataType).variant = (parse s (typeFromDataTypeUri dataType)).getD .invalid := by
  rw [fromString, if_neg (by simp [hType])]
  split
  · rename_i v hParse
    exact (congrArg (·.getD .invalid) hParse).symm
  · rename_i hParse
    exact (congrArg (·.getD .invalid) hParse).symm

theorem isValid_of_parse {s : QString} {t : VariantType} {v : QVariant} (h : parse s t = some v) :
    v.isValid = true := by
  have hType := type_of_parse h
  have hStored := (stored_ne t).1
  simp [QVariant.isValid, hType, hStored]

theorem isValid_fromString {s : QString} (hType : dataType.isEmpty = false) :
    (fromString s dataType).isValid = (parse s (typeFromDataTypeUri dataType)).isSome := by
  rw [isValid, variant_fromString s hType]
  cases hParse : parse s (typeFromDataTypeUri dataType) with
  | none => rfl
  | some v => exact isValid_of_parse hParse

theorem dataTypeUri_fromString {s : QString} (hType : dataType.isEmpty = false)
    (hValid : (fromString s dataType).isValid = true) :
    (fromString s dataType).dataTypeUri = dataType := by
  cases hEq : fromString s dataType with
  | typed v dtUri stored => exact (fromString_eq_typed hType hEq).1
  | null =>
    rw [hEq] at hValid
    cases hValid
  | plain t lang =>
    have hPlain := isPlain_fromString s dataType
    rw [hEq] at hPlain
    cases hPlain

/-- A text that is no text of a data type. -/
theorem fromString_empty {s : QString} (h : s ≠ []) :
    fromString s QUrl.empty = ofVariant (.string s) := by
  have hParse : parse s (typeFromDataTypeUri QUrl.empty) = some (.string s) := rfl
  rw [fromString, if_neg (by simp [h])]
  rfl

/-- The empty text is a text of the data types that are stored as strings or as bytes. -/
theorem parse_nil_iff (hDouble : Qt.toDouble [] = none) {t : VariantType} :
    parse [] t = none ↔ t.stored ≠ .string ∧ t ≠ .byteArray := by
  have hBool : parse [] .bool = none := by
    have hLower : Qt.toLower [] = [] := Qt.toLower_ascii [] (by intros; contradiction)
    simp only [parse, hLower, show QString.toInt [] = none by decide]
    rfl
  cases t with
  | string | url | other _ | invalid => simp [parse, VariantType.stored]
  | byteArray => simp [parse]
  | bool => simp [hBool, VariantType.stored]
  | double => simp [parse, hDouble, VariantType.stored]
  | _ => exact ⟨fun _ => ⟨by decide, by decide⟩, fun _ => rfl⟩

/-! ### The contract -/

/-- What the documentation of Qt says about `QVariant::convert`, here the value that it converts to,
and the functions of `QVariant` that `fromVariant` calls. -/
structure Documented (convertTo : QVariant → VariantType → Option QVariant) : Prop where
  same : ∀ v : QVariant, v.isValid = true → convertTo v v.type = some v ∧ Qt.canConvert v v.type = true
  type : ∀ v t w, convertTo v t = some w → w.type = t
  cannot : ∀ v t, Qt.canConvert v t = false → convertTo v t = none
  int : ∀ v, Qt.canConvert v .int = true → convertTo v .int = (Qt.variantToInt v).map .int
  uint : ∀ v, Qt.canConvert v .uint = true → convertTo v .uint = (Qt.variantToUInt v).map .uint
  double : ∀ v, Qt.canConvert v .double = true →
    convertTo v .double = (Qt.variantToDouble v).map .double
  string : ∀ v, Qt.canConvert v .string = true → convertTo v .string = some (.string v.toString)
  invalid : ∀ t, t ≠ .invalid → Qt.canConvert .invalid t = false
  dateTime : ∀ dt, Qt.canConvert (.dateTime dt) .int = false
  invalidText : Qt.variantToString .invalid = []
  emptyDouble : Qt.toDouble [] = none

/-- The date-time of a `time_t`. -/
def timeOf : QVariant → Option QVariant
  | .int t => some (.dateTime (QDateTime.fromTime_t t.toUInt32))
  | _ => none

/-- The value of a data type that a variant converts to, by `convertTo`. -/
def conversion (convertTo : QVariant → VariantType → Option QVariant) (value : QVariant)
    (dataType : QUrl) : Option QVariant :=
  (if dataType = XMLSchema.dateTime then (convertTo value .int).bind timeOf else none).or
    (if typeFromDataTypeUri dataType = .invalid then none
      else convertTo value (typeFromDataTypeUri dataType))

/-- What `fromVariant` promises of its result. -/
structure Contract (convertTo : QVariant → VariantType → Option QVariant) (value : QVariant)
    (dataType : QUrl) : Prop where
  invalid : value.isValid = false → (fromVariant value dataType).isValid = false
  empty : dataType.isEmpty = true → fromVariant value dataType = ofVariant value
  requested : dataType.isEmpty = false → (fromVariant value dataType).isValid = true →
    (fromVariant value dataType).dataTypeUri = dataType
  unchanged : value.isValid = true → value.type = typeFromDataTypeUri dataType →
    (fromVariant value dataType).variant = value
  converted : ∀ w, conversion convertTo value dataType = some w →
    (fromVariant value dataType).variant = w
  failed : dataType.isEmpty = false → conversion convertTo value dataType = none →
    fromVariant value dataType = fromString value.toString dataType
  kind : dataType.isEmpty = false → (fromVariant value dataType).isValid = true →
    (fromVariant value dataType).type = (typeFromDataTypeUri dataType).stored

/-- The text of a valid variant is a string literal for the constructor, too. -/
def TextOnly (value : QVariant) : Prop :=
  (value.type = .string ∧ value.toString ≠ []) ∨
    ((dataTypeUriFromType value.type).isEmpty = true ∧ value.toString = [])

/-- The types to which `fromVariant` converts a variant itself. -/
def Direct (value : QVariant) (t : VariantType) : Prop :=
  t = .int ∨ t = .uint ∨ t = .double ∨ value.type = t

/-- The pairs for which `fromVariant` keeps its contract. -/
structure Kept (convertTo : QVariant → VariantType → Option QVariant) (value : QVariant)
    (dataType : QUrl) : Prop where
  invalid : value.isValid = false → dataType.isEmpty = true ∨
    ((typeFromDataTypeUri dataType).stored ≠ .string ∧ typeFromDataTypeUri dataType ≠ .byteArray)
  empty : dataType.isEmpty = true → value.isValid = true → TextOnly value
  text : typeFromDataTypeUri dataType ∉ [.invalid, .string] →
    ¬ Direct value (typeFromDataTypeUri dataType) → timeStep value dataType = none →
    ∀ w, convertTo value (typeFromDataTypeUri dataType) = some w →
      parse value.toString (typeFromDataTypeUri dataType) = some w

variable {convertTo : QVariant → VariantType → Option QVariant}

/-- The number that is taken as a `time_t`, by Qt's conversion. -/
theorem bind_timeOf (h : Documented convertTo) :
    (if dataType = XMLSchema.dateTime then (convertTo value .int).bind timeOf else none) =
      (timeStep value dataType).map fun t => .dateTime (QDateTime.fromTime_t t.toUInt32) := by
  unfold timeStep
  by_cases hType : dataType = XMLSchema.dateTime
  · cases hCan : Qt.canConvert value .int with
    | false => simp [hType, h.cannot value .int hCan]
    | true =>
      rw [if_pos hType, if_pos ⟨hType, rfl⟩, h.int value hCan]
      cases Qt.variantToInt value <;> rfl
  · simp [hType]

theorem conversion_of_time (h : Documented convertTo) {t : Int32}
    (hTime : timeStep value dataType = some t) :
    conversion convertTo value dataType = some (.dateTime (QDateTime.fromTime_t t.toUInt32)) := by
  rw [conversion, bind_timeOf h, hTime]
  rfl

theorem conversion_of_none (h : Documented convertTo) (hTime : timeStep value dataType = none) :
    conversion convertTo value dataType =
      if typeFromDataTypeUri dataType = .invalid then none
      else convertTo value (typeFromDataTypeUri dataType) := by
  rw [conversion, bind_timeOf h, hTime]
  rfl

/-- The conversions of the code are Qt's where it makes them itself. -/
theorem convert_of_direct (h : Documented convertTo) {t : VariantType} (hStored : t.stored = t)
    (hDirect : Direct value t) : convert value t = convertTo value t := by
  unfold convert
  cases hCan : Qt.canConvert value t with
  | false => simp [h.cannot value t hCan]
  | true =>
    have hNe := (stored_ne t).1
    rw [hStored] at hNe
    rcases hDirect with rfl | rfl | rfl | rfl
    · simp [h.int value hCan]
    · simp [h.uint value hCan]
    · simp [h.double value hCan]
    · have hValid : value.isValid = true := by simp [QVariant.isValid, hNe]
      rw [(h.same value hValid).1]
      cases value with
      | int i =>
        have hInt := h.int _ hCan
        rw [show convertTo (.int i) .int = _ from (h.same _ hValid).1] at hInt
        simpa [QVariant.type] using hInt.symm
      | uint i =>
        have hInt := h.uint _ hCan
        rw [show convertTo (.uint i) .uint = _ from (h.same _ hValid).1] at hInt
        simpa [QVariant.type] using hInt.symm
      | double d =>
        have hInt := h.double _ hCan
        rw [show convertTo (.double d) .double = _ from (h.same _ hValid).1] at hInt
        simpa [QVariant.type] using hInt.symm
      | invalid | url | other => cases hStored
      | _ => simp [QVariant.type]

theorem convert_of_not_direct {t : VariantType} (hDirect : ¬ Direct value t) :
    convert value t = none := by
  unfold convert
  split
  · rfl
  · cases t with
    | int => exact absurd (.inl rfl) hDirect
    | uint => exact absurd (.inr (.inl rfl)) hDirect
    | double => exact absurd (.inr (.inr (.inl rfl))) hDirect
    | invalid | url | other _ => rfl
    | _ => exact if_neg fun hType => hDirect (.inr (.inr (.inr hType)))

/-- An empty data type makes the literal of the value only where that is a literal of its text. -/
theorem fromString_toString_iff (hValid : value.isValid = true) :
    fromString value.toString QUrl.empty = ofVariant value ↔ TextOnly value := by
  unfold TextOnly
  cases hMapped : (dataTypeUriFromType value.type).isEmpty with
  | true =>
    rw [ofVariant, dif_neg (by simp [hMapped])]
    have hType : value.type ≠ .string := fun hType => by rw [hType] at hMapped; cases hMapped
    cases hText : value.toString with
    | nil => simp [fromString, show QUrl.empty.isEmpty = true from rfl]
    | cons c s =>
      rw [fromString_empty (by simp), ofVariant_eq rfl]
      simp [hType]
  | false =>
    rw [ofVariant_eq hMapped]
    by_cases hText : value.toString = []
    · rw [hText]
      simp [fromString, show QUrl.empty.isEmpty = true from rfl]
    · rw [fromString_empty hText, ofVariant_eq rfl]
      cases value with
      | string s => simpa [QVariant.toString, QVariant.type] using hText
      | _ => simp [QVariant.type]

/-- A value that is taken as a `time_t` keeps the contract. -/
theorem contract_of_time (h : Documented convertTo) {t : Int32}
    (hTime : timeStep value dataType = some t) : Contract convertTo value dataType := by
  have hConversion := conversion_of_time h hTime
  have hResult := fromVariant_of_time hTime
  rw [ofVariant_eq rfl] at hResult
  unfold timeStep at hTime
  split at hTime
  · rename_i hStep
    obtain ⟨rfl, hCan⟩ := hStep
    constructor
    · intro hInvalid
      obtain rfl := QVariant.eq_invalid hInvalid
      cases (h.invalid .int nofun).symm.trans hCan
    · exact nofun
    · intro _ _
      rw [hResult]
      rfl
    · intro _ hType
      cases value with
      | dateTime dt => cases (h.dateTime dt).symm.trans hCan
      | _ => cases hType
    · intro w hw
      rw [hResult]
      exact Option.some.inj (hConversion.symm.trans hw)
    · intro _ hNone
      cases hConversion.symm.trans hNone
    · intro _ _
      rw [hResult]
      rfl
  · cases hTime

/-- What a conversion that the code made itself says about the pair. -/
theorem of_convert (h : Documented convertTo) {v : QVariant}
    (hConvert : convert value (typeFromDataTypeUri dataType) = some v) :
    Direct value (typeFromDataTypeUri dataType) ∧ typeFromDataTypeUri dataType ≠ .invalid ∧
      convertTo value (typeFromDataTypeUri dataType) = some v ∧ value.isValid = true := by
  have hDirect : Direct value (typeFromDataTypeUri dataType) := by
    by_contra hNot
    cases (convert_of_not_direct hNot).symm.trans hConvert
  have hKnown : typeFromDataTypeUri dataType ≠ .invalid := by
    intro hInvalid
    rw [hInvalid] at hConvert
    unfold convert at hConvert
    split at hConvert <;> cases hConvert
  have hStored := (stored_typeFromDataTypeUri dataType).resolve_left hKnown
  have hTo := (convert_of_direct h hStored hDirect).symm.trans hConvert
  refine ⟨hDirect, hKnown, hTo, ?_⟩
  cases hValid : value.isValid with
  | true => rfl
  | false =>
    obtain rfl := QVariant.eq_invalid hValid
    cases (h.cannot _ _ (h.invalid _ hKnown)).symm.trans hTo

/-- So does a value that the code converts itself. -/
theorem contract_of_convert (h : Documented convertTo) {v : QVariant}
    (hTime : timeStep value dataType = none)
    (hConvert : convert value (typeFromDataTypeUri dataType) = some v) :
    Contract convertTo value dataType := by
  obtain ⟨stored, hResult⟩ := fromVariant_of_convert hTime hConvert
  obtain ⟨-, hKnown, hTo, hSome⟩ := of_convert h hConvert
  have hNonempty := isEmpty_of_typeFromDataTypeUri hKnown
  constructor
  · intro hInvalid
    cases hSome.symm.trans hInvalid
  · intro hEmpty
    cases hNonempty.symm.trans hEmpty
  · intro _ _
    simp [hResult, dataTypeUri, resolved, hNonempty]
  · intro hValid hType
    rw [hResult]
    rw [← hType, (h.same value hValid).1] at hTo
    exact (Option.some.inj hTo).symm
  · intro w hw
    rw [conversion_of_none h hTime, if_neg hKnown, hTo] at hw
    rw [hResult]
    exact Option.some.inj hw
  · intro _ hNone
    rw [conversion_of_none h hTime, if_neg hKnown, hTo] at hNone
    cases hNone
  · intro _ _
    rw [hResult]
    exact stored.1.trans (by simp [resolved, hNonempty])

/-- The pairs that the code converts itself are kept. -/
theorem kept_of_valid (hValid : value.isValid = true) (hNonempty : dataType.isEmpty = false)
    (hText : timeStep value dataType = none → Direct value (typeFromDataTypeUri dataType)) :
    Kept convertTo value dataType where
  invalid hInvalid := by cases hValid.symm.trans hInvalid
  empty hEmpty := by cases hNonempty.symm.trans hEmpty
  text _ hNot hTime := absurd (hText hTime) hNot

/-- A value that goes through its text keeps the contract if the pair is kept. -/
theorem contract_of_kept (h : Documented convertTo) (hTime : timeStep value dataType = none)
    (hConvert : convert value (typeFromDataTypeUri dataType) = none)
    (hKept : Kept convertTo value dataType) : Contract convertTo value dataType := by
  have hResult := fromVariant_of_none hTime hConvert
  have hConversion := conversion_of_none h hTime
  constructor
  · intro hInvalid
    obtain rfl := QVariant.eq_invalid hInvalid
    rw [hResult, show QVariant.toString .invalid = [] from h.invalidText]
    rcases hKept.invalid rfl with hEmpty | hStored
    · rw [QUrl.isEmpty_iff.mp hEmpty]
      rfl
    · have hNone := (parse_nil_iff h.emptyDouble).mpr hStored
      have hNonempty : dataType.isEmpty = false := by
        cases hEmpty : dataType.isEmpty with
        | false => rfl
        | true =>
          rw [QUrl.isEmpty_iff.mp hEmpty] at hStored
          exact absurd rfl hStored.1
      rw [isValid_fromString hNonempty, hNone]
      rfl
  · intro hEmpty
    obtain rfl := QUrl.isEmpty_iff.mp hEmpty
    rw [hResult]
    cases hValid : value.isValid with
    | false =>
      obtain rfl := QVariant.eq_invalid hValid
      rw [show QVariant.toString .invalid = [] from h.invalidText]
      rfl
    | true => exact (fromString_toString_iff hValid).mpr (hKept.empty hEmpty hValid)
  · intro hNonempty hValid
    rw [hResult] at hValid ⊢
    exact dataTypeUri_fromString hNonempty hValid
  · intro hValid hType
    have hKnown : typeFromDataTypeUri dataType ≠ .invalid := by
      intro hInvalid
      rw [hInvalid] at hType
      simp [QVariant.isValid, hType] at hValid
    have hStored := (stored_typeFromDataTypeUri dataType).resolve_left hKnown
    have hTo := convert_of_direct h hStored (.inr (.inr (.inr hType)))
    rw [hConvert, ← hType, (h.same value hValid).1] at hTo
    cases hTo
  · intro w hw
    rw [hConversion] at hw
    split at hw
    · cases hw
    rename_i hKnown
    have hNonempty := isEmpty_of_typeFromDataTypeUri hKnown
    have hStored := (stored_typeFromDataTypeUri dataType).resolve_left hKnown
    have hNot : ¬ Direct value (typeFromDataTypeUri dataType) := fun hDirect => by
      cases ((convert_of_direct h hStored hDirect).symm.trans hConvert).symm.trans hw
    have hParse : parse value.toString (typeFromDataTypeUri dataType) = some w := by
      by_cases hString : typeFromDataTypeUri dataType = .string
      · rw [hString] at hw ⊢
        cases hCan : Qt.canConvert value .string with
        | false => cases (h.cannot _ _ hCan).symm.trans hw
        | true => exact (h.string _ hCan).symm.trans hw
      · exact hKept.text (by simp [hKnown, hString]) hNot hTime w hw
    rw [hResult, variant_fromString _ hNonempty, hParse]
    rfl
  · intro _ _
    exact hResult
  · intro hNonempty hValid
    rw [hResult, isValid_fromString hNonempty] at hValid
    obtain ⟨v, hParse⟩ := Option.isSome_iff_exists.mp hValid
    rw [hResult, type, variant_fromString _ hNonempty, hParse]
    exact type_of_parse hParse

theorem kept_of_contract (h : Documented convertTo) (hTime : timeStep value dataType = none)
    (hConvert : convert value (typeFromDataTypeUri dataType) = none)
    (hContract : Contract convertTo value dataType) : Kept convertTo value dataType where
  invalid hInvalid := by
    obtain rfl := QVariant.eq_invalid hInvalid
    cases hEmpty : dataType.isEmpty with
    | true => exact .inl rfl
    | false =>
      refine .inr ((parse_nil_iff h.emptyDouble).mp ?_)
      have hResult := hContract.invalid rfl
      rw [fromVariant_of_none hTime hConvert, show QVariant.toString .invalid = [] from h.invalidText,
        isValid_fromString hEmpty] at hResult
      exact Option.isSome_eq_false_iff.mp hResult |> Option.isNone_iff_eq_none.mp
  empty hEmpty hValid := by
    have hResult := hContract.empty hEmpty
    rw [fromVariant_of_none hTime hConvert, QUrl.isEmpty_iff.mp hEmpty] at hResult
    exact (fromString_toString_iff hValid).mp hResult
  text hKnown _ _ w hw := by
    have hInvalid : typeFromDataTypeUri dataType ≠ .invalid := fun hInvalid => hKnown (by simp [hInvalid])
    have hNonempty := isEmpty_of_typeFromDataTypeUri hInvalid
    have hResult := hContract.converted w (by rw [conversion_of_none h hTime, if_neg hInvalid, hw])
    rw [fromVariant_of_none hTime hConvert, variant_fromString _ hNonempty] at hResult
    cases hParse : parse value.toString (typeFromDataTypeUri dataType) with
    | some v =>
      rw [hParse] at hResult
      exact congrArg some hResult
    | none =>
      rw [hParse] at hResult
      have hType := h.type _ _ _ hw
      rw [← show QVariant.invalid = w from hResult] at hType
      exact absurd hType.symm hInvalid

/-- `fromVariant` keeps its contract for exactly the pairs that are `Kept`: a valid value with a data
type that the code converts to itself, or whose conversion is the one that the text has. -/
theorem contract_iff_kept (h : Documented convertTo) (value : QVariant) (dataType : QUrl) :
    Contract convertTo value dataType ↔ Kept convertTo value dataType := by
  cases hTime : timeStep value dataType with
  | some t =>
    refine iff_of_true (contract_of_time h hTime) (kept_of_valid ?_ ?_ fun hNone => ?_)
    · cases hValid : value.isValid with
      | true => rfl
      | false =>
        obtain rfl := QVariant.eq_invalid hValid
        simp [timeStep, h.invalid .int nofun] at hTime
    · unfold timeStep at hTime
      split at hTime
      · rename_i hStep
        rw [hStep.1]
        rfl
      · cases hTime
    · cases hNone.symm.trans hTime
  | none =>
    cases hConvert : convert value (typeFromDataTypeUri dataType) with
    | none => exact ⟨kept_of_contract h hTime hConvert, contract_of_kept h hTime hConvert⟩
    | some v =>
      obtain ⟨hDirect, hKnown, -, hValid⟩ := of_convert h hConvert
      exact iff_of_true (contract_of_convert h hTime hConvert)
        (kept_of_valid hValid (isEmpty_of_typeFromDataTypeUri hKnown) fun _ => hDirect)

end Qt

section Example

/-- `asciiQt`, with the conversions of variants to their own types. -/
@[reducible] def sameTypeQt : Qt :=
  { asciiQt with
    canConvert := fun v t => v.type == t && v.isValid
    variantToInt := fun v => match v with
      | .int i => some i
      | _ => none
    variantToUInt := fun v => match v with
      | .uint i => some i
      | _ => none
    variantToDouble := fun v => match v with
      | .double d => some d
      | _ => none
    variantToString := fun v => match v with
      | .int i => QString.number i.toInt
      | _ => [] }

local instance literalVariantQt : Qt := sameTypeQt

/-- `QVariant::convert` to the variant's own type. -/
def sameType (value : QVariant) (t : VariantType) : Option QVariant :=
  if value.type = t ∧ value.isValid = true then some value else none

theorem documented_sameType : Documented sameType where
  same v hValid := ⟨by simp [sameType, hValid], by simp [Qt.canConvert, hValid]⟩
  type v t w hw := by
    unfold sameType at hw
    split at hw
    · rename_i hSame
      rw [← Option.some.inj hw]
      exact hSame.1
    · cases hw
  cannot v t hCan := by simpa [sameType, Qt.canConvert] using hCan
  int v _ := by cases v <;> rfl
  uint v _ := by cases v <;> rfl
  double v _ := by cases v <;> rfl
  string v hCan := by cases v <;> first | rfl | cases hCan
  invalid t hInvalid := by simp [Qt.canConvert, QVariant.isValid, QVariant.type]
  dateTime dt := rfl
  invalidText := rfl
  emptyDouble := rfl

theorem contract_iff_kept_example : Contract sameType (.int 42) XMLSchema.xsdShort :=
  (contract_iff_kept documented_sameType _ _).mpr
    ⟨nofun, nofun, fun _ hNot => absurd (.inl rfl) hNot⟩

/-- A number without a data type becomes a string. -/
theorem not_contract_sameType : Documented sameType ∧
    ¬ ∀ (value : QVariant) (dataType : QUrl), Contract sameType value dataType := by
  refine ⟨documented_sameType, fun h => ?_⟩
  have hEmpty : fromVariant (.int 42) QUrl.empty = ofVariant (.int 42) := (h _ _).empty rfl
  revert hEmpty
  decide

end Example

end LiteralValue

end Soprano
