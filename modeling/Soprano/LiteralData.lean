import Soprano.LiteralValue

/-! The data that literals share, as the functions of `LiteralValue` make, change and cache it.  A program
on handles does to the data what it does to values of its own for each handle. -/

namespace Soprano

open Vocabulary

section Data

variable [Qt]

/-- `PlainData` or `TypedData` -/
inductive DataKind where
  | plain (lang : LanguageTag)
  | typed (dtUri : QUrl)

/-- `LiteralValueData`. There is no `stringCache` while `stringCacheValid` is not set. -/
structure LiteralValueData where
  value : QVariant
  kind : DataKind
  stringCache : Option QString

namespace LiteralValueData

def plainData (v : QString) (l : LanguageTag) : LiteralValueData := ⟨.string v, .plain l, some v⟩

def typedData (value : QVariant) : LiteralValueData := ⟨value, .typed QUrl.empty, none⟩

def isPlain (d : LiteralValueData) : Bool :=
  match d.kind with
  | .plain _ => true
  | .typed _ => false

/-- `LiteralValue::dataTypeUri`, which fills in `dtUri`. -/
def dataTypeUri (d : LiteralValueData) : QUrl × LiteralValueData :=
  match d.kind with
  | .plain _ => (QUrl.empty, d)
  | .typed dtUri =>
    if dtUri.isEmpty then
      (dataTypeUriFromType d.value.type, { d with kind := .typed (dataTypeUriFromType d.value.type) })
    else (dtUri, d)

/-- `LiteralValue::toString`, which fills in `stringCache`. -/
def toString (d : LiteralValueData) : QString × LiteralValueData :=
  match d.stringCache with
  | some s => (s, d)
  | none => (LiteralValue.text d.value, { d with stringCache := some (LiteralValue.text d.value) })

end LiteralValueData

open LiteralValueData

/-- A value that both a constructor and an assignment operator take. -/
inductive Native where
  | int (i : Int32)
  | int64 (i : Int64)
  | uint (i : UInt32)
  | uint64 (i : UInt64)
  | bool (b : Bool)
  | double (d : Double)
  | latin1 (bytes : QByteArray)
  | string (s : QString)
  | date (d : QDate)
  | time (t : QTime)
  | dateTime (dt : QDateTime)
  | byteArray (a : QByteArray)

def Native.variant : Native → QVariant
  | .int i => .int i
  | .int64 i => .longLong i
  | .uint i => .uint i
  | .uint64 i => .uLongLong i
  | .bool b => .bool b
  | .double d => .double d
  | .latin1 bytes => .string (QString.fromLatin1 bytes)
  | .string s => .string s
  | .date d => .date d
  | .time t => .time t
  | .dateTime dt => .dateTime dt
  | .byteArray a => .byteArray a

/-- The constructors, and the static functions that return a new literal. -/
inductive Construction where
  | default
  | ofVariant (other : QVariant)
  | ofNative (n : Native)
  | ofChars (bytes : QByteArray)
  | fromStringAs (value : QString) (type : VariantType)
  | fromString (value : QString) (type : QUrl)
  | fromVariant (value : QVariant) (dataType : QUrl)
  | createPlainLiteral (value : QString) (lang : LanguageTag)

namespace Construction

/-- `LiteralValue::fromString( const QString&, QVariant::Type )` -/
def fromStringAsData (value : QString) (type : VariantType) : Option LiteralValueData :=
  (LiteralValue.parse value type).map typedData

/-- `LiteralValue::fromString( const QString&, const QUrl& )`, which overwrites `dtUri`. -/
def fromStringData (value : QString) (type : QUrl) : Option LiteralValueData :=
  if type.isEmpty && value.isEmpty then none
  else
    (fromStringAsData value (typeFromDataTypeUri type)).map fun d =>
      if d.value.isValid then { d with kind := .typed type } else d

/-- The `d` of the new literal. -/
def data : Construction → Option LiteralValueData
  | default => none
  | ofVariant other =>
    let type := dataTypeUriFromType other.type
    if !type.isEmpty then some { typedData other with kind := .typed type } else none
  | ofNative n => some (typedData n.variant)
  | ofChars bytes => some (typedData (.string (QString.fromUtf8 bytes)))
  | fromStringAs value type => fromStringAsData value type
  | fromString value type => fromStringData value type
  | fromVariant value dataType =>
    let time :=
      if dataType = XMLSchema.dateTime ∧ Qt.canConvert value .int then Qt.variantToInt value else none
    match time with
    | some t => some (typedData (.dateTime (QDateTime.fromTime_t t.toUInt32)))
    | none =>
      match LiteralValue.convert value (typeFromDataTypeUri dataType) with
      | some v => some { typedData v with kind := .typed dataType }
      | none => fromStringData value.toString dataType
  | createPlainLiteral value lang => some (plainData value lang)

end Construction

/-- The data that an assignment operator makes, where the old data type is `dtUri`. -/
def Native.assigned (dtUri : QUrl) (n : Native) : LiteralValueData :=
  match n with
  | .int _ =>
    if typeFromDataTypeUri dtUri = .int then { typedData n.variant with kind := .typed dtUri }
    else typedData n.variant
  | .uint _ =>
    if typeFromDataTypeUri dtUri = .uint then { typedData n.variant with kind := .typed dtUri }
    else typedData n.variant
  | .string s => { typedData n.variant with stringCache := some s }
  | .latin1 bytes => { typedData n.variant with stringCache := some (QString.fromLatin1 bytes) }
  | _ => typedData n.variant

/-- What a program does with literals, which are numbered in the order of their creation. -/
inductive LiteralCommand where
  | create (c : Construction)
  | copy (source : Nat)
  | assign (target source : Nat)
  | assignNative (target : Nat) (n : Native)
  | destroy (target : Nat)
  | dataTypeUri (handle : Nat)
  | toString (handle : Nat)

/-- The literal that the command changes. -/
def LiteralCommand.target : LiteralCommand → Option Nat
  | .assign target _ | .assignNative target _ | .destroy target => some target
  | _ => none

/-- The data, and the `d` of each literal that was not destroyed. -/
structure LiteralHeap where
  objects : List LiteralValueData
  pointers : List (Option (Option Nat))

namespace LiteralHeap

/-- The data that a `d` points to, unless it is 0. -/
def deref (heap : LiteralHeap) (d : Option Nat) : Option LiteralValueData := d.bind (heap.objects[·]?)

/-- A function of the data is called that may change it, or cache its result. -/
def touch (heap : LiteralHeap) (d : Option Nat) (f : LiteralValueData → LiteralValueData) : LiteralHeap :=
  match d with
  | some p => { heap with objects := heap.objects.modify p f }
  | none => heap

/-- `d = new ...`, or 0. -/
def allocate (heap : LiteralHeap) (data : Option LiteralValueData) : LiteralHeap × Option Nat :=
  match data with
  | some d => ({ heap with objects := heap.objects ++ [d] }, some heap.objects.length)
  | none => (heap, none)

def perform (heap : LiteralHeap) : LiteralCommand → Option LiteralHeap
  | .create c =>
    let (heap, d) := heap.allocate c.data
    some { heap with pointers := heap.pointers ++ [some d] }
  | .copy source => do
    let d ← heap.pointers[source]?.join
    some { heap with pointers := heap.pointers ++ [some d] }
  | .assign target source => do
    let d ← heap.pointers[source]?.join
    let _ ← heap.pointers[target]?.join
    some { heap with pointers := heap.pointers.set target (some d) }
  | .assignNative target n => do
    let old ← heap.pointers[target]?.join
    let dtUri := (heap.deref old).elim QUrl.empty (·.dataTypeUri.1)
    -- only the operators that may keep the data type ask for it
    let heap :=
      match n with
      | .int _ | .uint _ => heap.touch old (·.dataTypeUri.2)
      | _ => heap
    let (heap, d) := heap.allocate (some (n.assigned dtUri))
    some { heap with pointers := heap.pointers.set target (some d) }
  | .destroy target => do
    let _ ← heap.pointers[target]?.join
    some { heap with pointers := heap.pointers.set target none }
  | .dataTypeUri handle => do
    let d ← heap.pointers[handle]?.join
    some (heap.touch d (·.dataTypeUri.2))
  | .toString handle => do
    let d ← heap.pointers[handle]?.join
    some (heap.touch d (·.toString.2))

def run (program : List LiteralCommand) : Option LiteralHeap := program.foldlM perform ⟨[], []⟩

/-! ### What a literal says -/

/-- The data of a literal. -/
def data (heap : LiteralHeap) (handle : Nat) : Option LiteralValueData :=
  heap.pointers[handle]?.join.bind heap.deref

def variant (heap : LiteralHeap) (handle : Nat) : QVariant := (heap.data handle).elim .invalid (·.value)

def type (heap : LiteralHeap) (handle : Nat) : VariantType := (heap.variant handle).type

def isValid (heap : LiteralHeap) (handle : Nat) : Bool := (heap.variant handle).isValid

def isPlain (heap : LiteralHeap) (handle : Nat) : Bool := (heap.data handle).elim false (·.isPlain)

def dataTypeUri (heap : LiteralHeap) (handle : Nat) : QUrl :=
  (heap.data handle).elim QUrl.empty (·.dataTypeUri.1)

def toString (heap : LiteralHeap) (handle : Nat) : QString := (heap.data handle).elim [] (·.toString.1)

end LiteralHeap

/-! ### The literal that the data stand for -/

namespace LiteralValueData

/-- The value of the data, with the data type that `dataTypeUri` returns. -/
def literal (d : LiteralValueData) : LiteralValue :=
  match d.kind with
  | .plain lang =>
    match d.value with
    | .string s => .plain s lang
    | _ => .null
  | .typed dtUri =>
    if h : StoredAs d.value (LiteralValue.resolved d.value dtUri) then .typed d.value _ h else .null

/-- The data type is one of the value's, and the cache holds the text of the value. -/
def Coherent (d : LiteralValueData) : Prop :=
  match d.kind with
  | .plain _ => ∃ s, d.value = .string s ∧ d.stringCache = some s
  | .typed dtUri => StoredAs d.value (LiteralValue.resolved d.value dtUri) ∧
      (d.stringCache = none ∨ d.stringCache = some (LiteralValue.text d.value))

/-- The data stand for the literal. -/
structure Means (d : LiteralValueData) (v : LiteralValue) : Prop where
  coherent : d.Coherent
  literal : d.literal = v

theorem means_typed {v : QVariant} {dtUri u : QUrl} {cache : Option QString} (h : StoredAs v u)
    (hResolved : LiteralValue.resolved v dtUri = u)
    (hCache : cache = none ∨ cache = some (LiteralValue.text v)) :
    Means ⟨v, .typed dtUri, cache⟩ (.typed v u h) := by
  subst hResolved
  exact ⟨⟨h, hCache⟩, dif_pos h⟩

theorem means_plain (s : QString) (lang : LanguageTag) : Means (plainData s lang) (.plain s lang) :=
  ⟨⟨s, rfl, rfl⟩, rfl⟩

omit [Qt] in
theorem resolved_empty (v : QVariant) :
    LiteralValue.resolved v QUrl.empty = dataTypeUriFromType v.type := by
  rw [LiteralValue.resolved, if_pos (by rfl)]

omit [Qt] in
theorem resolved_of_not_empty (v : QVariant) {u : QUrl} (h : u.isEmpty = false) :
    LiteralValue.resolved v u = u := by
  rw [LiteralValue.resolved, if_neg (by simp [h])]

/-- A value whose type has a data type. -/
theorem means_ofVariant {v : QVariant} {cache : Option QString}
    (h : (dataTypeUriFromType v.type).isEmpty = false)
    (hCache : cache = none ∨ cache = some (LiteralValue.text v)) :
    Means { typedData v with stringCache := cache } (LiteralValue.ofVariant v) := by
  rw [LiteralValue.ofVariant_eq h]
  exact means_typed (storedAs_dataTypeUriFromType h) (resolved_empty v) hCache

omit [Qt] in
theorem dataType_native (n : Native) : (dataTypeUriFromType n.variant.type).isEmpty = false := by
  cases n <;> rfl

theorem dataType_parse {value : QString} {t : VariantType} {v : QVariant}
    (h : LiteralValue.parse value t = some v) : (dataTypeUriFromType v.type).isEmpty = false := by
  rw [LiteralValue.type_of_parse h]
  cases t <;> rfl

theorem isValid_parse {value : QString} {t : VariantType} {v : QVariant}
    (h : LiteralValue.parse value t = some v) : v.isValid = true := by
  rw [QVariant.isValid, LiteralValue.type_of_parse h, bne_iff_ne]
  exact (stored_ne t).1

/-! ### Reading the data -/

/-- Coherent data are those of a plain literal, or of a typed one. -/
theorem Means.cases {d : LiteralValueData} {v : LiteralValue} (h : Means d v) :
    (∃ s lang, d = plainData s lang ∧ v = .plain s lang) ∨
    ∃ w dtUri cache, ∃ hStored : StoredAs w (LiteralValue.resolved w dtUri),
      d = ⟨w, .typed dtUri, cache⟩ ∧ v = .typed w _ hStored ∧
        (cache = none ∨ cache = some (LiteralValue.text w)) := by
  obtain ⟨value, kind, cache⟩ := d
  obtain ⟨hCoherent, rfl⟩ := h
  cases kind with
  | plain lang =>
    obtain ⟨s, hValue, hCache⟩ := hCoherent
    simp only at hValue hCache
    subst hValue hCache
    exact .inl ⟨s, lang, rfl, rfl⟩
  | typed dtUri =>
    obtain ⟨hStored, hCache⟩ := hCoherent
    exact .inr ⟨value, dtUri, cache, hStored, rfl, dif_pos hStored, hCache⟩

section Reading

variable {d : LiteralValueData} {v : LiteralValue}

theorem Means.value (h : Means d v) : d.value = v.variant := by
  rcases h.cases with ⟨s, lang, rfl, rfl⟩ | ⟨w, dtUri, cache, hStored, rfl, rfl, -⟩ <;> rfl

theorem Means.isPlain (h : Means d v) : d.isPlain = v.isPlain := by
  rcases h.cases with ⟨s, lang, rfl, rfl⟩ | ⟨w, dtUri, cache, hStored, rfl, rfl, -⟩ <;> rfl

theorem Means.dataTypeUri (h : Means d v) :
    d.dataTypeUri.1 = v.dataTypeUri ∧ Means d.dataTypeUri.2 v := by
  rcases h.cases with ⟨s, lang, rfl, rfl⟩ | ⟨w, dtUri, cache, hStored, rfl, rfl, hCache⟩
  · exact ⟨rfl, h⟩
  · cases hEmpty : dtUri.isEmpty with
    | true =>
      obtain rfl := QUrl.isEmpty_iff.mp hEmpty
      have hResolved := resolved_empty w
      have hFilled := resolved_of_not_empty w (hResolved ▸ hStored.2)
      simp only [LiteralValueData.dataTypeUri, hEmpty, if_true]
      exact ⟨hResolved.symm, means_typed hStored (hFilled.trans hResolved.symm) hCache⟩
    | false =>
      simp only [LiteralValueData.dataTypeUri, hEmpty, Bool.false_eq_true, if_false]
      exact ⟨(resolved_of_not_empty w hEmpty).symm, h⟩

theorem Means.toString (h : Means d v) : d.toString.1 = v.toString ∧ Means d.toString.2 v := by
  rcases h.cases with ⟨s, lang, rfl, rfl⟩ | ⟨w, dtUri, cache, hStored, rfl, rfl, rfl | rfl⟩
  · exact ⟨rfl, h⟩
  · exact ⟨rfl, means_typed hStored rfl (.inr rfl)⟩
  · exact ⟨rfl, h⟩

end Reading

/-! ### Making the data -/

/-- A `d` stands for the literal, which is null where it is 0. -/
def Stands (d : Option LiteralValueData) (v : LiteralValue) : Prop :=
  match d with
  | some d => Means d v
  | none => v = .null

/-- What a literal says is what its value says. -/
theorem Stands.reads {data : Option LiteralValueData} {v : LiteralValue} (h : Stands data v) :
    data.elim .invalid (·.value) = v.variant ∧ data.elim false (·.isPlain) = v.isPlain ∧
      data.elim QUrl.empty (·.dataTypeUri.1) = v.dataTypeUri ∧ data.elim [] (·.toString.1) = v.toString := by
  cases data with
  | none =>
    have h : v = .null := h
    subst h
    exact ⟨rfl, rfl, rfl, rfl⟩
  | some data =>
    have h : Means data v := h
    exact ⟨h.value, h.isPlain, h.dataTypeUri.1, h.toString.1⟩

theorem stands_fromString (value : QString) (type : QUrl) :
    Stands (Construction.fromStringData value type) (LiteralValue.fromString value type) := by
  rw [Construction.fromStringData, LiteralValue.fromString]
  split
  · rfl
  · split
    · rename_i v hParse
      have hData : Construction.fromStringAsData value (typeFromDataTypeUri type) =
          some (typedData v) := by rw [Construction.fromStringAsData, hParse]; rfl
      simp only [hData, Option.map_some, typedData, isValid_parse hParse, if_true]
      exact means_typed _ rfl (.inl rfl)
    · rename_i hParse
      have hData : Construction.fromStringAsData value (typeFromDataTypeUri type) = none := by
        rw [Construction.fromStringAsData, hParse]; rfl
      rw [hData]
      rfl

theorem stands_fromStringAs (value : QString) (type : VariantType) :
    Stands (Construction.fromStringAsData value type) (LiteralValue.fromStringAs value type) := by
  rw [Construction.fromStringAsData, LiteralValue.fromStringAs]
  cases hParse : LiteralValue.parse value type with
  | none => rfl
  | some v => exact means_ofVariant (dataType_parse hParse) (.inl rfl)

theorem stands_fromVariant (value : QVariant) (dataType : QUrl) :
    Stands (Construction.fromVariant value dataType).data (LiteralValue.fromVariant value dataType) := by
  simp only [Construction.data, LiteralValue.fromVariant]
  generalize (if dataType = XMLSchema.dateTime ∧ Qt.canConvert value .int then Qt.variantToInt value
    else none) = time
  cases time with
  | some t => exact means_ofVariant (v := .dateTime _) rfl (.inl rfl)
  | none =>
    simp only
    split
    · rename_i v hConvert
      split
      · rename_i w hw
        obtain rfl : v = w := Option.some.inj (hConvert.symm.trans hw)
        exact means_typed _ rfl (.inl rfl)
      · rename_i hw
        rw [hConvert] at hw
        cases hw
    · rename_i hConvert
      split
      · rename_i w hw
        rw [hConvert] at hw
        cases hw
      · exact stands_fromString _ _

end LiteralValueData

/-- The literal that a constructor makes. -/
def Construction.value : Construction → LiteralValue
  | default => .null
  | ofVariant other => LiteralValue.ofVariant other
  | ofNative n => LiteralValue.ofVariant n.variant
  | ofChars bytes => LiteralValue.ofVariant (.string (QString.fromUtf8 bytes))
  | fromStringAs value type => LiteralValue.fromStringAs value type
  | fromString value type => LiteralValue.fromString value type
  | fromVariant value dataType => LiteralValue.fromVariant value dataType
  | createPlainLiteral value lang => LiteralValue.createPlainLiteral value lang

theorem Construction.stands (c : Construction) : Stands c.data c.value := by
  cases c with
  | default => rfl
  | ofVariant other =>
    simp only [data, value]
    cases hType : (dataTypeUriFromType other.type).isEmpty with
    | false =>
      rw [LiteralValue.ofVariant_eq hType]
      exact means_typed (storedAs_dataTypeUriFromType hType) (resolved_of_not_empty other hType) (.inl rfl)
    | true => exact dif_neg (by simp [hType])
  | ofNative n => exact means_ofVariant (dataType_native n) (.inl rfl)
  | ofChars bytes => exact means_ofVariant rfl (.inl rfl)
  | fromStringAs value type => exact stands_fromStringAs value type
  | fromString value type => exact stands_fromString value type
  | fromVariant value dataType => exact stands_fromVariant value dataType
  | createPlainLiteral value lang => exact means_plain value lang

/-- The literal that an assignment of a value leaves. -/
def LiteralValue.assigned (v : LiteralValue) : Native → LiteralValue
  | .int i => v.assignInt i
  | .uint i => v.assignUInt i
  | n => ofVariant n.variant

/-- An operator that may keep the data type keeps one that the value is stored as. -/
theorem means_kept {v : LiteralValue} {w : QVariant} {u : QUrl} (hType : typeFromDataTypeUri u = w.type)
    (hNative : (dataTypeUriFromType w.type).isEmpty = false)
    (hKept : ∀ h : StoredAs w u, v = .typed w u h) :
    Means { typedData w with kind := .typed u } v := by
  have hStored : StoredAs w u := by
    refine ⟨?_, ?_⟩
    · rw [hType]
      cases w <;> first | rfl | cases hNative
    · cases hEmpty : u.isEmpty with
      | false => rfl
      | true =>
        obtain rfl := QUrl.isEmpty_iff.mp hEmpty
        rw [← hType] at hNative
        exact absurd hNative (by decide)
  rw [hKept hStored]
  exact means_typed hStored (resolved_of_not_empty w hStored.2) (.inl rfl)

theorem Native.means_assigned (v : LiteralValue) (n : Native) :
    Means (n.assigned v.dataTypeUri) (v.assigned n) := by
  have hFresh : Means (typedData n.variant) (LiteralValue.ofVariant n.variant) :=
    means_ofVariant (dataType_native n) (.inl rfl)
  cases n with
  | int i =>
    rw [Native.assigned, LiteralValue.assigned, LiteralValue.assignInt]
    split
    · rename_i hType
      refine means_kept hType rfl fun h => dif_pos ⟨hType, h.2⟩
    · rename_i hType
      rw [dif_neg fun h => hType h.1]
      exact hFresh
  | uint i =>
    rw [Native.assigned, LiteralValue.assigned, LiteralValue.assignUInt]
    split
    · rename_i hType
      exact means_kept hType rfl fun h => dif_pos ⟨hType, h.2⟩
    · rename_i hType
      rw [dif_neg fun h => hType h.1]
      exact hFresh
  | string s => exact means_ofVariant rfl (.inr rfl)
  | latin1 bytes => exact means_ofVariant rfl (.inr rfl)
  | _ => exact hFresh

/-! ### Programs on data and on values -/

/-- A command, where each handle has a value of its own. -/
def LiteralCommand.onValues (values : List (Option LiteralValue)) :
    LiteralCommand → Option (List (Option LiteralValue))
  | .create c => some (values ++ [some c.value])
  | .copy source => do
    let v ← values[source]?.join
    some (values ++ [some v])
  | .assign target source => do
    let v ← values[source]?.join
    let _ ← values[target]?.join
    some (values.set target (some v))
  | .assignNative target n => do
    let v ← values[target]?.join
    some (values.set target (some (v.assigned n)))
  | .destroy target => do
    let _ ← values[target]?.join
    some (values.set target none)
  | .dataTypeUri handle | .toString handle => do
    let _ ← values[handle]?.join
    some values

namespace LiteralHeap

/-- A `d` points to data that stand for the literal, or is 0 for the null literal. -/
def Refers (heap : LiteralHeap) : Option Nat → LiteralValue → Prop
  | none, v => v = .null
  | some p, v => ∃ data, heap.objects[p]? = some data ∧ Means data v

/-- Both literals were destroyed, or the first refers to the second. -/
def Points (heap : LiteralHeap) : Option (Option Nat) → Option LiteralValue → Prop
  | none, none => True
  | some d, some v => heap.Refers d v
  | _, _ => False

structure Views (heap : LiteralHeap) (values : List (Option LiteralValue)) : Prop where
  length : heap.pointers.length = values.length
  points : ∀ i : Nat, heap.Points heap.pointers[i]?.join values[i]?.join

variable {heap heap' : LiteralHeap} {values : List (Option LiteralValue)} {d : Option Nat}
  {v : LiteralValue}

/-- More data, and data that stand for the same literals, keep what the pointers refer to. -/
theorem Views.of_refers (h : heap.Views values) (hPointers : heap'.pointers = heap.pointers)
    (hRefers : ∀ {d v}, heap.Refers d v → heap'.Refers d v) : heap'.Views values := by
  have hKeeps : ∀ {d v}, heap.Points d v → heap'.Points d v := by
    intro d v hPoints
    cases d with
    | none => cases v <;> exact hPoints
    | some d =>
      cases v with
      | none => exact hPoints
      | some v => exact hRefers hPoints
  exact ⟨hPointers ▸ h.length, fun i => hPointers ▸ hKeeps (h.points i)⟩

theorem Refers.touch {f : LiteralValueData → LiteralValueData}
    (hf : ∀ {data v}, Means data v → Means (f data) v) (h : heap.Refers d v) (touched : Option Nat) :
    (heap.touch touched f).Refers d v := by
  cases touched with
  | none => exact h
  | some q =>
    cases d with
    | none => exact h
    | some p =>
      obtain ⟨data, hData, hMeans⟩ := h
      by_cases hEq : q = p
      · subst hEq
        exact ⟨f data, by simp [LiteralHeap.touch, hData], hf hMeans⟩
      · exact ⟨data, by simp [LiteralHeap.touch, hData, hEq], hMeans⟩

theorem Views.touch {f : LiteralValueData → LiteralValueData}
    (hf : ∀ {data v}, Means data v → Means (f data) v) (h : heap.Views values) (d : Option Nat) :
    (heap.touch d f).Views values := by
  refine h.of_refers ?_ fun hRefers => hRefers.touch hf d
  cases d <;> rfl

theorem Refers.allocate (h : heap.Refers d v) (data : Option LiteralValueData) :
    (heap.allocate data).1.Refers d v := by
  cases data with
  | none => exact h
  | some new =>
    cases d with
    | none => exact h
    | some p =>
      obtain ⟨data, hData, hMeans⟩ := h
      exact ⟨data, List.getElem?_append_left (List.getElem?_eq_some_iff.mp hData).1 ▸ hData, hMeans⟩

/-- New data have a `d` that refers to their literal. -/
theorem refers_allocate (data : Option LiteralValueData) (h : Stands data v) :
    (heap.allocate data).1.Refers (heap.allocate data).2 v := by
  cases data with
  | none => exact h
  | some new => exact ⟨new, List.getElem?_concat_length, h⟩

theorem Views.allocate (h : heap.Views values) (data : Option LiteralValueData) :
    (heap.allocate data).1.Views values := by
  refine h.of_refers ?_ fun hRefers => hRefers.allocate data
  cases data <;> rfl

theorem Views.append (h : heap.Views values) (hRefers : heap.Refers d v) :
    Views { heap with pointers := heap.pointers ++ [some d] } (values ++ [some v]) := by
  refine ⟨by simp [h.length], fun i => ?_⟩
  simp only [List.getElem?_append, h.length]
  split
  · exact h.points i
  · cases i - values.length with
    | zero => exact hRefers
    | succ n => trivial

theorem Views.set (h : heap.Views values) (target : Nat) {d : Option (Option Nat)}
    {v : Option LiteralValue} (hPoints : heap.Points d v) :
    Views { heap with pointers := heap.pointers.set target d } (values.set target v) := by
  refine ⟨by simp [h.length], fun i => ?_⟩
  simp only [List.getElem?_set, h.length]
  split
  · split
    · exact hPoints
    · trivial
  · exact h.points i

/-- A literal that exists has a value. -/
theorem Views.value (h : heap.Views values) {i : Nat} (hi : heap.pointers[i]?.join = some d) :
    ∃ v, values[i]?.join = some v ∧ heap.Refers d v := by
  have hPoints := h.points i
  rw [hi] at hPoints
  cases hValue : values[i]?.join with
  | none =>
    rw [hValue] at hPoints
    exact hPoints.elim
  | some v =>
    rw [hValue] at hPoints
    exact ⟨v, rfl, hPoints⟩

theorem Refers.stands (h : heap.Refers d v) : Stands (heap.deref d) v := by
  cases d with
  | none => exact h
  | some p =>
    obtain ⟨data, hData, hMeans⟩ := h
    rw [deref, Option.bind_some, hData]
    exact hMeans

theorem Views.touchDataTypeUri (h : heap.Views values) (d : Option Nat) :
    (heap.touch d (·.dataTypeUri.2)).Views values := h.touch (fun hMeans => hMeans.dataTypeUri.2) d

/-- The data that an assignment makes are the handle's own. -/
theorem Views.assign (h : heap.Views values) (target : Nat) {data : LiteralValueData}
    (hMeans : Means data v) :
    Views { (heap.allocate (some data)).1 with
      pointers := (heap.allocate (some data)).1.pointers.set target (some (heap.allocate (some data)).2) }
      (values.set target (some v)) :=
  (h.allocate (some data)).set target (refers_allocate (some data) hMeans)

/-- A command does to the values what it does to the data. -/
theorem perform_views (h : heap.Views values) {c : LiteralCommand} (hPerform : heap.perform c = some heap') :
    ∃ values', c.onValues values = some values' ∧ heap'.Views values' := by
  cases c with
  | create c =>
    cases hPerform
    exact ⟨_, rfl, (h.allocate c.data).append (refers_allocate c.data c.stands)⟩
  | copy source =>
    simp only [perform, Option.bind_eq_bind, Option.bind_eq_some_iff, Option.some.injEq] at hPerform
    obtain ⟨d, hSource, rfl⟩ := hPerform
    obtain ⟨v, hValue, hRefers⟩ := h.value hSource
    exact ⟨_, by rw [LiteralCommand.onValues, hValue]; rfl, h.append hRefers⟩
  | assign target source =>
    simp only [perform, Option.bind_eq_bind, Option.bind_eq_some_iff, Option.some.injEq] at hPerform
    obtain ⟨d, hSource, old, hTarget, rfl⟩ := hPerform
    obtain ⟨v, hValue, hRefers⟩ := h.value hSource
    obtain ⟨w, hOld, -⟩ := h.value hTarget
    exact ⟨_, by rw [LiteralCommand.onValues, hValue, hOld]; rfl, h.set (v := some v) target hRefers⟩
  | assignNative target n =>
    simp only [perform, Option.bind_eq_bind, Option.bind_eq_some_iff, Option.some.injEq] at hPerform
    obtain ⟨old, hTarget, rfl⟩ := hPerform
    obtain ⟨v, hValue, hRefers⟩ := h.value hTarget
    have hUri : (heap.deref old).elim QUrl.empty (·.dataTypeUri.1) = v.dataTypeUri :=
      hRefers.stands.reads.2.2.1
    refine ⟨_, by rw [LiteralCommand.onValues, hValue]; rfl, ?_⟩
    rw [hUri]
    have hMeans := n.means_assigned v
    cases n with
    | int | uint => exact (h.touchDataTypeUri old).assign target hMeans
    | _ => exact h.assign target hMeans
  | destroy target =>
    simp only [perform, Option.bind_eq_bind, Option.bind_eq_some_iff, Option.some.injEq] at hPerform
    obtain ⟨old, hTarget, rfl⟩ := hPerform
    obtain ⟨w, hOld, -⟩ := h.value hTarget
    exact ⟨_, by rw [LiteralCommand.onValues, hOld]; rfl, h.set (v := none) target trivial⟩
  | dataTypeUri handle =>
    simp only [perform, Option.bind_eq_bind, Option.bind_eq_some_iff, Option.some.injEq] at hPerform
    obtain ⟨d, hHandle, rfl⟩ := hPerform
    obtain ⟨v, hValue, -⟩ := h.value hHandle
    exact ⟨_, by rw [LiteralCommand.onValues, hValue]; rfl, h.touchDataTypeUri d⟩
  | toString handle =>
    simp only [perform, Option.bind_eq_bind, Option.bind_eq_some_iff, Option.some.injEq] at hPerform
    obtain ⟨d, hHandle, rfl⟩ := hPerform
    obtain ⟨v, hValue, -⟩ := h.value hHandle
    exact ⟨_, by rw [LiteralCommand.onValues, hValue]; rfl, h.touch (fun hMeans => hMeans.toString.2) d⟩

theorem run_views {program : List LiteralCommand} (hRun : run program = some heap) :
    ∃ values, heap.Views values := by
  have hAll : ∀ (start : LiteralHeap) (values), start.Views values → program.foldlM perform start = some heap →
      ∃ values', heap.Views values' := by
    clear hRun
    induction program with
    | nil =>
      intro start values h hRun
      cases hRun
      exact ⟨values, h⟩
    | cons c program ih =>
      intro start values h hRun
      rw [List.foldlM_cons, Option.bind_eq_bind, Option.bind_eq_some_iff] at hRun
      obtain ⟨next, hFirst, hRest⟩ := hRun
      obtain ⟨values', -, hNext⟩ := perform_views h hFirst
      exact ih _ _ hNext hRest
  exact hAll ⟨[], []⟩ [] ⟨rfl, fun _ => trivial⟩ hRun

/-- A command leaves every literal but its target as it is. -/
theorem onValues_of_ne {c : LiteralCommand} {values' : List (Option LiteralValue)}
    (h : c.onValues values = some values') {i : Nat} (hValue : values[i]?.join = some v)
    (hTarget : c.target ≠ some i) : values'[i]?.join = some v := by
  have hi : i < values.length :=
    (List.getElem?_eq_some_iff.mp (Option.join_eq_some_iff.mp hValue)).1
  cases c with
  | create c =>
    cases h
    rwa [List.getElem?_append_left hi]
  | copy source =>
    simp only [LiteralCommand.onValues, Option.bind_eq_bind, Option.bind_eq_some_iff,
      Option.some.injEq] at h
    obtain ⟨w, -, rfl⟩ := h
    rwa [List.getElem?_append_left hi]
  | assign target source =>
    have hNe : target ≠ i := fun hEq => hTarget (congrArg some hEq)
    simp only [LiteralCommand.onValues, Option.bind_eq_bind, Option.bind_eq_some_iff,
      Option.some.injEq] at h
    obtain ⟨w, -, old, -, rfl⟩ := h
    rwa [List.getElem?_set_ne hNe]
  | assignNative target | destroy target =>
    have hNe : target ≠ i := fun hEq => hTarget (congrArg some hEq)
    simp only [LiteralCommand.onValues, Option.bind_eq_bind, Option.bind_eq_some_iff,
      Option.some.injEq] at h
    obtain ⟨w, -, rfl⟩ := h
    rwa [List.getElem?_set_ne hNe]
  | dataTypeUri handle | toString handle =>
    simp only [LiteralCommand.onValues, Option.bind_eq_bind, Option.bind_eq_some_iff,
      Option.some.injEq] at h
    obtain ⟨w, -, rfl⟩ := h
    exact hValue

/-- What a literal says: `variant`, `isPlain`, `dataTypeUri` and `toString`. -/
def observed (heap : LiteralHeap) (i : Nat) : QVariant × Bool × QUrl × QString :=
  (heap.variant i, heap.isPlain i, heap.dataTypeUri i, heap.toString i)

theorem Views.observed (h : heap.Views values) {i : Nat} (hValue : values[i]?.join = some v) :
    heap.observed i = (v.variant, v.isPlain, v.dataTypeUri, v.toString) := by
  have hPoints := h.points i
  rw [hValue] at hPoints
  cases hPointer : heap.pointers[i]?.join with
  | none =>
    rw [hPointer] at hPoints
    exact hPoints.elim
  | some d =>
    rw [hPointer] at hPoints
    have hRefers : heap.Refers d v := hPoints
    have hData : heap.data i = heap.deref d := by rw [LiteralHeap.data, hPointer, Option.bind_some]
    obtain ⟨hVariant, hPlain, hUri, hText⟩ := hRefers.stands.reads
    simp only [LiteralHeap.observed, LiteralHeap.variant, LiteralHeap.isPlain, LiteralHeap.dataTypeUri,
      LiteralHeap.toString, hData, hVariant, hPlain, hUri, hText]

omit [Qt] in
/-- A known data type is stored as its own type. -/
theorem stored_typeFromDataTypeUri (u : QUrl) : typeFromDataTypeUri u = .invalid ∨
    (typeFromDataTypeUri u).stored = typeFromDataTypeUri u := by
  unfold typeFromDataTypeUri
  cases hLookup : xsdHash.lookup u with
  | none => exact .inl rfl
  | some t =>
    obtain ⟨l₁, l₂, hSplit, -⟩ := List.lookup_eq_some_iff.mp hLookup
    have hMem : (u, t) ∈ xsdHash := by simp [hSplit]
    exact .inr ((by decide : ∀ e ∈ xsdHash, e.2.stored = e.2) _ hMem)

/-- The data type of a valid typed literal is the one of its value, whatever a program did, and a plain
literal has none. No command shows in any other literal than its target. -/
theorem dataType_invariant {program : List LiteralCommand} (hRun : run program = some heap) {i : Nat}
    (hExists : heap.pointers[i]?.join = some d) :
    (heap.isValid i = true → heap.isPlain i = false → (heap.dataTypeUri i).isEmpty = false ∧
      (typeFromDataTypeUri (heap.dataTypeUri i) = heap.type i ∨
        typeFromDataTypeUri (heap.dataTypeUri i) = .invalid ∧ heap.type i = .string)) ∧
    (heap.isPlain i = true → heap.type i = .string ∧ heap.dataTypeUri i = QUrl.empty) ∧
    ∀ c heap', heap.perform c = some heap' → c.target ≠ some i → heap'.observed i = heap.observed i := by
  obtain ⟨values, hViews⟩ := run_views hRun
  obtain ⟨v, hValue, -⟩ := hViews.value hExists
  have hObserved := hViews.observed hValue
  simp only [LiteralHeap.observed, Prod.mk.injEq] at hObserved
  obtain ⟨hVariant, hPlain, hUri, -⟩ := hObserved
  refine ⟨fun hValid hNot => ?_, fun hIs => ?_, fun c heap' hPerform hTarget => ?_⟩
  · rw [LiteralHeap.isValid, hVariant] at hValid
    rw [LiteralHeap.type, hVariant, hUri]
    rw [hPlain] at hNot
    cases v with
    | null => cases hValid
    | plain => cases hNot
    | typed w u hStored =>
      refine ⟨hStored.2, ?_⟩
      show typeFromDataTypeUri u = w.type ∨ typeFromDataTypeUri u = .invalid ∧ w.type = .string
      rw [hStored.1]
      rcases stored_typeFromDataTypeUri u with hUnknown | hKnown
      · exact .inr ⟨hUnknown, by rw [hUnknown]; rfl⟩
      · exact .inl hKnown.symm
  · rw [hPlain] at hIs
    rw [LiteralHeap.type, hVariant, hUri]
    cases v with
    | plain => exact ⟨rfl, rfl⟩
    | null | typed => cases hIs
  · obtain ⟨values', hOnValues, hViews'⟩ := perform_views hViews hPerform
    rw [hViews.observed hValue, hViews'.observed (onValues_of_ne hOnValues hValue hTarget)]

end LiteralHeap

end Data

section Example

local instance literalQt : Qt := asciiQt

open LiteralHeap

/-- A literal that was given no value is not plain, and has no data type. -/
theorem dataType_of_default : ∃ heap, run [.create .default] = some heap ∧ heap.isPlain 0 = false ∧
    (heap.dataTypeUri 0).isEmpty = true := ⟨_, rfl, rfl, rfl⟩

/-- An `xsd:integer` is copied, and its copy is assigned another number. -/
theorem dataType_invariant_integer : ∃ heap, run [.create (.fromString "7".toList XMLSchema.integer), .copy 0,
    .assignNative 1 (.int 8)] = some heap ∧ (heap.dataTypeUri 1).isEmpty = false ∧
    (typeFromDataTypeUri (heap.dataTypeUri 1) = heap.type 1 ∨
      typeFromDataTypeUri (heap.dataTypeUri 1) = .invalid ∧ heap.type 1 = .string) := by
  have hSome : (run [.create (.fromString "7".toList XMLSchema.integer), .copy 0,
      .assignNative 1 (.int 8)]).isSome = true := by decide
  obtain ⟨heap, hRun⟩ := Option.isSome_iff_exists.mp hSome
  have hEnd : (run [.create (.fromString "7".toList XMLSchema.integer), .copy 0,
      .assignNative 1 (.int 8)]).map (fun heap => (heap.pointers[1]?.join, heap.isValid 1, heap.isPlain 1)) =
      some (some (some 1), true, false) := by decide
  rw [hRun, Option.map_some, Option.some.injEq, Prod.mk.injEq, Prod.mk.injEq] at hEnd
  obtain ⟨hPointer, hValid, hPlain⟩ := hEnd
  exact ⟨heap, hRun, (dataType_invariant hRun hPointer).1 hValid hPlain⟩

end Example

end Soprano
