import Soprano.Library.Escape
import Soprano.Node

/-! The N3 text of a node, and the table of data type texts that all calls of `literalToN3` in a
process share. -/

namespace Soprano

/-- `createEscapeHash`: the escaped characters, with the letter behind the backslash. -/
def escapeHash : List (Char × Char) :=
  [('\\', '\\'), ('\n', 'n'), ('\r', 'r'), ('\x08', 'b'), ('\t', 't'), ('\x0c', 'f'),
    ('"', '"'), ('\x27', '\x27')]

def escapeLetter (c : Char) : Option Char := escapeHash.lookup c

/-- `typeHash`, keyed by the type of the variant. -/
abbrev TypeHash : Type := List (VariantType × QString)

section Qt

variable [Qt]

namespace Node

def resourceToN3 (uri : QUrl) : QString := '<' :: (QString.fromLatin1 uri.toEncoded ++ ['>'])

def blankToN3 (blank : QString) : QString :=
  if blank.isEmpty then blank else '_' :: ':' :: blank

/-- The text behind a quoted literal of a data type. -/
def typedSuffix (type : QString) : QString := '"' :: '^' :: '^' :: '<' :: (type ++ ['>'])

/-- `literalToN3`: the text, and the table after the call. -/
def literalToN3 (typeHash : TypeHash) (literal : LiteralValue) : QString × TypeHash :=
  let s := Escape.escape escapeLetter literal.toString
  if literal.isPlain then
    if literal.language.isEmpty then ('"' :: (s ++ ['"']), typeHash)
    else ('"' :: (s ++ '"' :: '@' :: literal.language.toString), typeHash)
  else
    match typeHash.lookup literal.type with
    | some type => ('"' :: (s ++ typedSuffix type), typeHash)
    | none =>
      let type := QString.fromLatin1 literal.dataTypeUri.toEncoded
      ('"' :: (s ++ typedSuffix type), (literal.type, type) :: typeHash)

def toN3 (typeHash : TypeHash) : Node → QString × TypeHash
  | empty => ([], typeHash)
  | resource uri _ => (resourceToN3 uri, typeHash)
  | blank id _ => (blankToN3 id, typeHash)
  | literal value _ => literalToN3 typeHash value

omit [Qt] in
theorem resourceToN3_eq (u : QUrl) : resourceToN3 u = '<' :: (u.encoded ++ ['>']) := by
  rw [resourceToN3, QUrl.fromLatin1_toEncoded]

omit [Qt] in
theorem blankToN3_eq {id : QString} (h : id.isEmpty = false) : blankToN3 id = '_' :: ':' :: id := by
  rw [blankToN3, if_neg (by simp [h])]

theorem toN3_resource (typeHash : TypeHash) {u : QUrl} (h : u.isEmpty = false) :
    (toN3 typeHash (.resource u h)).1 = '<' :: (u.encoded ++ ['>']) := resourceToN3_eq u

theorem toN3_blank (typeHash : TypeHash) {id : QString} (h : id.isEmpty = false) :
    (toN3 typeHash (.blank id h)).1 = '_' :: ':' :: id := blankToN3_eq h

end Node

namespace N3

open Node

/-- The table of a process that has serialised these literals, in this order. -/
def typeHashAfter (history : List LiteralValue) : TypeHash :=
  history.foldl (fun typeHash literal => (literalToN3 typeHash literal).2) []

/-- The first literal of a history that entered its data type for the type of a variant. -/
def firstOfType (history : List LiteralValue) (type : VariantType) : Option LiteralValue :=
  history.find? fun literal => !literal.isPlain && literal.type == type

/-- What one call does to the table. -/
theorem lookup_literalToN3 (typeHash : TypeHash) (literal : LiteralValue) (type : VariantType) :
    (literalToN3 typeHash literal).2.lookup type = (typeHash.lookup type).or
      (if literal.isPlain = false ∧ literal.type = type then some literal.dataTypeUri.encoded
      else none) := by
  unfold literalToN3
  by_cases hPlain : literal.isPlain = true
  · simp only [hPlain, if_true]
    split <;> simp
  · have hTyped : literal.isPlain = false := by simpa using hPlain
    simp only [hTyped, Bool.false_eq_true, if_false, true_and]
    cases hLookup : typeHash.lookup literal.type with
    | some text =>
      by_cases hType : literal.type = type
      · rw [hType] at hLookup
        simp [hLookup]
      · simp [hType]
    | none =>
      rw [List.lookup_cons]
      by_cases hType : literal.type = type
      · rw [hType] at hLookup
        simp [hType, hLookup]
      · have hNe : (type == literal.type) = false := by simpa using Ne.symm hType
        simp [hType, hNe]

/-- The table holds for each type the data type of the first literal of that type. -/
theorem lookup_typeHashAfter (history : List LiteralValue) (type : VariantType) :
    (typeHashAfter history).lookup type =
      (firstOfType history type).map fun first => first.dataTypeUri.encoded := by
  have hFold : ∀ typeHash : TypeHash,
      (history.foldl (fun typeHash literal => (literalToN3 typeHash literal).2) typeHash).lookup
          type =
        (typeHash.lookup type).or
          ((firstOfType history type).map fun first => first.dataTypeUri.encoded) := by
    induction history with
    | nil => simp [firstOfType]
    | cons literal history ih =>
      intro typeHash
      rw [List.foldl_cons, ih, lookup_literalToN3, Option.or_assoc]
      congr 1
      by_cases h : literal.isPlain = false ∧ literal.type = type
      · simp [firstOfType, h.1, h.2]
      · have hSkip : (!literal.isPlain && literal.type == type) = false := by simpa using h
        unfold firstOfType
        rw [if_neg h, Option.none_or, List.find?_cons, hSkip]
  rw [typeHashAfter, hFold]
  rfl

/-- The N3 text of a literal by itself, with its own data type. -/
def ownText (literal : LiteralValue) : QString :=
  let s := Escape.escape escapeLetter literal.toString
  if literal.isPlain then
    if literal.language.isEmpty then '"' :: (s ++ ['"'])
    else '"' :: (s ++ '"' :: '@' :: literal.language.toString)
  else '"' :: (s ++ typedSuffix literal.dataTypeUri.encoded)

/-- The table names the literal's own data type, or nothing yet. -/
def Agrees (typeHash : TypeHash) (literal : LiteralValue) : Prop :=
  literal.isPlain = false →
    ∀ type, typeHash.lookup literal.type = some type → type = literal.dataTypeUri.encoded

omit [Qt] in
theorem typedSuffix_injective {s type type' : QString}
    (h : '"' :: (s ++ typedSuffix type) = '"' :: (s ++ typedSuffix type')) : type = type' := by
  simpa [typedSuffix] using h

/-- A call returns the literal's own text exactly if the table agrees with the literal. -/
theorem literalToN3_eq_ownText_iff (typeHash : TypeHash) (literal : LiteralValue) :
    (literalToN3 typeHash literal).1 = ownText literal ↔ Agrees typeHash literal := by
  unfold literalToN3 ownText Agrees
  by_cases hPlain : literal.isPlain = true
  · simp only [hPlain, if_true]
    split <;> simp
  · have hTyped : literal.isPlain = false := by simpa using hPlain
    simp only [hTyped, Bool.false_eq_true, if_false, true_implies]
    cases hLookup : typeHash.lookup literal.type with
    | none => simp
    | some type =>
      simp only [Option.some.injEq, forall_eq']
      exact ⟨typedSuffix_injective, fun h => by rw [h]⟩

/-- The data type of the literal is the one of the first literal of its type in the history. -/
def FirstAgrees (history : List LiteralValue) (literal : LiteralValue) : Prop :=
  literal.isPlain = false →
    ∀ first, firstOfType history literal.type = some first →
      first.dataTypeUri = literal.dataTypeUri

theorem agrees_typeHashAfter_iff (history : List LiteralValue) (literal : LiteralValue) :
    Agrees (typeHashAfter history) literal ↔ FirstAgrees history literal := by
  unfold Agrees FirstAgrees
  rw [lookup_typeHashAfter]
  cases firstOfType history literal.type with
  | none => simp
  | some first =>
    simp only [Option.map_some, Option.some.injEq, forall_eq']
    exact forall_congr' fun _ => ⟨QUrl.ext, congrArg QUrl.encoded⟩

/-- Any two typed literals of one type in the list have one data type. -/
def OneDataTypeEach (literals : List LiteralValue) : Prop :=
  ∀ l ∈ literals, ∀ m ∈ literals, l.isPlain = false → m.isPlain = false → l.type = m.type →
    l.dataTypeUri = m.dataTypeUri

theorem firstOfType_spec {history : List LiteralValue} {type : VariantType} {first : LiteralValue}
    (h : firstOfType history type = some first) :
    first ∈ history ∧ first.isPlain = false ∧ first.type = type := by
  have hFound := List.find?_some h
  simp only [Bool.and_eq_true, Bool.not_eq_true', beq_iff_eq] at hFound
  exact ⟨List.mem_of_find?_eq_some h, hFound⟩

/-- The first literal of a type in a list is the first of its type in any longer history. -/
theorem firstOfType_append {before after : List LiteralValue} {type : VariantType}
    {first : LiteralValue} (h : firstOfType before type = some first) :
    firstOfType (before ++ after) type = some first := by
  unfold firstOfType at h ⊢
  rw [List.find?_append, h]
  rfl

/-- Each literal of the list agrees with those before it exactly if the list has one data type for
each type. -/
theorem firstAgrees_iff_oneDataTypeEach (literals : List LiteralValue) :
    (∀ before literal after, literals = before ++ literal :: after →
      FirstAgrees before literal) ↔ OneDataTypeEach literals := by
  constructor
  · -- Every literal of a type has the data type of the first one of the whole list.
    intro h
    have hFirst : ∀ l ∈ literals, l.isPlain = false →
        ∃ first, firstOfType literals l.type = some first ∧
          first.dataTypeUri = l.dataTypeUri := by
      intro l hl hPlain
      obtain ⟨before, after, hSplit⟩ := List.append_of_mem hl
      cases hBefore : firstOfType before l.type with
      | some first =>
        exact ⟨first, hSplit ▸ firstOfType_append hBefore,
          h before l after hSplit hPlain first hBefore⟩
      | none =>
        refine ⟨l, ?_, rfl⟩
        unfold firstOfType at hBefore ⊢
        rw [hSplit, List.find?_append, hBefore, Option.none_or, List.find?_cons]
        simp [hPlain]
    intro l hl m hm hPlainL hPlainM hType
    obtain ⟨first, hFirstL, hUriL⟩ := hFirst l hl hPlainL
    obtain ⟨first', hFirstM, hUriM⟩ := hFirst m hm hPlainM
    rw [hType, hFirstM] at hFirstL
    cases hFirstL
    exact hUriL.symm.trans hUriM
  · intro h before literal after hSplit hPlain first hFirst
    obtain ⟨hMem, hPlain', hType⟩ := firstOfType_spec hFirst
    exact h first (by simp [hSplit, hMem]) literal (by simp [hSplit]) hPlain' hPlain hType

/-- A call returns the text that names the literal's own data type, whatever was serialised before,
exactly if the first literal of its type had that data type; and every call of a sequence does so
exactly if the sequence has one data type for each type. -/
theorem literalToN3_history_iff :
    (∀ history literal, (literalToN3 (typeHashAfter history) literal).1 = ownText literal ↔
      FirstAgrees history literal) ∧
    (∀ literals : List LiteralValue,
      (∀ before literal after, literals = before ++ literal :: after →
        (literalToN3 (typeHashAfter before) literal).1 = ownText literal) ↔
      OneDataTypeEach literals) := by
  have hCall : ∀ history literal, (literalToN3 (typeHashAfter history) literal).1 =
      ownText literal ↔ FirstAgrees history literal := fun history literal =>
    (literalToN3_eq_ownText_iff _ _).trans (agrees_typeHashAfter_iff history literal)
  refine ⟨hCall, fun literals => ?_⟩
  simp only [hCall]
  exact firstAgrees_iff_oneDataTypeEach literals

end N3

end Qt

namespace N3

local instance n3Qt : Qt := asciiQt

/-- An `xsd:int` that follows an `xsd:short` is written as an `xsd:short`. -/
theorem literalToN3_history_short :
    let literal := LiteralValue.fromString "42".toList Vocabulary.XMLSchema.xsdInt
    let history := [LiteralValue.fromString "7".toList Vocabulary.XMLSchema.xsdShort]
    (Node.literalToN3 (typeHashAfter []) literal).1 =
      "\"42\"^^<http://www.w3.org/2001/XMLSchema#int>".toList ∧
    (Node.literalToN3 (typeHashAfter history) literal).1 =
      "\"42\"^^<http://www.w3.org/2001/XMLSchema#short>".toList := by
  decide

end N3

end Soprano
