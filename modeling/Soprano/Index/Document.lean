import Mathlib.Data.Set.Insert
import Mathlib.Order.BooleanAlgebra.Set
import Soprano.Qt.Text

/-! The documents of the full text index, and `CLuceneDocumentWrapper`, which adds the properties of a
resource to its document and removes them. -/

namespace Soprano

namespace Index

def idFieldName : QString := "id".toList

def textFieldName : QString := "text".toList

def bnodeIdPrefix : QString := ['!']

def isPropertyField (fieldName : QString) : Bool :=
  idFieldName != fieldName && textFieldName != fieldName

/-- `lucene::document::Field` -/
structure Field where
  name : QString
  stringValue : QString
  isStored : Bool
  isTokenized : Bool
deriving DecidableEq

/-- A field is indexed tokenized or untokenized. -/
def Field.isIndexed (_ : Field) : Bool := true

/-- `lucene::document::Document` -/
structure Document where
  fields : List Field
deriving DecidableEq

namespace Document

variable {doc : Document} {field text name : QString} {isUri : Bool}

def add (doc : Document) (f : Field) : Document := ⟨doc.fields ++ [f]⟩

def getValues (doc : Document) (name : QString) : List QString :=
  (doc.fields.filter (·.name = name)).map (·.stringValue)

def get (doc : Document) (name : QString) : Option QString := (doc.getValues name).head?

def removeFields (doc : Document) (name : QString) : Document := ⟨doc.fields.filter (·.name ≠ name)⟩

/-- A text of the resource, which is tokenized and not stored. -/
def addText (doc : Document) (text : QString) : Document := doc.add ⟨textFieldName, text, false, true⟩

/-- `CLuceneDocumentWrapper::addID` -/
def addID (doc : Document) (id : QString) : Document := doc.add ⟨idFieldName, id, true, false⟩

/-- `CLuceneDocumentWrapper::addProperty` -/
def addProperty (doc : Document) (field text : QString) (isUri : Bool) : Document :=
  let doc := doc.add ⟨field, text, true, !isUri⟩
  if isUri then doc else doc.addText text

/-- `CLuceneDocumentWrapper::removeProperty`: the field is removed and its other values are added
again, as are the texts of all fields. -/
def removeProperty (doc : Document) (field text : QString) (isUri : Bool) : Document :=
  let values := doc.getValues field
  let doc := if values.isEmpty then doc else
    (values.filter (· ≠ text)).foldl (fun doc value => doc.addProperty field value isUri)
      (doc.removeFields field)
  if isUri then doc else
    let doc := doc.removeFields textFieldName
    (doc.fields.filter (isPropertyField ·.name)).foldl (fun doc f => doc.addText f.stringValue) doc

/-- A document is empty if it only has the fields of its id and text. -/
def docEmpty (doc : Document) : Bool := doc.fields.all fun f => !isPropertyField f.name

/-- The fields of a document that is read from the index. -/
def stored (doc : Document) : Document := ⟨doc.fields.filter (·.isStored)⟩

/-- The new document of an id, with the properties of the old one. -/
def copy (id : QString) (old : Document) : Document :=
  (old.fields.filter (isPropertyField ·.name)).foldl
    (fun doc f => doc.addProperty f.name f.stringValue (!f.isIndexed)) (Document.mk [] |>.addID id)

/-! ### The properties of a document -/

/-- The properties that a document contains. -/
def properties (doc : Document) : Set (QString × QString) :=
  {p | isPropertyField p.1 = true ∧ ∃ f ∈ doc.fields, (f.name, f.stringValue) = p}

/-- A document of the id: it has the one id, and its properties are stored. -/
structure HasId (doc : Document) (id : QString) : Prop where
  values : doc.getValues idFieldName = [id]
  stored : ∀ f ∈ doc.fields, isPropertyField f.name = true → f.isStored = true

theorem HasId.get {id : QString} (h : doc.HasId id) : doc.get idFieldName = some id := by
  rw [Document.get, h.values]
  rfl

theorem mem_getValues : text ∈ doc.getValues name ↔ ∃ f ∈ doc.fields, f.name = name ∧ f.stringValue = text := by
  simp only [getValues, List.mem_map, List.mem_filter, decide_eq_true_eq, and_assoc]

@[simp] theorem properties_addText (doc : Document) (text : QString) :
    (doc.addText text).properties = doc.properties := by
  ext ⟨field, value⟩
  simp only [properties, addText, add, List.mem_append, List.mem_singleton, Set.mem_ofPred_eq]
  constructor
  · rintro ⟨hField, f, hf | rfl, hPair⟩
    · exact ⟨hField, f, hf, hPair⟩
    · obtain ⟨rfl, -⟩ := Prod.mk.inj hPair
      cases hField
  · rintro ⟨hField, f, hf, hPair⟩
    exact ⟨hField, f, .inl hf, hPair⟩

theorem HasId.addText {id : QString} (h : doc.HasId id) (text : QString) : (doc.addText text).HasId id := by
  refine ⟨?_, fun f hf hField => ?_⟩
  · have hValues := h.values
    rw [getValues] at hValues ⊢
    rw [Document.addText, add, List.filter_append, List.map_append, hValues]
    rfl
  · rcases List.mem_append.mp hf with hf | hf
    · exact h.stored f hf hField
    · obtain rfl := List.mem_singleton.mp hf
      cases hField

theorem properties_add (hField : isPropertyField field = true) (doc : Document) (text : QString)
    (isStored isTokenized : Bool) : (doc.add ⟨field, text, isStored, isTokenized⟩).properties =
      insert (field, text) doc.properties := by
  ext p
  simp only [properties, add, List.mem_append, List.mem_singleton, Set.mem_ofPred_eq, Set.mem_insert_iff]
  constructor
  · rintro ⟨hName, f, hf | rfl, rfl⟩
    · exact .inr ⟨hName, f, hf, rfl⟩
    · exact .inl rfl
  · rintro (rfl | ⟨hName, f, hf, rfl⟩)
    · exact ⟨hField, _, .inr rfl, rfl⟩
    · exact ⟨hName, f, .inl hf, rfl⟩

/-- A property is added. -/
theorem properties_addProperty (hField : isPropertyField field = true) (doc : Document) (text : QString)
    (isUri : Bool) : (doc.addProperty field text isUri).properties = insert (field, text) doc.properties := by
  rw [addProperty]
  split
  · exact properties_add hField doc text _ _
  · rw [properties_addText, properties_add hField]

theorem HasId.add {id : QString} (h : doc.HasId id) (hField : isPropertyField field = true) (text : QString)
    (isTokenized : Bool) : (doc.add ⟨field, text, true, isTokenized⟩).HasId id := by
  have hNe : field ≠ idFieldName := by
    rintro rfl
    cases hField
  refine ⟨?_, fun f hf hName => ?_⟩
  · have hValues := h.values
    rw [getValues] at hValues ⊢
    rw [Document.add, List.filter_append, List.map_append, hValues]
    simp [hNe]
  · rcases List.mem_append.mp hf with hf | hf
    · exact h.stored f hf hName
    · obtain rfl := List.mem_singleton.mp hf
      rfl

theorem HasId.addProperty {id : QString} (h : doc.HasId id) (hField : isPropertyField field = true)
    (text : QString) (isUri : Bool) : (doc.addProperty field text isUri).HasId id := by
  rw [Document.addProperty]
  split
  · exact h.add hField text _
  · exact (h.add hField text _).addText text

theorem properties_removeFields (doc : Document) (name : QString) :
    (doc.removeFields name).properties = {p ∈ doc.properties | p.1 ≠ name} := by
  ext p
  simp only [properties, removeFields, List.mem_filter, decide_eq_true_eq, Set.mem_ofPred_eq]
  constructor
  · rintro ⟨hField, f, ⟨hf, hName⟩, rfl⟩
    exact ⟨⟨hField, f, hf, rfl⟩, hName⟩
  · rintro ⟨⟨hField, f, hf, rfl⟩, hName⟩
    exact ⟨hField, f, ⟨hf, hName⟩, rfl⟩

theorem HasId.removeFields {id : QString} (h : doc.HasId id) (hName : name ≠ idFieldName) :
    (doc.removeFields name).HasId id := by
  refine ⟨?_, fun f hf hField => h.stored f (List.mem_filter.mp hf).1 hField⟩
  have hValues := h.values
  rw [getValues] at hValues ⊢
  rw [Document.removeFields, List.filter_filter, ← hValues]
  congr 1
  refine List.filter_congr fun f _ => ?_
  by_cases hf : f.name = idFieldName
  · simp [hf, hName.symm]
  · simp [hf]

/-- A document that its fields' texts are added to again. -/
theorem foldl_addText (fields : List Field) {id : QString} (h : doc.HasId id) :
    (fields.foldl (fun doc f => doc.addText f.stringValue) doc).properties = doc.properties ∧
      (fields.foldl (fun doc f => doc.addText f.stringValue) doc).HasId id := by
  induction fields generalizing doc with
  | nil => exact ⟨rfl, h⟩
  | cons f fields ih =>
    obtain ⟨hProperties, hId⟩ := ih (h.addText f.stringValue)
    exact ⟨hProperties.trans (properties_addText doc _), hId⟩

/-- A document to which properties are added one after the other. -/
theorem foldl_addProperty {γ : Type} (name value : γ → QString) (isUri : γ → Bool) (xs : List γ)
    (hName : ∀ x ∈ xs, isPropertyField (name x) = true) {id : QString} (h : doc.HasId id) :
    (xs.foldl (fun doc x => doc.addProperty (name x) (value x) (isUri x)) doc).properties =
        doc.properties ∪ {p | ∃ x ∈ xs, (name x, value x) = p} ∧
      (xs.foldl (fun doc x => doc.addProperty (name x) (value x) (isUri x)) doc).HasId id := by
  induction xs generalizing doc with
  | nil => exact ⟨by simp, h⟩
  | cons x xs ih =>
    have hField := hName x List.mem_cons_self
    obtain ⟨hProperties, hId⟩ := ih (fun y hy => hName y (List.mem_cons_of_mem x hy))
      (h.addProperty hField (value x) (isUri x))
    refine ⟨?_, hId⟩
    rw [List.foldl_cons, hProperties, properties_addProperty hField]
    ext p
    simp only [Set.mem_union, Set.mem_insert_iff, Set.mem_ofPred_eq, List.mem_cons, exists_eq_or_imp]
    tauto

/-- A property is removed, however often the document has it. -/
theorem removeProperty_spec (hField : isPropertyField field = true) (text : QString) (isUri : Bool)
    {id : QString} (h : doc.HasId id) :
    (doc.removeProperty field text isUri).properties = doc.properties \ {(field, text)} ∧
      (doc.removeProperty field text isUri).HasId id := by
  have hName : field ≠ idFieldName := by
    rintro rfl
    cases hField
  -- The other values of the field are kept.
  have hValues : ∀ value, value ∈ doc.getValues field ↔ (field, value) ∈ doc.properties := by
    intro value
    rw [mem_getValues]
    constructor
    · rintro ⟨f, hf, rfl, rfl⟩
      exact ⟨hField, f, hf, rfl⟩
    · rintro ⟨-, f, hf, hPair⟩
      obtain ⟨rfl, rfl⟩ := Prod.mk.inj hPair
      exact ⟨f, hf, rfl, rfl⟩
  have hFirst : ∀ first : Document, (first = if (doc.getValues field).isEmpty then doc else
      ((doc.getValues field).filter (· ≠ text)).foldl (fun doc value => doc.addProperty field value isUri)
        (doc.removeFields field)) →
      first.properties = doc.properties \ {(field, text)} ∧ first.HasId id := by
    rintro first rfl
    split
    · rename_i hEmpty
      refine ⟨?_, h⟩
      refine (Set.sdiff_singleton_eq_self fun hMem => ?_).symm
      rw [← hValues, List.isEmpty_iff.mp hEmpty] at hMem
      cases hMem
    · obtain ⟨hProperties, hId⟩ := foldl_addProperty (fun _ => field) (fun value => value)
        (fun _ => isUri) ((doc.getValues field).filter (· ≠ text)) (fun _ _ => hField)
        (h.removeFields hName)
      refine ⟨hProperties.trans ?_, hId⟩
      rw [properties_removeFields]
      ext ⟨name, value⟩
      simp only [Set.mem_union, Set.mem_ofPred_eq, List.mem_filter, decide_eq_true_eq, Set.mem_sdiff,
        Set.mem_singleton_iff, Prod.mk.injEq]
      constructor
      · rintro (⟨hMem, hNe⟩ | ⟨_, ⟨hMem, hNe⟩, rfl, rfl⟩)
        · exact ⟨hMem, fun hEq => hNe hEq.1⟩
        · exact ⟨(hValues _).mp hMem, fun hEq => hNe hEq.2⟩
      · rintro ⟨hMem, hNe⟩
        by_cases hSame : name = field
        · subst hSame
          exact .inr ⟨value, ⟨(hValues value).mpr hMem, fun hEq => hNe ⟨rfl, hEq⟩⟩, rfl, rfl⟩
        · exact .inl ⟨hMem, hSame⟩
  obtain ⟨hProperties, hId⟩ := hFirst _ rfl
  simp only [removeProperty]
  generalize (if (doc.getValues field).isEmpty = true then doc else _ : Document) = first at *
  split
  · exact ⟨hProperties, hId⟩
  · have hText : (first.removeFields textFieldName).HasId id := hId.removeFields (by decide)
    obtain ⟨hKept, hLast⟩ := foldl_addText
      ((first.removeFields textFieldName).fields.filter (isPropertyField ·.name)) hText
    refine ⟨?_, hLast⟩
    rw [hKept, properties_removeFields, ← hProperties]
    ext p
    refine ⟨fun hp => hp.1, fun hp => ⟨hp, fun hName => ?_⟩⟩
    have hProperty := hp.1
    rw [hName] at hProperty
    cases hProperty

theorem docEmpty_iff : doc.docEmpty = true ↔ doc.properties = ∅ := by
  rw [docEmpty, List.all_eq_true, Set.eq_empty_iff_forall_notMem]
  constructor
  · rintro h ⟨field, text⟩ ⟨hField, f, hf, hPair⟩
    obtain ⟨rfl, rfl⟩ := Prod.mk.inj hPair
    simpa [hField] using h f hf
  · intro h f hf
    by_contra hNot
    rw [Bool.not_eq_true', Bool.not_eq_false] at hNot
    exact h (f.name, f.stringValue) ⟨hNot, f, hf, rfl⟩

theorem HasId.properties_stored {id : QString} (h : doc.HasId id) : doc.stored.properties = doc.properties := by
  ext ⟨field, text⟩
  constructor
  · rintro ⟨hField, f, hf, hPair⟩
    exact ⟨hField, f, (List.mem_filter.mp hf).1, hPair⟩
  · rintro ⟨hField, f, hf, hPair⟩
    obtain ⟨rfl, rfl⟩ := Prod.mk.inj hPair
    exact ⟨hField, f, List.mem_filter.mpr ⟨hf, h.stored f hf hField⟩, rfl⟩

theorem hasId_new (id : QString) : (Document.mk [] |>.addID id).HasId id := by
  refine ⟨rfl, fun f hf hField => ?_⟩
  obtain rfl := List.mem_singleton.mp hf
  cases hField

theorem properties_new (id : QString) : (Document.mk [] |>.addID id).properties = ∅ :=
  docEmpty_iff.mp rfl

/-- The copy of a document has its properties. -/
theorem copy_spec (id : QString) (old : Document) :
    (copy id old).properties = old.properties ∧ (copy id old).HasId id := by
  obtain ⟨hProperties, hId⟩ := foldl_addProperty Field.name Field.stringValue
    (fun f => !f.isIndexed) (old.fields.filter (isPropertyField ·.name))
    (fun f hf => (List.mem_filter.mp hf).2) (hasId_new id)
  refine ⟨?_, hId⟩
  rw [copy, hProperties, properties_new, Set.empty_union]
  ext ⟨field, text⟩
  constructor
  · rintro ⟨f, hf, hPair⟩
    obtain ⟨rfl, rfl⟩ := Prod.mk.inj hPair
    exact ⟨(List.mem_filter.mp hf).2, f, (List.mem_filter.mp hf).1, rfl⟩
  · rintro ⟨hField, f, hf, hPair⟩
    obtain ⟨rfl, rfl⟩ := Prod.mk.inj hPair
    exact ⟨f, List.mem_filter.mpr ⟨hf, hField⟩, rfl⟩

end Document

end Index

end Soprano
