import Soprano.Index.Document
import Soprano.Library.Runs

/-! The text field of a document, along any calls of `addProperty` and `removeProperty`. -/

namespace Soprano

namespace Index

/-- A property of a resource, as it is given to `addProperty`. -/
structure Property where
  field : QString
  text : QString
  isUri : Bool
deriving DecidableEq

/-- The calls that change the properties of a document. -/
inductive PropertyCall where
  | addProperty (p : Property)
  | removeProperty (p : Property)

/-- The properties that are present after a call. -/
def present (ps : List Property) : PropertyCall → List Property
  | .addProperty p => ps ++ [p]
  | .removeProperty p => ps.filter fun q => ¬(q.field = p.field ∧ q.text = p.text)

/-- The texts of the literals. -/
def literalTexts (ps : List Property) : List QString := (ps.filter fun p => !p.isUri).map (·.text)

namespace Document

variable {doc : Document} {ps : List Property} {p : Property} {field text : QString} {isUri : Bool}

def call (doc : Document) : PropertyCall → Document
  | .addProperty p => doc.addProperty p.field p.text p.isUri
  | .removeProperty p => doc.removeProperty p.field p.text p.isUri

/-- The properties that the fields of the document stand for: those of URIs are not tokenized. -/
def entries (doc : Document) : List Property :=
  (doc.fields.filter (isPropertyField ·.name)).map fun f => ⟨f.name, f.stringValue, !f.isTokenized⟩

/-- What the text field contains. -/
def texts (doc : Document) : List QString := doc.getValues textFieldName

/-- The fields are those of the properties, and the text field contains the texts of the literals, each as often
as it is present. -/
structure Holds (doc : Document) (ps : List Property) : Prop where
  entries : doc.entries.Perm ps
  texts : doc.texts.Perm (literalTexts ps)

/-- The condition on a call: an added property has a field of its own, a literal is removed from literals only, and
a URI from a field that has URIs only and is not the text field of a literal. -/
def Apt (ps : List Property) : PropertyCall → Prop
  | .addProperty p => isPropertyField p.field = true
  | .removeProperty p =>
    if p.isUri then
      (∀ q ∈ ps, q.field = p.field → q.isUri = true) ∧
        (p.field = textFieldName → p.text ∉ literalTexts ps)
    else ∀ q ∈ present ps (.removeProperty p), q.isUri = false

/-! ### What one call does to the fields -/

theorem entries_addProperty (doc : Document) (field text : QString) (isUri : Bool) :
    (doc.addProperty field text isUri).entries =
      doc.entries ++ if isPropertyField field then [⟨field, text, isUri⟩] else [] := by
  have hText : isPropertyField textFieldName = false := rfl
  cases hField : isPropertyField field <;> cases isUri <;>
    simp [entries, addProperty, addText, add, hField, hText]

theorem texts_addProperty (doc : Document) (field text : QString) (isUri : Bool) :
    (doc.addProperty field text isUri).texts =
      doc.texts ++ ((if field = textFieldName then [text] else []) ++ if isUri then [] else [text]) := by
  by_cases hField : field = textFieldName <;> cases isUri <;>
    simp [texts, getValues, addProperty, addText, add, hField]

theorem entries_removeFields (doc : Document) (name : QString) :
    (doc.removeFields name).entries = doc.entries.filter (·.field ≠ name) := by
  simp only [entries, removeFields, List.filter_map, List.filter_filter]
  congr 1
  exact List.filter_congr fun f _ => Bool.and_comm _ _

theorem texts_removeFields (doc : Document) (name : QString) :
    (doc.removeFields name).texts = if name = textFieldName then [] else doc.texts := by
  simp only [texts, getValues, removeFields, List.filter_filter]
  split
  · rename_i hName
    subst hName
    simp
  · rename_i hName
    congr 1
    refine List.filter_congr fun f _ => ?_
    by_cases hText : f.name = textFieldName
    · simp [hText, Ne.symm hName]
    · simp [hText]

theorem entries_foldl_addProperty (values : List QString) (doc : Document) (field : QString) (isUri : Bool) :
    (values.foldl (fun doc value => doc.addProperty field value isUri) doc).entries =
      doc.entries ++ if isPropertyField field then values.map (⟨field, ·, isUri⟩) else [] := by
  induction values generalizing doc with
  | nil => simp
  | cons value values ih =>
    rw [List.foldl_cons, ih, entries_addProperty]
    split <;> simp

theorem texts_foldl_addProperty (values : List QString) (doc : Document) (field : QString) (hField : field ≠ textFieldName) :
    (values.foldl (fun doc value => doc.addProperty field value true) doc).texts = doc.texts := by
  induction values generalizing doc with
  | nil => rfl
  | cons value values ih => rw [List.foldl_cons, ih, texts_addProperty, if_neg hField]; simp

theorem texts_foldl_addText (values : List QString) (doc : Document) :
    (values.foldl (fun doc value => doc.addProperty textFieldName value true) doc).texts = doc.texts ++ values := by
  induction values generalizing doc with
  | nil => simp
  | cons value values ih => rw [List.foldl_cons, ih, texts_addProperty]; simp

/-- The values of a field are the texts of its entries. -/
theorem getValues_eq (hField : isPropertyField field = true) :
    doc.getValues field = (doc.entries.filter (·.field = field)).map (·.text) := by
  simp only [getValues, entries, List.filter_map, List.map_map, List.filter_filter]
  refine congrArg (List.map _) (List.filter_congr fun f _ => ?_)
  by_cases hName : f.name = field <;> simp [hName, hField]

theorem isPropertyField_of_mem (h : p ∈ doc.entries) : isPropertyField p.field = true := by
  obtain ⟨f, hf, rfl⟩ := List.mem_map.mp h
  exact (List.mem_filter.mp hf).2

/-- The first step of `removeProperty`: the values of the field but the text are added again. -/
def removeValue (doc : Document) (field text : QString) (isUri : Bool) : Document :=
  if (doc.getValues field).isEmpty then doc else
    ((doc.getValues field).filter (· ≠ text)).foldl (fun doc value => doc.addProperty field value isUri)
      (doc.removeFields field)

theorem entries_removeValue (doc : Document) (field text : QString) (isUri : Bool) :
    (doc.removeValue field text isUri).entries = doc.entries.filter (·.field ≠ field) ++
      (doc.entries.filter fun p => p.field = field ∧ p.text ≠ text).map fun p => ⟨field, p.text, isUri⟩ := by
  have hOther : isPropertyField field = false → ∀ p ∈ doc.entries, p.field ≠ field := by
    rintro hField p hp rfl
    cases hField.symm.trans (isPropertyField_of_mem hp)
  rw [removeValue]
  split
  · rename_i hEmpty
    have hNone : ∀ p ∈ doc.entries, p.field ≠ field := by
      cases hField : isPropertyField field with
      | false => exact hOther hField
      | true =>
        intro p hp hName
        have hMem : p.text ∈ doc.getValues field := by
          rw [getValues_eq hField]
          exact List.mem_map_of_mem (List.mem_filter.mpr ⟨hp, by simpa using hName⟩)
        rw [List.isEmpty_iff.mp hEmpty] at hMem
        cases hMem
    rw [List.filter_eq_self.mpr fun p hp => by simpa using hNone p hp,
      List.filter_eq_nil_iff.mpr fun p hp => by simp [hNone p hp], List.map_nil, List.append_nil]
  · rw [entries_foldl_addProperty, entries_removeFields]
    congr 1
    cases hField : isPropertyField field with
    | false =>
      have hNone : (doc.entries.filter fun p => p.field = field ∧ p.text ≠ text) = [] :=
        List.filter_eq_nil_iff.mpr fun p hp => by simp [hOther hField p hp]
      rw [hNone]
      rfl
    | true =>
      rw [if_pos rfl, getValues_eq hField, List.filter_map, List.map_map, List.filter_filter]
      refine congrArg (List.map _) (List.filter_congr fun p _ => ?_)
      by_cases hName : p.field = field <;> simp [hName]

/-- Values of a URI are not added to the text field. -/
theorem texts_removeValue (doc : Document) (field text : QString) :
    (doc.removeValue field text true).texts =
      if field = textFieldName then doc.texts.filter (· ≠ text) else doc.texts := by
  rw [removeValue]
  by_cases hField : field = textFieldName
  · subst hField
    rw [if_pos rfl]
    split
    · rename_i hEmpty
      rw [texts, List.isEmpty_iff.mp hEmpty]
      rfl
    · rw [texts_foldl_addText, texts_removeFields, if_pos rfl]
      rfl
  · rw [if_neg hField]
    split
    · rfl
    · rw [texts_foldl_addProperty _ _ _ hField, texts_removeFields, if_neg hField]

theorem removeProperty_uri (doc : Document) (field text : QString) :
    doc.removeProperty field text true = doc.removeValue field text true := rfl

theorem foldl_addText_spec (fields : List Field) (doc : Document) :
    (fields.foldl (fun doc f => doc.addText f.stringValue) doc).entries = doc.entries ∧
      (fields.foldl (fun doc f => doc.addText f.stringValue) doc).texts =
        doc.texts ++ fields.map (·.stringValue) := by
  induction fields generalizing doc with
  | nil => simp
  | cons f fields ih =>
    obtain ⟨hEntries, hTexts⟩ := ih (doc.addText f.stringValue)
    rw [List.foldl_cons, hEntries, hTexts]
    have hText : isPropertyField textFieldName = false := rfl
    simp [entries, texts, getValues, addText, add, hText]

/-- The second step adds the texts of all properties, of URIs as well. -/
theorem removeProperty_literal (doc : Document) (field text : QString) :
    (doc.removeProperty field text false).entries = (doc.removeValue field text false).entries ∧
      (doc.removeProperty field text false).texts =
        (doc.removeValue field text false).entries.map (·.text) := by
  have hEntries : ((doc.removeValue field text false).removeFields textFieldName).entries =
      (doc.removeValue field text false).entries := by
    rw [entries_removeFields, List.filter_eq_self]
    intro p hp
    have hField := isPropertyField_of_mem hp
    rw [decide_eq_true_eq]
    intro hName
    rw [hName] at hField
    cases hField
  have hSpec := foldl_addText_spec
    (((doc.removeValue field text false).removeFields textFieldName).fields.filter (isPropertyField ·.name))
    ((doc.removeValue field text false).removeFields textFieldName)
  rw [hEntries, texts_removeFields, if_pos rfl, List.nil_append] at hSpec
  refine ⟨hSpec.1, hSpec.2.trans ?_⟩
  rw [← hEntries, entries, List.map_map]
  rfl

/-! ### What it does to the invariant -/

theorem Holds.addProperty_iff (h : doc.Holds ps) (p : Property) :
    (doc.call (.addProperty p)).Holds (present ps (.addProperty p)) ↔ isPropertyField p.field = true := by
  constructor
  · intro hAfter
    by_contra hField
    have hLength := hAfter.entries.length_eq
    rw [call, entries_addProperty, if_neg hField, List.append_nil, h.entries.length_eq, present,
      List.length_append] at hLength
    simp at hLength
  · intro hField
    have hName : p.field ≠ textFieldName := by
      intro hName
      rw [hName] at hField
      cases hField
    constructor
    · rw [call, entries_addProperty, if_pos hField]
      exact h.entries.append_right _
    · rw [call, texts_addProperty, if_neg hName, List.nil_append, present, literalTexts, List.filter_append,
        List.map_append]
      refine (h.texts.append_right _).trans (List.Perm.of_eq ?_)
      cases hUri : p.isUri <;> simp [literalTexts, hUri]

/-- What is present after a removal: the other fields, and the other texts of the field. -/
theorem present_perm (ps : List Property) (p : Property) :
    (ps.filter (·.field ≠ p.field) ++ ps.filter fun q => q.field = p.field ∧ q.text ≠ p.text).Perm
      (present ps (.removeProperty p)) := by
  have hSplit := List.filter_append_perm (fun q => decide (q.field ≠ p.field)) (present ps (.removeProperty p))
  rw [present, List.filter_filter, List.filter_filter] at hSplit
  have hOther : ps.filter (·.field ≠ p.field) = ps.filter fun q => decide (q.field ≠ p.field) &&
      decide (¬(q.field = p.field ∧ q.text = p.text)) := List.filter_congr fun q _ => by
    by_cases hField : q.field = p.field <;> simp [hField]
  have hSame : (ps.filter fun q => q.field = p.field ∧ q.text ≠ p.text) = ps.filter fun q =>
      !decide (q.field ≠ p.field) && decide (¬(q.field = p.field ∧ q.text = p.text)) :=
    List.filter_congr fun q _ => by by_cases hField : q.field = p.field <;> simp [hField]
  rw [hOther, hSame]
  exact hSplit

/-- The literals that are present after a removal. -/
theorem literals_present (ps : List Property) (p : Property) :
    (present ps (.removeProperty p)).filter (fun q => !q.isUri) =
      (ps.filter fun q => !q.isUri).filter fun q => ¬(q.field = p.field ∧ q.text = p.text) := by
  rw [present, List.filter_filter, List.filter_filter]
  exact List.filter_congr fun q _ => Bool.and_comm _ _

theorem Holds.entries_removeValue (h : doc.Holds ps) (p : Property) :
    (doc.removeValue p.field p.text p.isUri).entries.Perm (ps.filter (·.field ≠ p.field) ++
      (ps.filter fun q => q.field = p.field ∧ q.text ≠ p.text).map fun q => ⟨p.field, q.text, p.isUri⟩) := by
  rw [Document.entries_removeValue]
  exact (h.entries.filter _).append ((h.entries.filter _).map _)

/-- The values that are added again are as they were if they are all URIs, or all literals. -/
theorem map_eq_self (ps : List Property) (p : Property)
    (hSame : ∀ q ∈ ps, q.field = p.field → q.text ≠ p.text → q.isUri = p.isUri) :
    ((ps.filter fun q => q.field = p.field ∧ q.text ≠ p.text).map fun q =>
      (⟨p.field, q.text, p.isUri⟩ : Property)) = ps.filter fun q => q.field = p.field ∧ q.text ≠ p.text := by
  refine (List.map_congr_left fun q hq => ?_).trans (List.map_id _)
  obtain ⟨hq, hBoth⟩ := List.mem_filter.mp hq
  obtain ⟨hField, hText⟩ := of_decide_eq_true hBoth
  rw [← hField, ← hSame q hq hField hText]
  rfl

theorem Holds.removeLiteral_iff (h : doc.Holds ps) (hUri : p.isUri = false) :
    (doc.call (.removeProperty p)).Holds (present ps (.removeProperty p)) ↔
      ∀ q ∈ present ps (.removeProperty p), q.isUri = false := by
  have hEntries := h.entries_removeValue p
  obtain ⟨hFields, hTexts⟩ := removeProperty_literal doc p.field p.text
  rw [hUri] at hEntries
  have hPresent := present_perm ps p
  constructor
  · intro hAfter
    have hLength := hAfter.texts.length_eq
    rw [call, hUri, hTexts, List.length_map, hEntries.length_eq, List.length_append, List.length_map,
      ← List.length_append, hPresent.length_eq, literalTexts, List.length_map] at hLength
    intro q hq
    have hAll := List.length_filter_eq_length_iff.mp hLength.symm q hq
    simpa using hAll
  · intro hAll
    have hSame := map_eq_self ps p fun q hq hField hText => by
      rw [hUri]
      exact hAll q (List.mem_filter.mpr ⟨hq, by simp [hText]⟩)
    rw [hUri] at hSame
    rw [hSame] at hEntries
    have hPerm := hEntries.trans hPresent
    constructor
    · rw [call, hUri, hFields]
      exact hPerm
    · rw [call, hUri, hTexts, literalTexts, List.filter_eq_self.mpr fun q hq => by simp [hAll q hq]]
      exact hPerm.map _

theorem Holds.removeUri_iff (h : doc.Holds ps) (hUri : p.isUri = true) :
    (doc.call (.removeProperty p)).Holds (present ps (.removeProperty p)) ↔
      (∀ q ∈ ps, q.field = p.field → q.isUri = true) ∧
        (p.field = textFieldName → p.text ∉ literalTexts ps) := by
  have hEntries := h.entries_removeValue p
  have hTexts := texts_removeValue doc p.field p.text
  have hPresent := present_perm ps p
  have hCall : doc.call (.removeProperty p) = doc.removeValue p.field p.text p.isUri := by
    rw [call, hUri, removeProperty_uri]
  rw [← hUri] at hTexts
  have hNoText : p.field = textFieldName → ∀ q ∈ ps, q.field ≠ p.field := by
    rintro hName q hq hField
    have hProperty := isPropertyField_of_mem (h.entries.mem_iff.mpr hq)
    rw [hField, hName] at hProperty
    cases hProperty
  constructor
  · intro hAfter
    have hAfterTexts := hAfter.texts
    rw [hCall, hTexts, literalTexts, literals_present] at hAfterTexts
    have hLength := hAfterTexts.length_eq
    rw [List.length_map] at hLength
    by_cases hName : p.field = textFieldName
    · refine ⟨fun q hq hField => absurd hField (hNoText hName q hq), fun _ hMem => ?_⟩
      have hAll : (ps.filter fun q => !q.isUri).filter (fun q => ¬(q.field = p.field ∧ q.text = p.text)) =
          ps.filter fun q => !q.isUri := List.filter_eq_self.mpr fun q hq => by
        simp [hNoText hName q (List.mem_filter.mp hq).1]
      have hBefore := h.texts.length_eq
      rw [literalTexts, List.length_map] at hBefore
      rw [if_pos hName, hAll, ← hBefore] at hLength
      have hNe := List.length_filter_eq_length_iff.mp hLength p.text (h.texts.mem_iff.mpr hMem)
      simp at hNe
    · refine ⟨fun q hq hField => ?_, fun hText => absurd hText hName⟩
      by_contra hLiteral
      rw [Bool.not_eq_true] at hLiteral
      have hBefore := h.texts.length_eq
      rw [literalTexts, List.length_map] at hBefore
      rw [if_neg hName, hBefore] at hLength
      by_cases hText : q.text = p.text
      · -- The literal is gone, but its text is still there.
        have hAll := List.length_filter_eq_length_iff.mp hLength.symm q (List.mem_filter.mpr ⟨hq, by simp [hLiteral]⟩)
        simp [hField, hText] at hAll
      · -- The literal has become a URI.
        have hAfterEntries := hAfter.entries
        rw [hCall] at hAfterEntries
        have hCount := ((hEntries.symm.trans hAfterEntries).trans hPresent.symm).countP_eq fun q => !q.isUri
        rw [List.countP_append, List.countP_append, Nat.add_left_cancel_iff] at hCount
        have hNone : ((ps.filter fun q => q.field = p.field ∧ q.text ≠ p.text).map fun q =>
            (⟨p.field, q.text, p.isUri⟩ : Property)).countP (fun q => !q.isUri) = 0 := by
          rw [List.countP_eq_zero]
          intro r hr
          obtain ⟨_, -, rfl⟩ := List.mem_map.mp hr
          simp [hUri]
        rw [hNone] at hCount
        have hNot := List.countP_eq_zero.mp hCount.symm q (List.mem_filter.mpr ⟨hq, by simp [hField, hText]⟩)
        simp [hLiteral] at hNot
  · rintro ⟨hUris, hText⟩
    have hSame := map_eq_self ps p fun q hq hField _ => by rw [hUri, hUris q hq hField]
    rw [hSame] at hEntries
    constructor
    · rw [hCall]
      exact hEntries.trans hPresent
    · have hAll : (ps.filter fun q => !q.isUri).filter (fun q => ¬(q.field = p.field ∧ q.text = p.text)) =
          ps.filter fun q => !q.isUri := List.filter_eq_self.mpr fun q hq => by
        obtain ⟨hq, hLiteral⟩ := List.mem_filter.mp hq
        rw [decide_eq_true_eq]
        rintro ⟨hField, -⟩
        simp [hUris q hq hField] at hLiteral
      rw [hCall, hTexts, literalTexts, literals_present, hAll]
      split
      · rename_i hName
        have hKept : (literalTexts ps).filter (· ≠ p.text) = literalTexts ps :=
          List.filter_eq_self.mpr fun text hMem => by
            rw [decide_eq_true_eq]
            rintro rfl
            exact hText hName hMem
        exact (h.texts.filter _).trans (List.Perm.of_eq hKept)
      · exact h.texts

/-- A call keeps the invariant if and only if it is apt. -/
theorem Holds.call_iff (h : doc.Holds ps) (c : PropertyCall) : (doc.call c).Holds (present ps c) ↔ Apt ps c := by
  cases c with
  | addProperty p => exact h.addProperty_iff p
  | removeProperty p =>
    rw [Apt]
    split
    · rename_i hUri
      exact h.removeUri_iff hUri
    · rename_i hUri
      exact h.removeLiteral_iff (by simpa using hUri)

/-! ### Runs -/

/-- The document and the properties that are present in it. -/
def step (s : Document × List Property) (c : PropertyCall) : Option (Document × List Property) :=
  some (s.1.call c, present s.2 c)

theorem holds_addID (id : QString) : (Document.mk [] |>.addID id).Holds [] := ⟨.refl _, .refl _⟩

/-- In the states of a run from a new document the text field contains the texts of the literals exactly if all
calls are apt. -/
theorem holds_iff_apt (id : QString) (calls : List PropertyCall) :
    (∀ done s, done <+: calls → Runs.run step (Document.mk [] |>.addID id, []) done = some s → s.1.Holds s.2) ↔
      Runs.AllMeet step (fun s c => Apt s.2 c) (Document.mk [] |>.addID id, []) calls := by
  refine Runs.good_iff_allMeet (I := fun s => s.1.Holds s.2) (fun h => h) (fun h hMeets hStep => ?_) (fun h hNot => ?_)
    (holds_addID id)
  · cases hStep
    exact (h.call_iff _).mpr hMeets
  · exact ⟨_, rfl, fun hHolds => hNot ((h.call_iff _).mp hHolds)⟩

/-- After the removal of a literal the URI is in the text field. -/
theorem not_holds : ¬ ∀ (id : QString) (calls : List PropertyCall) (s : Document × List Property),
    Runs.run step (Document.mk [] |>.addID id, []) calls = some s → s.1.Holds s.2 := by
  intro h
  have hTexts := (h "urn:s".toList [.addProperty ⟨"urn:p".toList, "urn:o".toList, true⟩,
    .addProperty ⟨"urn:q".toList, ['a'], false⟩, .removeProperty ⟨"urn:q".toList, ['a'], false⟩] _ rfl).texts
  have hLength := hTexts.length_eq
  revert hLength
  decide

/-- A document that is read from the index has literals only. -/
theorem holds_copy (id : QString) (old : Document) : (copy id old).Holds
    ((old.fields.filter (isPropertyField ·.name)).map fun f => ⟨f.name, f.stringValue, false⟩) := by
  have hAll : ∀ (fields : List Field) (doc : Document) (ps : List Property), doc.Holds ps →
      (∀ f ∈ fields, isPropertyField f.name = true) →
      (fields.foldl (fun doc f => doc.addProperty f.name f.stringValue (!f.isIndexed)) doc).Holds
        (ps ++ fields.map fun f => ⟨f.name, f.stringValue, false⟩) := by
    intro fields
    induction fields with
    | nil => exact fun doc ps h _ => by simpa using h
    | cons f fields ih =>
      intro doc ps h hFields
      have hNext := (h.addProperty_iff ⟨f.name, f.stringValue, false⟩).mpr (hFields f List.mem_cons_self)
      have := ih _ _ hNext fun g hg => hFields g (List.mem_cons_of_mem f hg)
      rwa [present, List.append_assoc] at this
  exact hAll _ _ _ (holds_addID id) fun f hf => (List.mem_filter.mp hf).2

end Document

end Index

end Soprano
