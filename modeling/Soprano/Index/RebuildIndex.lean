import Mathlib.Data.List.Perm.Subperm
import Soprano.Index.IndexFilterModel
import Soprano.Index.IndexQuery

/-! `IndexFilterModel::rebuildIndex`: when the index holds the statements of the store afterwards. -/

namespace Soprano

namespace Index

section Qt

variable [Qt]

/-! ### States of the index -/

namespace CLuceneIndex

/-- `CLuceneIndex::clear`: the documents on disk are deleted. -/
def clear (index : CLuceneIndex) : CLuceneIndex :=
  if index.indexPresent then { index with documents := [] } else index

/-- The calls that change an index. -/
inductive Operation where
  | startTransaction
  | closeTransaction (id : Nat)
  | addStatement (statement : Statement)
  | removeStatement (statement : Statement)
  /-- `documentForResource`, whose document is then changed -/
  | documentForResource (resource : Node) (change : Document → Document)
  | clear

def operate (index : CLuceneIndex) : Operation → CLuceneIndex
  | .startTransaction => index.startTransaction.2
  | .closeTransaction id => (index.closeTransaction id).2
  | .addStatement s => (index.addStatement s).2
  | .removeStatement s => (index.removeStatement s).2
  | .documentForResource resource change =>
    if index.transactionID = 0 then index
    else index.setDocument resource (change (index.getDocument resource))
  | .clear => index.clear

/-- An index folder with an index. -/
def onDisk (documents : List Document) : CLuceneIndex := ⟨true, documents, [], 0⟩

/-- An index that was opened, after any calls. -/
def Reached (index : CLuceneIndex) : Prop :=
  ∃ (first : CLuceneIndex) (operations : List Operation),
    (first = opened ∨ ∃ documents, first = onDisk documents) ∧ index = operations.foldl operate first

/-- Without an index on disk there are no documents, and without a transaction none is cached. -/
structure Tidy (index : CLuceneIndex) : Prop where
  absent : index.indexPresent = false → index.documents = []
  cached : index.transactionID = 0 → index.documentCache = []

variable {index : CLuceneIndex}

theorem absent_commit (h : index.indexPresent = false → index.documents = [])
    (hAbsent : index.commit.indexPresent = false) : index.commit.documents = [] := by
  simp only [CLuceneIndex.commit, Bool.or_eq_false_iff, Bool.not_eq_false', List.isEmpty_iff] at hAbsent ⊢
  rw [hAbsent.2, keptDocuments, hAbsent.1, h hAbsent.1]
  rfl

theorem Tidy.change (h : index.Tidy) (resource : Node) (document : Document) :
    (index.change resource document).Tidy := by
  rw [CLuceneIndex.change]
  split
  · have hAbsent : (index.setDocument resource document).indexPresent = false →
        (index.setDocument resource document).documents = [] := h.absent
    exact ⟨absent_commit hAbsent, fun _ => rfl⟩
  · rename_i hOpen
    exact ⟨h.absent, fun hClosed => absurd hClosed hOpen⟩

theorem Tidy.operate (h : index.Tidy) (operation : Operation) : (index.operate operation).Tidy := by
  cases operation with
  | startTransaction =>
    show index.startTransaction.2.Tidy
    rw [CLuceneIndex.startTransaction]
    split
    · exact ⟨h.absent, (by intros; contradiction)⟩
    · exact h
  | closeTransaction id =>
    show (index.closeTransaction id).2.Tidy
    rw [CLuceneIndex.closeTransaction]
    split
    · exact ⟨absent_commit h.absent, fun _ => rfl⟩
    · exact h
  | addStatement s =>
    show (index.addStatement s).2.Tidy
    simp only [CLuceneIndex.addStatement]
    split
    · exact h
    · exact h.change _ _
  | removeStatement s =>
    show (index.removeStatement s).2.Tidy
    simp only [CLuceneIndex.removeStatement]
    split
    · exact h
    · split
      · exact h
      · exact h.change _ _
  | documentForResource resource change =>
    simp only [CLuceneIndex.operate]
    split
    · exact h
    · rename_i hOpen
      exact ⟨h.absent, fun hClosed => absurd hClosed hOpen⟩
  | clear =>
    show index.clear.Tidy
    rw [CLuceneIndex.clear]
    split
    · exact ⟨fun _ => rfl, h.cached⟩
    · exact h

theorem Reached.tidy (h : index.Reached) : index.Tidy := by
  obtain ⟨first, operations, hFirst, rfl⟩ := h
  have hTidy : first.Tidy := by
    rcases hFirst with rfl | ⟨documents, rfl⟩
    · exact ⟨fun _ => rfl, fun _ => rfl⟩
    · exact ⟨nofun, fun _ => rfl⟩
  clear hFirst
  induction operations generalizing first with
  | nil => exact hTidy
  | cons operation operations ih => exact ih _ (hTidy.operate operation)

end CLuceneIndex

open CLuceneIndex

namespace IndexFilterModel

/-! ### The code -/

/-- `Statement( res, it2.binding( "p" ), it2.binding( "o" ) )` -/
def statementOf (res : Node) (row : Node × Node) : Statement := ⟨res, row.1, row.2, .empty⟩

/-- The document of a resource is built in a transaction of its own. -/
def rebuildResource (res : Node) (rows : List (Node × Node)) (index : CLuceneIndex) : CLuceneIndex :=
  let (id, index) := index.startTransaction
  let index := rows.foldl (fun index row => (index.addStatement (statementOf res row)).2) index
  (index.closeTransaction id).2

def rebuildIndex (executeQuery : QString → Inference.Store → List BindingSet) (m : IndexFilterModel) :
    IndexFilterModel :=
  let m := m.closeTransaction
  let it := (executeQuery resourcesQuery m.parentModel).map (·.value ['r'])
  let index := it.foldl (fun index res =>
    rebuildResource res (pairs (executeQuery (statementsQuery res m.forceIndexPredicates) m.parentModel)) index)
    m.index.clear
  { m with index := index }

/-! ### What it is for -/

/-- The predicates and objects of the indexable statements of a resource, each pair once. -/
def Pairs (m : IndexFilterModel) (res : Node) (rows : List (Node × Node)) : Prop :=
  rows.Nodup ∧ ∀ row, row ∈ rows ↔
    ∃ s ∈ m.parentModel, m.indexStatement s = true ∧ s.subject = res ∧ (s.predicate, s.object) = row

/-- The properties of the predicates and objects are added to a document. -/
def addPairs (res : Node) (rows : List (Node × Node)) (doc : Document) : Document :=
  rows.foldl (fun doc row => doc.addProperty (fieldOf (statementOf res row)) (textOf (statementOf res row))
    row.2.isResource) doc

/-- The document of a resource with these predicates and objects. -/
def documentOf (res : Node) (rows : List (Node × Node)) : Document :=
  addPairs res rows (Document.mk [] |>.addID (getId res))

/-- The documents that a term of the id of the resource finds. -/
def documentsOf (index : CLuceneIndex) (res : Node) : List Document :=
  index.documents.filter fun doc => (doc.getValues idFieldName).contains (getId res)

/-- The index is that of the store of `m`, and nothing is left to be written to it. -/
structure Complete (m : IndexFilterModel) (index : CLuceneIndex) : Prop where
  only : ∀ doc ∈ index.documents, ∃ s ∈ m.parentModel, m.indexStatement s = true ∧ doc.HasId (getId s.subject)
  each : ∀ s ∈ m.parentModel, m.indexStatement s = true →
    ∃ rows, m.Pairs s.subject rows ∧ documentsOf index s.subject = [documentOf s.subject rows]
  written : index.documentCache = []
  closed : index.transactionID = 0

/-- A model of valid statements, whose blank nodes have labels and whose indexed statements have ids and fields of
their own. -/
structure Regular (m : IndexFilterModel) : Prop where
  reached : m.index.Reached
  valid : ∀ s ∈ m.parentModel, s.isValid = true
  apart : ∀ s ∈ m.parentModel, m.indexStatement s = true → Apart s
  labels : ∀ s ∈ m.parentModel, Queryable s.subject
  forced : ∀ p ∈ m.forceIndexPredicates, p.isEmpty = false

/-- No transaction is open, or the one of the model is full; each indexable statement has a text; and each blank
node has all indexable statements of the store. -/
structure Rebuildable (m : IndexFilterModel) : Prop where
  idle : m.index.transactionID = 0 ∨
    m.transactionCacheId = m.index.transactionID ∧ m.transactionCacheSize ≤ m.transactionCacheCount
  texts : ∀ s ∈ m.parentModel, m.indexStatement s = true → textOf s ≠ []
  blank : ∀ s ∈ m.parentModel, s.subject.isBlank = true → ∀ t ∈ m.parentModel, m.indexStatement t = true →
    ∃ t' ∈ m.parentModel, m.indexStatement t' = true ∧ t'.subject = s.subject ∧ t'.predicate = t.predicate ∧
      t'.object = t.object

/-! ### The document of a resource -/

variable {m : IndexFilterModel} {index : CLuceneIndex} {res : Node} {rows : List (Node × Node)}

/-- The rows whose objects have a text. -/
def written (res : Node) (rows : List (Node × Node)) : List (Node × Node) :=
  rows.filter fun row => textOf (statementOf res row) ≠ []

theorem written_cons (res : Node) (row : Node × Node) (rows : List (Node × Node)) :
    written res (row :: rows) =
      if textOf (statementOf res row) = [] then written res rows else row :: written res rows := by
  by_cases hText : textOf (statementOf res row) = [] <;> simp [written, hText]

theorem setDocument_setDocument (index : CLuceneIndex) (res : Node) (doc doc' : Document) :
    (index.setDocument res doc).setDocument res doc' = index.setDocument res doc' := by
  simp [setDocument, List.filter_filter]

/-- In a transaction a statement with a text changes the cached document. -/
theorem addStatement_open (hOpen : index.transactionID ≠ 0) (s : Statement) :
    (index.addStatement s).2 = if textOf s = [] then index else index.setDocument s.subject
      ((index.getDocument s.subject).addProperty (fieldOf s) (textOf s) s.object.isResource) := by
  simp only [CLuceneIndex.addStatement, List.isEmpty_iff]
  split
  · rfl
  · rw [CLuceneIndex.change]
    exact if_neg hOpen

theorem foldl_addStatement_cached (hOpen : index.transactionID ≠ 0) (doc : Document) :
    rows.foldl (fun index row => (index.addStatement (statementOf res row)).2) (index.setDocument res doc) =
      index.setDocument res (addPairs res (written res rows) doc) := by
  induction rows generalizing doc with
  | nil => rfl
  | cons row rows ih =>
    rw [List.foldl_cons, addStatement_open (show (index.setDocument res doc).transactionID ≠ 0 from hOpen),
      written_cons]
    by_cases hText : textOf (statementOf res row) = []
    · rw [if_pos hText, if_pos hText]
      exact ih doc
    · rw [if_neg hText, if_neg hText, show (statementOf res row).subject = res from rfl,
        getDocument_setDocument, if_pos rfl, setDocument_setDocument]
      exact ih _

theorem foldl_addStatement (hOpen : index.transactionID ≠ 0) (res : Node) (rows : List (Node × Node)) :
    rows.foldl (fun index row => (index.addStatement (statementOf res row)).2) index =
      if written res rows = [] then index
      else index.setDocument res (addPairs res (written res rows) (index.getDocument res)) := by
  induction rows with
  | nil => rfl
  | cons row rows ih =>
    rw [List.foldl_cons, addStatement_open hOpen, written_cons]
    by_cases hText : textOf (statementOf res row) = []
    · rw [if_pos hText, if_pos hText]
      exact ih
    · rw [if_neg hText, if_neg hText, if_neg (List.cons_ne_nil _ _)]
      exact foldl_addStatement_cached hOpen _

/-- A resource that the index does not know gets a new document. -/
theorem getDocument_new (hCache : index.documentCache = []) (hNone : documentsOf index res = []) :
    index.getDocument res = (Document.mk [] |>.addID (getId res)) := by
  have hFind : index.findDocument (getId res) = none := by
    rw [findDocument, ← List.head?_filter, show index.documents.filter _ = [] from hNone]
    rfl
  rw [getDocument, hCache]
  simp only [List.find?_nil, hFind, ite_self]

theorem addPairs_spec (hFields : ∀ row ∈ rows, isPropertyField (fieldOf (statementOf res row)) = true)
    {doc : Document} {id : QString} (h : doc.HasId id) :
    (addPairs res rows doc).properties = doc.properties ∪
        {p | ∃ row ∈ rows, (fieldOf (statementOf res row), textOf (statementOf res row)) = p} ∧
      (addPairs res rows doc).HasId id :=
  Document.foldl_addProperty (fun row => fieldOf (statementOf res row)) (fun row => textOf (statementOf res row))
    (fun row => row.2.isResource) rows hFields h

theorem hasId_documentOf (hFields : ∀ row ∈ rows, isPropertyField (fieldOf (statementOf res row)) = true) :
    (documentOf res rows).HasId (getId res) := (addPairs_spec hFields (Document.hasId_new _)).2

theorem docEmpty_documentOf (hFields : ∀ row ∈ rows, isPropertyField (fieldOf (statementOf res row)) = true)
    (hRows : rows ≠ []) : (documentOf res rows).docEmpty = false := by
  obtain ⟨row, hRow⟩ := List.exists_mem_of_ne_nil rows hRows
  rw [← Bool.not_eq_true, Document.docEmpty_iff, documentOf, (addPairs_spec hFields (Document.hasId_new _)).1]
  exact Set.nonempty_iff_ne_empty.mp ⟨_, .inr ⟨row, hRow, rfl⟩⟩

/-- The names and values of the property fields are those of the rows. -/
theorem propertyFields_documentOf (hFields : ∀ row ∈ rows, isPropertyField (fieldOf (statementOf res row)) = true) :
    ((documentOf res rows).fields.filter (isPropertyField ·.name)).map (fun f => (f.name, f.stringValue)) =
      rows.map fun row => (fieldOf (statementOf res row), textOf (statementOf res row)) := by
  have hAll : ∀ doc : Document,
      ((addPairs res rows doc).fields.filter (isPropertyField ·.name)).map (fun f => (f.name, f.stringValue)) =
        (doc.fields.filter (isPropertyField ·.name)).map (fun f => (f.name, f.stringValue)) ++
          rows.map fun row => (fieldOf (statementOf res row), textOf (statementOf res row)) := by
    induction rows with
    | nil => exact fun doc => (List.append_nil _).symm
    | cons row rows ih =>
      intro doc
      have hField := hFields row List.mem_cons_self
      have hOne : ∀ isUri, ((doc.addProperty (fieldOf (statementOf res row)) (textOf (statementOf res row))
          isUri).fields.filter (isPropertyField ·.name)).map (fun f => (f.name, f.stringValue)) =
          (doc.fields.filter (isPropertyField ·.name)).map (fun f => (f.name, f.stringValue)) ++
            [(fieldOf (statementOf res row), textOf (statementOf res row))] := by
        intro isUri
        rw [Document.addProperty]
        split
        · simp [Document.add, hField]
        · simp [Document.addText, Document.add, hField, show isPropertyField textFieldName = false from rfl]
      rw [addPairs, List.foldl_cons]
      refine (ih (fun r hr => hFields r (List.mem_cons_of_mem row hr)) _).trans ?_
      rw [hOne, List.append_assoc]
      rfl
  exact hAll _

/-- The state between two resources: nothing is cached, and no transaction is open. -/
structure Idle (index : CLuceneIndex) : Prop where
  absent : index.indexPresent = false → index.documents = []
  cached : index.documentCache = []
  closed : index.transactionID = 0

/-- The index in the transaction of a resource. -/
def begun (index : CLuceneIndex) : CLuceneIndex := { index with transactionID := 1 }

theorem startTransaction_idle (h : Idle index) : index.startTransaction = (1, begun index) := if_pos h.closed

theorem rebuildResource_none (h : Idle index) (hRows : written res rows = []) :
    Idle (rebuildResource res rows index) ∧ (rebuildResource res rows index).documents = index.documents := by
  have hFold := foldl_addStatement (show (begun index).transactionID ≠ 0 from nofun) res rows
  rw [if_pos hRows] at hFold
  have hResult : rebuildResource res rows index = { (begun index).commit with transactionID := 0 } := by
    simp only [rebuildResource, startTransaction_idle h, hFold, CLuceneIndex.closeTransaction]
    rfl
  have hAbsent : (begun index).indexPresent = false → (begun index).documents = [] := h.absent
  rw [hResult]
  refine ⟨⟨fun hNone => absent_commit hAbsent hNone, rfl, rfl⟩, ?_⟩
  simp [CLuceneIndex.commit, keptDocuments, updatedDocuments, begun, h.cached]

theorem rebuildResource_some (h : Idle index) (hRows : written res rows ≠ [])
    (hFields : ∀ row ∈ written res rows, isPropertyField (fieldOf (statementOf res row)) = true)
    (hNone : documentsOf index res = []) :
    Idle (rebuildResource res rows index) ∧ (rebuildResource res rows index).documents =
      index.documents ++ [documentOf res (written res rows)] := by
  have hNew := getDocument_new (show (begun index).documentCache = [] from h.cached) hNone
  have hFold := foldl_addStatement (show (begun index).transactionID ≠ 0 from nofun) res rows
  rw [if_neg hRows, hNew] at hFold
  have hId := hasId_documentOf hFields
  have hEmpty := docEmpty_documentOf hFields hRows
  have hResult : rebuildResource res rows index =
      { ((begun index).setDocument res (documentOf res (written res rows))).commit with transactionID := 0 } := by
    simp only [rebuildResource, startTransaction_idle h, hFold, CLuceneIndex.closeTransaction]
    rfl
  have hUpdated : ((begun index).setDocument res (documentOf res (written res rows))).updatedDocuments =
      [documentOf res (written res rows)] := by
    simp [updatedDocuments, setDocument, begun, h.cached, hEmpty]
  have hKept : ((begun index).setDocument res (documentOf res (written res rows))).keptDocuments =
      index.documents := by
    rw [keptDocuments]
    split
    · refine List.filter_eq_self.mpr fun doc hDoc => ?_
      have hOther := List.filter_eq_nil_iff.mp hNone doc hDoc
      simpa [setDocument, begun, h.cached, hId.get] using hOther
    · rfl
  rw [hResult]
  refine ⟨⟨fun hAbsent => ?_, rfl, rfl⟩, ?_⟩
  · simp [CLuceneIndex.commit, hUpdated] at hAbsent
  · simp only [CLuceneIndex.commit, hUpdated, hKept]

/-- A document is found by the id of its resource alone. -/
theorem contains_documentOf {res' : Node} (hOwn : ownId res = true) (hOwn' : ownId res' = true)
    (hFields : ∀ row ∈ rows, isPropertyField (fieldOf (statementOf res row)) = true) :
    ((documentOf res rows).getValues idFieldName).contains (getId res') = true ↔ res' = res := by
  rw [contains_getValues (hasId_documentOf hFields)]
  exact ⟨getId_injective hOwn' hOwn, fun hEq => congrArg getId hEq⟩

/-- The loop adds a document for each resource whose rows have a text. -/
theorem foldl_rebuildResource (rowsOf : Node → List (Node × Node)) {resources : List Node}
    (hDistinct : resources.Nodup)
    (hKnown : ∀ r ∈ resources, written r (rowsOf r) ≠ [] → ownId r = true ∧
      ∀ row ∈ written r (rowsOf r), isPropertyField (fieldOf (statementOf r row)) = true)
    (h : Idle index) (hNone : ∀ r ∈ resources, written r (rowsOf r) ≠ [] → documentsOf index r = []) :
    Idle (resources.foldl (fun index res => rebuildResource res (rowsOf res) index) index) ∧
      (resources.foldl (fun index res => rebuildResource res (rowsOf res) index) index).documents =
        index.documents ++ (resources.filter fun r => written r (rowsOf r) ≠ []).map fun r =>
          documentOf r (written r (rowsOf r)) := by
  induction resources generalizing index with
  | nil => exact ⟨h, by simp⟩
  | cons res resources ih =>
    obtain ⟨hNew, hDistinct⟩ := List.nodup_cons.mp hDistinct
    have hRest := fun r hr => hKnown r (List.mem_cons_of_mem res hr)
    have hNoneRest := fun r hr => hNone r (List.mem_cons_of_mem res hr)
    rw [List.foldl_cons, List.filter_cons]
    by_cases hRows : written res (rowsOf res) = []
    · obtain ⟨hIdle, hDocuments⟩ := rebuildResource_none h hRows
      have hSame : ∀ r, documentsOf (rebuildResource res (rowsOf res) index) r = documentsOf index r := fun r => by
        rw [documentsOf, hDocuments]
        rfl
      obtain ⟨hEnd, hAll⟩ := ih hDistinct hRest hIdle fun r hr hText => (hSame r).trans (hNoneRest r hr hText)
      refine ⟨hEnd, ?_⟩
      rw [hAll, hDocuments, if_neg (by simp [hRows])]
    · obtain ⟨hOwn, hFields⟩ := hKnown res List.mem_cons_self hRows
      obtain ⟨hIdle, hDocuments⟩ := rebuildResource_some h hRows hFields (hNone res List.mem_cons_self hRows)
      obtain ⟨hEnd, hAll⟩ := ih hDistinct hRest hIdle fun r hr hText => by
        have hOther : r ≠ res := by
          rintro rfl
          exact hNew hr
        have hNot : ¬ ((documentOf res (written res (rowsOf res))).getValues idFieldName).contains (getId r) = true :=
          fun hContains => hOther ((contains_documentOf hOwn (hRest r hr hText).1 hFields).mp hContains)
        have hBefore := hNoneRest r hr hText
        rw [documentsOf] at hBefore ⊢
        rw [hDocuments, List.filter_append, hBefore, List.nil_append]
        exact List.filter_cons_of_neg hNot
      refine ⟨hEnd, ?_⟩
      rw [hAll, hDocuments, if_pos (by simp [hRows]), List.map_cons, List.append_assoc]
      rfl

/-! ### The transaction at the start -/

/-- The index that the loop starts with. -/
def cleared (m : IndexFilterModel) : CLuceneIndex := m.closeTransaction.index.clear

theorem clear_transactionID (index : CLuceneIndex) : index.clear.transactionID = index.transactionID := by
  rw [CLuceneIndex.clear]
  split <;> rfl

theorem documents_clear (h : index.Tidy) : index.clear.documents = [] := by
  rw [CLuceneIndex.clear]
  split
  · rfl
  · rename_i hAbsent
    exact h.absent (by simpa using hAbsent)

/-- Where no transaction is left open, nothing is left of the index either. -/
theorem idle_cleared (h : m.index.Tidy) (hIdle : m.index.transactionID = 0 ∨
    m.transactionCacheId = m.index.transactionID ∧ m.transactionCacheSize ≤ m.transactionCacheCount) :
    Idle m.cleared ∧ m.cleared.documents = [] := by
  have hClosed : m.closeTransaction.index.Tidy ∧ m.closeTransaction.index.transactionID = 0 := by
    rw [IndexFilterModel.closeTransaction]
    split
    · rename_i hFull
      rw [Bool.and_eq_true, decide_eq_true_eq, decide_eq_true_eq] at hFull
      show (m.index.closeTransaction m.transactionCacheId).2.Tidy ∧ _ = 0
      refine ⟨h.operate (.closeTransaction m.transactionCacheId), ?_⟩
      rw [CLuceneIndex.closeTransaction]
      split
      · rfl
      · rename_i hOther
        rcases hIdle with hZero | ⟨hSame, -⟩
        · exact hZero
        · exact absurd (by simpa [hSame, Nat.pos_iff_ne_zero] using hSame ▸ hFull.2) hOther
    · rename_i hOpen
      refine ⟨h, ?_⟩
      rcases hIdle with hZero | ⟨hSame, hFull⟩
      · exact hZero
      · by_contra hNe
        exact hOpen (by simp [hFull, hSame, hNe])
  have hDocuments := documents_clear hClosed.1
  have hTidy := hClosed.1.operate .clear
  have hZero : m.cleared.transactionID = 0 := (clear_transactionID _).trans hClosed.2
  exact ⟨⟨fun _ => hDocuments, hTidy.cached hZero, hZero⟩, hDocuments⟩

theorem cleared_open (hOpen : ¬ (m.index.transactionID = 0 ∨
    m.transactionCacheId = m.index.transactionID ∧ m.transactionCacheSize ≤ m.transactionCacheCount)) :
    m.cleared.transactionID ≠ 0 := by
  rw [not_or, not_and_or] at hOpen
  obtain ⟨hNe, hNot⟩ := hOpen
  rw [cleared, clear_transactionID, IndexFilterModel.closeTransaction]
  split
  · rename_i hFull
    rw [Bool.and_eq_true, decide_eq_true_eq] at hFull
    have hOther : m.transactionCacheId ≠ m.index.transactionID := hNot.resolve_right (not_not.mpr hFull.1)
    show (m.index.closeTransaction m.transactionCacheId).2.transactionID ≠ 0
    rw [CLuceneIndex.closeTransaction, if_neg (by simp [hOther])]
    exact hNe
  · exact hNe

/-- An open transaction stays open. -/
theorem rebuildResource_open (res : Node) (rows : List (Node × Node)) (hOpen : index.transactionID ≠ 0) :
    (rebuildResource res rows index).transactionID = index.transactionID := by
  have hStart : index.startTransaction = (0, index) := by
    rw [CLuceneIndex.startTransaction, if_neg hOpen]
  have hFold : (rows.foldl (fun index row => (index.addStatement (statementOf res row)).2) index).transactionID =
      index.transactionID := by
    rw [foldl_addStatement hOpen]
    split <;> rfl
  simp only [rebuildResource, hStart, CLuceneIndex.closeTransaction]
  rw [if_neg (by simp)]
  exact hFold

/-! ### The rows of the queries -/

variable {executeQuery : QString → Inference.Store → List BindingSet}

/-- The rows of the query for the statements of a resource. -/
def rowsOf (executeQuery : QString → Inference.Store → List BindingSet) (m : IndexFilterModel) (res : Node) :
    List (Node × Node) :=
  pairs (executeQuery (statementsQuery res m.forceIndexPredicates) m.parentModel)

/-- The resources of the store. -/
def resourcesOf (executeQuery : QString → Inference.Store → List BindingSet) (m : IndexFilterModel) : List Node :=
  (executeQuery resourcesQuery m.parentModel).map (·.value ['r'])

/-- The filter of the query lets the indexable statements through. -/
theorem Regular.passes_iff (h : m.Regular) {s : Statement} (hs : s ∈ m.parentModel) :
    Passes m.forceIndexPredicates s ↔ m.indexStatement s = true := by
  obtain ⟨u, hu, hPredicate⟩ := predicate_of_isValid (h.valid s hs)
  have hForced : (∃ p ∈ m.forceIndexPredicates, s.predicate = .ofUri p) ↔
      s.predicate.uri ∈ m.forceIndexPredicates := by
    rw [hPredicate]
    constructor
    · rintro ⟨p, hp, hEq⟩
      rw [Node.ofUri_self p (h.forced p hp)] at hEq
      obtain rfl := Node.resource.inj hEq
      exact hp
    · exact fun hp => ⟨u, hp, (Node.ofUri_self u hu).symm⟩
  rw [Passes, hForced, indexStatement, Bool.or_eq_true, Bool.and_eq_true, Bool.not_eq_true', List.contains_iff_mem,
    ← Bool.not_eq_true, List.isEmpty_iff]

/-- The rows are the pairs of the indexable statements of the resource, but of all statements for a blank node. -/
theorem Regular.mem_rowsOf (h : m.Regular) (hAnswers : Answers executeQuery) {s : Statement}
    (hs : s ∈ m.parentModel) (row : Node × Node) : row ∈ rowsOf executeQuery m s.subject ↔
      ∃ t ∈ m.parentModel, (s.subject.isBlank = false → t.subject = s.subject) ∧ m.indexStatement t = true ∧
        (t.predicate, t.object) = row := by
  rw [rowsOf, hAnswers.pairs _ _ _ _ (parse_statementsQuery (h.labels s hs) h.forced)]
  refine exists_congr fun t => and_congr_right fun ht => ?_
  rw [h.passes_iff ht]
  refine and_congr_left fun _ => ?_
  rw [subjectOf]
  cases hBlank : s.subject.isBlank <;> simp

theorem Regular.nodup_rowsOf (h : m.Regular) (hAnswers : Answers executeQuery) {s : Statement}
    (hs : s ∈ m.parentModel) : (rowsOf executeQuery m s.subject).Nodup :=
  hAnswers.distinctPairs _ _ _ _ (parse_statementsQuery (h.labels s hs) h.forced)

theorem mem_written {row : Node × Node} : row ∈ written res rows ↔ row ∈ rows ∧ textOf (statementOf res row) ≠ [] := by
  simp [written]

/-- The text and the field of a row are those of its statement. -/
theorem textOf_statementOf (res : Node) {s : Statement} {row : Node × Node} (h : (s.predicate, s.object) = row) :
    textOf (statementOf res row) = textOf s ∧ fieldOf (statementOf res row) = fieldOf s := by
  subst h
  exact ⟨rfl, rfl⟩

/-- A resource with a row has an id of its own, and its rows have fields of their own. -/
theorem Regular.known (h : m.Regular) (hAnswers : Answers executeQuery) {s : Statement} (hs : s ∈ m.parentModel)
    (hRows : written s.subject (rowsOf executeQuery m s.subject) ≠ []) : ownId s.subject = true ∧
      ∀ row ∈ written s.subject (rowsOf executeQuery m s.subject),
        isPropertyField (fieldOf (statementOf s.subject row)) = true := by
  constructor
  · obtain ⟨row, hRow⟩ := List.exists_mem_of_ne_nil _ hRows
    obtain ⟨t, ht, hSubject, hIndexed, -⟩ := (h.mem_rowsOf hAnswers hs row).mp (mem_written.mp hRow).1
    cases hBlank : s.subject.isBlank with
    | true => rw [ownId, hBlank, Bool.true_or]
    | false => exact hSubject hBlank ▸ (h.apart t ht hIndexed).subject
  · intro row hRow
    obtain ⟨t, ht, -, hIndexed, hPair⟩ := (h.mem_rowsOf hAnswers hs row).mp (mem_written.mp hRow).1
    rw [(textOf_statementOf s.subject hPair).2]
    exact (h.apart t ht hIndexed).predicate

/-! ### The index after the loop -/

theorem index_rebuildIndex (executeQuery : QString → Inference.Store → List BindingSet) (m : IndexFilterModel) :
    (m.rebuildIndex executeQuery).index = (resourcesOf executeQuery m).foldl
      (fun index res => rebuildResource res (rowsOf executeQuery m res) index) m.cleared := by
  have hSame := same_closeTransaction m
  simp only [rebuildIndex, hSame.parentModel, hSame.forceIndexPredicates]
  rfl

theorem mem_resourcesOf (hAnswers : Answers executeQuery) : res ∈ resourcesOf executeQuery m ↔
    ∃ s ∈ m.parentModel, s.subject = res := hAnswers.resources m.parentModel res

/-- The documents that the rebuilt index has. -/
theorem Regular.rebuilt (h : m.Regular) (hAnswers : Answers executeQuery) (hIdle : m.index.transactionID = 0 ∨
    m.transactionCacheId = m.index.transactionID ∧ m.transactionCacheSize ≤ m.transactionCacheCount) :
    Idle (m.rebuildIndex executeQuery).index ∧ (m.rebuildIndex executeQuery).index.documents =
      ((resourcesOf executeQuery m).filter fun r => written r (rowsOf executeQuery m r) ≠ []).map fun r =>
        documentOf r (written r (rowsOf executeQuery m r)) := by
  obtain ⟨hCleared, hDocuments⟩ := idle_cleared h.reached.tidy hIdle
  obtain ⟨hEnd, hAll⟩ := foldl_rebuildResource (rowsOf executeQuery m)
    (hAnswers.distinctResources m.parentModel) (fun r hr hRows => by
      obtain ⟨s, hs, rfl⟩ := (mem_resourcesOf hAnswers).mp hr
      exact h.known hAnswers hs hRows) hCleared fun r _ _ => by rw [documentsOf, hDocuments, List.filter_nil]
  rw [index_rebuildIndex]
  refine ⟨hEnd, hAll.trans ?_⟩
  rw [hDocuments, List.nil_append]
  rfl

/-- The rows of each resource are the pairs of its indexable statements. -/
def Faithful (executeQuery : QString → Inference.Store → List BindingSet) (m : IndexFilterModel) : Prop :=
  ∀ s ∈ m.parentModel, m.Pairs s.subject (written s.subject (rowsOf executeQuery m s.subject))

theorem Regular.faithful_iff (h : m.Regular) (hAnswers : Answers executeQuery) :
    m.Faithful executeQuery ↔
      (∀ s ∈ m.parentModel, m.indexStatement s = true → textOf s ≠ []) ∧
      ∀ s ∈ m.parentModel, s.subject.isBlank = true → ∀ t ∈ m.parentModel, m.indexStatement t = true →
        ∃ t' ∈ m.parentModel, m.indexStatement t' = true ∧ t'.subject = s.subject ∧ t'.predicate = t.predicate ∧
          t'.object = t.object := by
  constructor
  · intro hFaithful
    have hTexts : ∀ s ∈ m.parentModel, m.indexStatement s = true → textOf s ≠ [] := fun s hs hIndexed =>
      (mem_written.mp (((hFaithful s hs).2 (s.predicate, s.object)).mpr ⟨s, hs, hIndexed, rfl, rfl⟩)).2
    refine ⟨hTexts, fun s hs hBlank t ht hIndexed => ?_⟩
    have hRow : (t.predicate, t.object) ∈ rowsOf executeQuery m s.subject :=
      (h.mem_rowsOf hAnswers hs _).mpr ⟨t, ht, fun hNot => absurd (hBlank.symm.trans hNot) nofun, hIndexed, rfl⟩
    obtain ⟨t', ht', hIndexed', hSubject, hPair⟩ := ((hFaithful s hs).2 _).mp
      (mem_written.mpr ⟨hRow, hTexts t ht hIndexed⟩)
    obtain ⟨hPredicate, hObject⟩ := Prod.mk.inj hPair
    exact ⟨t', ht', hIndexed', hSubject, hPredicate, hObject⟩
  · rintro ⟨hTexts, hBlanks⟩ s hs
    refine ⟨(h.nodup_rowsOf hAnswers hs).filter _, fun row => ?_⟩
    rw [mem_written, h.mem_rowsOf hAnswers hs]
    constructor
    · rintro ⟨⟨t, ht, hSubject, hIndexed, hPair⟩, -⟩
      cases hBlank : s.subject.isBlank with
      | false => exact ⟨t, ht, hIndexed, hSubject hBlank, hPair⟩
      | true =>
        obtain ⟨t', ht', hIndexed', hSame, hPredicate, hObject⟩ := hBlanks s hs hBlank t ht hIndexed
        exact ⟨t', ht', hIndexed', hSame, by rw [hPredicate, hObject, hPair]⟩
    · rintro ⟨t, ht, hIndexed, hSubject, hPair⟩
      refine ⟨⟨t, ht, fun _ => hSubject, hIndexed, hPair⟩, ?_⟩
      rw [(textOf_statementOf s.subject hPair).1]
      exact hTexts t ht hIndexed

/-- The documents of a resource are the one that the loop has added for it. -/
theorem Regular.documentsOf_rebuilt (h : m.Regular) (hAnswers : Answers executeQuery)
    (hDocuments : index.documents = ((resourcesOf executeQuery m).filter fun r =>
      written r (rowsOf executeQuery m r) ≠ []).map fun r => documentOf r (written r (rowsOf executeQuery m r)))
    {s : Statement} (hs : s ∈ m.parentModel) (hOwn : ownId s.subject = true) :
    documentsOf index s.subject = if written s.subject (rowsOf executeQuery m s.subject) = [] then []
      else [documentOf s.subject (written s.subject (rowsOf executeQuery m s.subject))] := by
  have hFilter : ∀ r ∈ (resourcesOf executeQuery m).filter fun r => written r (rowsOf executeQuery m r) ≠ [],
      ((documentOf r (written r (rowsOf executeQuery m r))).getValues idFieldName).contains (getId s.subject) =
        decide (r = s.subject) := by
    intro r hr
    obtain ⟨hr, hRows⟩ := List.mem_filter.mp hr
    obtain ⟨t, ht, rfl⟩ := (mem_resourcesOf hAnswers).mp hr
    obtain ⟨hOwn', hFields⟩ := h.known hAnswers ht (by simpa using hRows)
    rw [Bool.eq_iff_iff, contains_documentOf hOwn' hOwn hFields, decide_eq_true_eq, eq_comm]
  have hDistinct : (resourcesOf executeQuery m).Nodup := hAnswers.distinctResources m.parentModel
  rw [documentsOf, hDocuments, List.filter_map]
  change ((List.filter (fun r => ((documentOf r (written r (rowsOf executeQuery m r))).getValues
    idFieldName).contains (getId s.subject)) _).map _) = _
  rw [List.filter_congr hFilter, List.filter_filter]
  have hOne : (resourcesOf executeQuery m).filter (· = s.subject) = [s.subject] := by
    rw [List.filter_eq, List.count_eq_one_of_mem hDistinct ((mem_resourcesOf hAnswers).mpr ⟨s, hs, rfl⟩)]
    rfl
  split
  · rename_i hRows
    rw [List.map_eq_nil_iff, List.filter_eq_nil_iff]
    intro r _ hBoth
    simp only [Bool.and_eq_true, decide_eq_true_eq] at hBoth
    exact hBoth.2 (hBoth.1 ▸ hRows)
  · rename_i hRows
    have hSame : (resourcesOf executeQuery m).filter (fun r => decide (r = s.subject) &&
        decide (written r (rowsOf executeQuery m r) ≠ [])) = [s.subject] := by
      rw [← hOne]
      refine List.filter_congr fun r _ => ?_
      by_cases hEq : r = s.subject
      · subst hEq
        simp [hRows]
      · simp [hEq]
    rw [hSame]
    rfl

/-- The rebuilt index is complete where the rows are those of the store. -/
theorem Regular.complete_iff (h : m.Regular) (hAnswers : Answers executeQuery) (hIndex : Idle index)
    (hDocuments : index.documents = ((resourcesOf executeQuery m).filter fun r =>
      written r (rowsOf executeQuery m r) ≠ []).map fun r => documentOf r (written r (rowsOf executeQuery m r))) :
    m.Complete index ↔ m.Faithful executeQuery := by
  constructor
  · intro hComplete s hs
    by_cases hRows : written s.subject (rowsOf executeQuery m s.subject) = []
    · refine ⟨(h.nodup_rowsOf hAnswers hs).filter _, fun row => ?_⟩
      rw [hRows]
      refine iff_of_false List.not_mem_nil ?_
      rintro ⟨t, ht, hIndexed, hSubject, -⟩
      obtain ⟨rows, -, hEach⟩ := hComplete.each t ht hIndexed
      rw [h.documentsOf_rebuilt hAnswers hDocuments ht (h.apart t ht hIndexed).subject, hSubject, if_pos hRows] at hEach
      cases hEach
    · obtain ⟨hOwn, hFields⟩ := h.known hAnswers hs hRows
      have hMem : documentOf s.subject (written s.subject (rowsOf executeQuery m s.subject)) ∈ index.documents := by
        rw [hDocuments]
        exact List.mem_map_of_mem (List.mem_filter.mpr
          ⟨(mem_resourcesOf hAnswers).mpr ⟨s, hs, rfl⟩, by simpa using hRows⟩)
      obtain ⟨t, ht, hIndexed, hId⟩ := hComplete.only _ hMem
      have hSubject : t.subject = s.subject := getId_injective (h.apart t ht hIndexed).subject hOwn
        (List.singleton_inj.mp (hId.values.symm.trans (hasId_documentOf hFields).values))
      obtain ⟨rows, hPairs, hEach⟩ := hComplete.each t ht hIndexed
      rw [hSubject] at hPairs hEach
      rw [h.documentsOf_rebuilt hAnswers hDocuments hs hOwn, if_neg hRows] at hEach
      have hRowFields : ∀ row ∈ rows, isPropertyField (fieldOf (statementOf s.subject row)) = true := fun row hRow => by
        obtain ⟨t', ht', hIndexed', -, hPair⟩ := (hPairs.2 row).mp hRow
        rw [(textOf_statementOf s.subject hPair).2]
        exact (h.apart t' ht' hIndexed').predicate
      have hFieldsEq := congrArg (fun doc : Document => (doc.fields.filter (isPropertyField ·.name)).map
        (fun f => (f.name, f.stringValue))) (List.singleton_inj.mp hEach)
      simp only [propertyFields_documentOf hFields, propertyFields_documentOf hRowFields] at hFieldsEq
      have hSubset : rows ⊆ written s.subject (rowsOf executeQuery m s.subject) := by
        intro row hRow
        obtain ⟨t', ht', hIndexed', hSubject', hPair⟩ := (hPairs.2 row).mp hRow
        refine mem_written.mpr ⟨(h.mem_rowsOf hAnswers hs row).mpr
          ⟨t', ht', fun _ => hSubject', hIndexed', hPair⟩, fun hText => ?_⟩
        have hField := List.mem_map_of_mem
          (f := fun row => (fieldOf (statementOf s.subject row), textOf (statementOf s.subject row))) hRow
        rw [← hFieldsEq] at hField
        obtain ⟨row', hRow', hEq⟩ := List.mem_map.mp hField
        exact (mem_written.mp hRow').2 ((Prod.mk.inj hEq).2.trans hText)
      have hLength := congrArg List.length hFieldsEq
      rw [List.length_map, List.length_map] at hLength
      have hPerm := (List.subperm_of_subset hPairs.1 hSubset).perm_of_length_le hLength.le
      exact ⟨(h.nodup_rowsOf hAnswers hs).filter _, fun row => hPerm.symm.mem_iff.trans (hPairs.2 row)⟩
  · intro hFaithful
    refine ⟨fun doc hDoc => ?_, fun s hs hIndexed => ?_, hIndex.cached, hIndex.closed⟩
    · rw [hDocuments] at hDoc
      obtain ⟨r, hr, rfl⟩ := List.mem_map.mp hDoc
      obtain ⟨hr, hRows⟩ := List.mem_filter.mp hr
      obtain ⟨s, hs, rfl⟩ := (mem_resourcesOf hAnswers).mp hr
      have hRows : written s.subject (rowsOf executeQuery m s.subject) ≠ [] := by simpa using hRows
      obtain ⟨row, hRow⟩ := List.exists_mem_of_ne_nil _ hRows
      obtain ⟨t, ht, hIndexed, hSubject, -⟩ := ((hFaithful s hs).2 row).mp hRow
      refine ⟨t, ht, hIndexed, ?_⟩
      rw [hSubject]
      exact hasId_documentOf (h.known hAnswers hs hRows).2
    · have hRow := ((hFaithful s hs).2 (s.predicate, s.object)).mpr ⟨s, hs, hIndexed, rfl, rfl⟩
      refine ⟨_, hFaithful s hs, ?_⟩
      rw [h.documentsOf_rebuilt hAnswers hDocuments hs (h.apart s hs hIndexed).subject,
        if_neg (List.ne_nil_of_mem hRow)]

/-- An open transaction that is not full is open afterwards. -/
theorem open_rebuildIndex (hOpen : ¬ (m.index.transactionID = 0 ∨
    m.transactionCacheId = m.index.transactionID ∧ m.transactionCacheSize ≤ m.transactionCacheCount)) :
    (m.rebuildIndex executeQuery).index.transactionID ≠ 0 := by
  have hStays : ∀ (resources : List Node) (index : CLuceneIndex), index.transactionID ≠ 0 →
      (resources.foldl (fun index res => rebuildResource res (rowsOf executeQuery m res) index)
        index).transactionID ≠ 0 := by
    intro resources
    induction resources with
    | nil => exact fun _ hNe => hNe
    | cons res resources ih => exact fun index hNe => ih _ (by rwa [rebuildResource_open res _ hNe])
  rw [index_rebuildIndex]
  exact hStays _ _ (cleared_open hOpen)

/-- Rebuilding the index of a regular model is complete if and only if the model is rebuildable. -/
theorem complete_rebuildIndex_iff (hAnswers : Answers executeQuery) (h : m.Regular) :
    m.Complete (m.rebuildIndex executeQuery).index ↔ m.Rebuildable := by
  by_cases hIdle : m.index.transactionID = 0 ∨
      m.transactionCacheId = m.index.transactionID ∧ m.transactionCacheSize ≤ m.transactionCacheCount
  · obtain ⟨hEnd, hDocuments⟩ := h.rebuilt hAnswers hIdle
    rw [h.complete_iff hAnswers hEnd hDocuments, h.faithful_iff hAnswers]
    exact ⟨fun hBoth => ⟨hIdle, hBoth.1, hBoth.2⟩, fun hMeets => ⟨hMeets.texts, hMeets.blank⟩⟩
  · exact iff_of_false (fun hComplete => open_rebuildIndex hIdle hComplete.closed) fun hMeets => hIdle hMeets.idle

end IndexFilterModel

end Qt

section Example

namespace IndexFilterModel

local instance rebuildQt : Qt := asciiQt

/-- A new index over a store. -/
def unindexed : IndexFilterModel := { create [] 1 with parentModel := [firstGraph] }

theorem complete_rebuildIndex_iff_example : unindexed.Complete (unindexed.rebuildIndex executeQuery).index := by
  have hOne : ∀ s ∈ unindexed.parentModel, s = firstGraph := fun s hs => List.mem_singleton.mp hs
  refine (complete_rebuildIndex_iff answers_executeQuery ?_).mpr ?_
  · refine ⟨⟨.opened, [], .inl rfl, rfl⟩, fun s hs => ?_, fun s hs _ => ?_, fun s hs => ?_, nofun⟩
    · rw [hOne s hs]
      decide
    · rw [hOne s hs]
      exact ⟨by decide, by decide⟩
    · rw [hOne s hs]
      trivial
  · refine ⟨.inl rfl, fun s hs _ => ?_, fun s hs hBlank => ?_⟩
    · rw [hOne s hs]
      decide
    · rw [hOne s hs] at hBlank
      cases hBlank

/-- A model with a cached document in an open transaction. -/
def caching : IndexFilterModel := ((create [] 2).addStatement firstGraph).2

theorem not_complete_rebuildIndex : ¬ ∀ m : IndexFilterModel, m.Regular →
    m.Complete (m.rebuildIndex executeQuery).index := by
  intro h
  have hStore : caching.parentModel = [firstGraph] := by decide
  have hOne : ∀ s ∈ caching.parentModel, s = firstGraph := fun s hs => by
    rw [hStore] at hs
    exact List.mem_singleton.mp hs
  have hRegular : caching.Regular := by
    refine ⟨⟨.opened, [.startTransaction, .addStatement firstGraph], .inl rfl, rfl⟩, fun s hs => ?_,
      fun s hs _ => ?_, fun s hs => ?_, nofun⟩
    · rw [hOne s hs]
      decide
    · rw [hOne s hs]
      exact ⟨by decide, by decide⟩
    · rw [hOne s hs]
      trivial
  exact open_rebuildIndex (by decide) (h caching hRegular).closed

end IndexFilterModel

end Example

end Index

end Soprano
