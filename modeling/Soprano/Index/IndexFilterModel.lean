import Soprano.Index.CLuceneIndex
import Soprano.Inference.ParentModel
import Soprano.Library.Runs
import Soprano.Library.View
import Soprano.Vocabulary

/-! `IndexFilterModel`: a model that keeps the literals of its parent in a full text index. -/

namespace Soprano

namespace Index

open CLuceneIndex

/-- The quads of the parent model. -/
abbrev Store [Qt] : Type := Inference.Store

section Qt

variable [Qt]

/-! ### The calls of the parent model -/

namespace FilterModel

def containsStatement (parent : Store) (statement : Statement) : Bool := parent.contains statement

def addStatement (parent : Store) (statement : Statement) : ErrorCode × Store :=
  if statement.isValid then (.errorNone, Inference.Store.addStatement parent statement)
  else (.errorInvalidArgument, parent)

def removeStatement (parent : Store) (statement : Statement) : ErrorCode × Store :=
  if statement.isValid then (.errorNone, Inference.Store.removeStatement parent statement)
  else (.errorInvalidArgument, parent)

def removeAllStatements (parent : Store) (statement : Statement) : ErrorCode × Store :=
  (.errorNone, Inference.Store.removeAllStatements parent statement)

end FilterModel

structure IndexFilterModel where
  parentModel : Store
  index : CLuceneIndex
  indexOnlyPredicates : List QUrl
  forceIndexPredicates : List QUrl
  transactionCacheSize : Nat
  transactionCacheId : Nat
  transactionCacheCount : Nat

namespace IndexFilterModel

/-- A model over an empty store and index. -/
def create (forceIndexPredicates : List QUrl) (transactionCacheSize : Nat) : IndexFilterModel :=
  ⟨[], .opened, [], forceIndexPredicates, transactionCacheSize, 0, 0⟩

def startTransaction (m : IndexFilterModel) : IndexFilterModel :=
  let m := if 1 < m.transactionCacheSize && m.transactionCacheId = 0 then
    let (id, index) := m.index.startTransaction
    { m with index := index, transactionCacheId := id, transactionCacheCount := 0 } else m
  { m with transactionCacheCount := m.transactionCacheCount + 1 }

def closeTransaction (m : IndexFilterModel) : IndexFilterModel :=
  if m.transactionCacheSize ≤ m.transactionCacheCount && m.transactionCacheId ≠ 0 then
    { m with
      index := (m.index.closeTransaction m.transactionCacheId).2
      transactionCacheCount := 0
      transactionCacheId := 0 }
  else m

def storeStatement (m : IndexFilterModel) (statement : Statement) : Bool :=
  !m.indexOnlyPredicates.contains statement.predicate.uri

def indexStatement (m : IndexFilterModel) (statement : Statement) : Bool :=
  (statement.object.isLiteral && !statement.object.toString.isEmpty) ||
    m.forceIndexPredicates.contains statement.predicate.uri

/-- A call of the index between the start and the end of a transaction. -/
def withTransaction (m : IndexFilterModel) (call : CLuceneIndex → ErrorCode × CLuceneIndex) :
    ErrorCode × IndexFilterModel :=
  let m := m.startTransaction
  let result := call m.index
  (result.1, { m with index := result.2 }.closeTransaction)

def addStatement (m : IndexFilterModel) (statement : Statement) : ErrorCode × IndexFilterModel :=
  let store := m.storeStatement statement
  if !store || !FilterModel.containsStatement m.parentModel statement then
    let (c, parent) := if store then FilterModel.addStatement m.parentModel statement
      else (.errorNone, m.parentModel)
    let m := { m with parentModel := parent }
    if c = .errorNone && m.indexStatement statement then m.withTransaction (·.addStatement statement)
    else (c, m)
  else (.errorNone, m)

def removeStatement (m : IndexFilterModel) (statement : Statement) : ErrorCode × IndexFilterModel :=
  let (c, parent) := FilterModel.removeStatement m.parentModel statement
  let m := { m with parentModel := parent }
  if c = .errorNone && m.indexStatement statement then m.withTransaction (·.removeStatement statement)
  else (c, m)

/-- The loop of `removeAllStatements` over the listed statements. -/
def removeListed : List Statement → IndexFilterModel → ErrorCode × IndexFilterModel
  | [], m => (.errorNone, m)
  | s :: rest, m =>
    if m.indexStatement s then
      let (c, m) := m.withTransaction (·.removeStatement s)
      if c ≠ .errorNone then (c, m) else removeListed rest m
    else removeListed rest m

def removeAllStatements (m : IndexFilterModel) (statement : Statement) : ErrorCode × IndexFilterModel :=
  let (c, m) := removeListed (Inference.Store.listStatements m.parentModel statement) m
  if c ≠ .errorNone then (c, m)
  else
    let (c, parent) := FilterModel.removeAllStatements m.parentModel statement
    (c, { m with parentModel := parent })

/-- The calls that change the model. -/
inductive Call where
  | addStatement (statement : Statement)
  | removeStatement (statement : Statement)
  | removeAllStatements (statement : Statement)

def perform (m : IndexFilterModel) : Call → ErrorCode × IndexFilterModel
  | .addStatement s => m.addStatement s
  | .removeStatement s => m.removeStatement s
  | .removeAllStatements s => m.removeAllStatements s

/-- A call that succeeds. -/
def call (m : IndexFilterModel) (c : Call) : Option IndexFilterModel :=
  if (m.perform c).1 = .errorNone then some (m.perform c).2 else none

/-- The document of each resource has the property that a predicate and a text make if and only if an
indexable statement of the store yields it. -/
def Consistent (m : IndexFilterModel) : Prop :=
  ∀ (resource : Node) (predicate : QUrl) (text : QString), ownId resource = true →
    isPropertyField (QString.fromLatin1 predicate.toEncoded) = true →
    ((∃ f ∈ (m.index.getDocument resource).fields,
        f.name = QString.fromLatin1 predicate.toEncoded ∧ f.stringValue = text) ↔
      ∃ s ∈ m.parentModel, m.indexStatement s = true ∧ s.subject = resource ∧
        s.predicate = .ofUri predicate ∧ textOf s = text)

/-- The call does not remove a property that a statement of the store still yields. -/
def Keeps (m : IndexFilterModel) : Call → Prop
  | .addStatement s => m.indexStatement s = true → Apart s
  | .removeStatement s => m.indexStatement s = true → Apart s ∧
      (∀ s' ∈ m.parentModel, s' ≠ s → m.indexStatement s' = true → property s' ≠ property s) ∧
      (m.index.indexPresent = true ∨ s ∉ m.parentModel)
  | .removeAllStatements p => ∀ s ∈ Inference.Store.listStatements m.parentModel p,
      m.indexStatement s = true → m.index.indexPresent = true ∧
      ∀ s' ∈ Inference.Store.removeAllStatements m.parentModel p, m.indexStatement s' = true →
        property s' ≠ property s

/-! ### Transactions -/

variable {m m' : IndexFilterModel} {s : Statement}

/-- What a transaction of the model leaves as it is. -/
structure Same (m m' : IndexFilterModel) : Prop where
  parentModel : m'.parentModel = m.parentModel
  indexOnlyPredicates : m'.indexOnlyPredicates = m.indexOnlyPredicates
  forceIndexPredicates : m'.forceIndexPredicates = m.forceIndexPredicates

theorem Same.trans {m'' : IndexFilterModel} (h : Same m m') (h' : Same m' m'') : Same m m'' :=
  ⟨h'.parentModel.trans h.parentModel, h'.indexOnlyPredicates.trans h.indexOnlyPredicates,
    h'.forceIndexPredicates.trans h.forceIndexPredicates⟩

theorem Same.indexStatement (h : Same m m') (s : Statement) : m'.indexStatement s = m.indexStatement s := by
  rw [IndexFilterModel.indexStatement, IndexFilterModel.indexStatement, h.forceIndexPredicates]

theorem same_startTransaction (m : IndexFilterModel) : Same m m.startTransaction := by
  rw [startTransaction]
  split <;> exact ⟨rfl, rfl, rfl⟩

theorem same_closeTransaction (m : IndexFilterModel) : Same m m.closeTransaction := by
  rw [closeTransaction]
  split <;> exact ⟨rfl, rfl, rfl⟩

/-- The start of a transaction changes no document. -/
theorem startTransaction_index (m : IndexFilterModel) (h : m.index.Sound) :
    m.startTransaction.index.Sound ∧ m.startTransaction.index.properties = m.index.properties ∧
      m.startTransaction.index.indexPresent = m.index.indexPresent := by
  have hIndex : m.index.startTransaction.2.Sound ∧
      m.index.startTransaction.2.properties = m.index.properties ∧
      m.index.startTransaction.2.indexPresent = m.index.indexPresent := by
    rw [CLuceneIndex.startTransaction]
    split
    · exact ⟨⟨h.cached, h.keys, h.documents, h.ids, h.absent⟩, rfl, rfl⟩
    · exact ⟨h, rfl, rfl⟩
  rw [startTransaction]
  split
  · exact hIndex
  · exact ⟨h, rfl, rfl⟩

/-- The end of a transaction writes documents, which leaves their properties as they are. -/
theorem closeTransaction_index (m : IndexFilterModel) (h : m.index.Sound) :
    m.closeTransaction.index.Sound ∧ m.closeTransaction.index.properties = m.index.properties ∧
      (m.index.indexPresent = true → m.closeTransaction.index.indexPresent = true) := by
  rw [closeTransaction]
  split
  · show (m.index.closeTransaction m.transactionCacheId).2.Sound ∧ _
    rw [CLuceneIndex.closeTransaction]
    split
    · have hCommit := h.commit
      exact ⟨⟨hCommit.cached, hCommit.keys, hCommit.documents, hCommit.ids, hCommit.absent⟩,
        properties_commit h, indexPresent_commit⟩
    · exact ⟨h, rfl, id⟩
  · exact ⟨h, rfl, id⟩

theorem same_withTransaction (m : IndexFilterModel) (call : CLuceneIndex → ErrorCode × CLuceneIndex) :
    Same m (m.withTransaction call).2 :=
  have hStart := same_startTransaction m
  have hCall : Same m.startTransaction
      { m.startTransaction with index := (call m.startTransaction.index).2 } := ⟨rfl, rfl, rfl⟩
  hStart.trans (hCall.trans (same_closeTransaction _))

/-- A successful addition to the index adds the property. -/
theorem withTransaction_addStatement (h : m.index.Sound) (hs : Apart s)
    (hCall : m.withTransaction (·.addStatement s) = (.errorNone, m')) :
    m'.index.Sound ∧ m'.index.properties = insert (property s) m.index.properties ∧ textOf s ≠ [] := by
  obtain ⟨hStart, hProperties, -⟩ := startTransaction_index m h
  rw [withTransaction] at hCall
  obtain ⟨hError, rfl⟩ := Prod.mk.inj hCall
  have hIndex : m.startTransaction.index.addStatement s =
      (.errorNone, (m.startTransaction.index.addStatement s).2) := Prod.ext hError rfl
  obtain ⟨hSound, hAdded, hText⟩ := addStatement_spec hStart hs hIndex
  obtain ⟨hEnd, hSame, -⟩ := closeTransaction_index
    { m.startTransaction with index := (m.startTransaction.index.addStatement s).2 } hSound
  exact ⟨hEnd, by rw [hSame, hAdded, hProperties], hText⟩

/-- Removing a statement from an index that is on disk removes its property. -/
theorem withTransaction_removeStatement (h : m.index.Sound) (hPresent : m.index.indexPresent = true)
    (hs : Apart s) (hText : textOf s ≠ []) :
    (m.withTransaction (·.removeStatement s)).1 = .errorNone ∧
      (m.withTransaction (·.removeStatement s)).2.index.Sound ∧
      (m.withTransaction (·.removeStatement s)).2.index.indexPresent = true ∧
      (m.withTransaction (·.removeStatement s)).2.index.properties =
        m.index.properties \ {property s} := by
  obtain ⟨hStart, hProperties, hSamePresent⟩ := startTransaction_index m h
  obtain ⟨hError, hSound, hRemovedPresent, hRemoved⟩ :=
    removeStatement_spec hStart (hSamePresent.trans hPresent) hs hText
  obtain ⟨hEnd, hSame, hEndPresent⟩ := closeTransaction_index
    { m.startTransaction with index := (m.startTransaction.index.removeStatement s).2 } hSound
  refine ⟨hError, hEnd, hEndPresent hRemovedPresent, ?_⟩
  rw [← hProperties, ← hRemoved]
  exact hSame

/-- Where the index is not on disk, or the statement has no text, nothing is removed. -/
theorem withTransaction_removeStatement_none (h : m.index.Sound)
    (hNone : m.index.indexPresent = false ∨ textOf s = []) :
    (m.withTransaction (·.removeStatement s)).2.index.Sound ∧
      (m.withTransaction (·.removeStatement s)).2.index.properties = m.index.properties := by
  obtain ⟨hStart, hProperties, hSamePresent⟩ := startTransaction_index m h
  have hSkip : (m.startTransaction.index.removeStatement s).2 = m.startTransaction.index := by
    rw [CLuceneIndex.removeStatement]
    rcases hNone with hAbsent | hText
    · rw [hSamePresent, hAbsent]
      rfl
    · simp [hText]
  obtain ⟨hEnd, hSame, -⟩ := closeTransaction_index
    { m.startTransaction with index := (m.startTransaction.index.removeStatement s).2 } (by rwa [hSkip])
  refine ⟨hEnd, hSame.trans ?_⟩
  show (m.startTransaction.index.removeStatement s).2.properties = _
  rw [hSkip, hProperties]

/-! ### The invariant -/

/-- The property that a statement yields, if it is indexed. -/
def yields (m : IndexFilterModel) (s : Statement) : Option (Node × QString × QString) :=
  if m.indexStatement s then some (property s) else none

/-- The properties of the index are those that the statements of the store yield. -/
structure Invariant (m : IndexFilterModel) : Prop where
  sound : m.index.Sound
  properties : m.index.properties = View.view m.yields {s | s ∈ m.parentModel}
  valid : ∀ s ∈ m.parentModel, s.isValid = true
  apart : ∀ s ∈ m.parentModel, m.indexStatement s = true → Apart s ∧ textOf s ≠ []
  stored : m.indexOnlyPredicates = []

theorem yields_eq (h : Same m m') : m'.yields = m.yields := by
  funext s
  rw [yields, yields, h.indexStatement s]

theorem yields_eq_some {p : Node × QString × QString} :
    m.yields s = some p ↔ m.indexStatement s = true ∧ property s = p := by
  rw [yields]
  split <;> simp_all

theorem predicate_of_isValid (h : s.isValid = true) :
    ∃ u, ∃ hu : u.isEmpty = false, s.predicate = .resource u hu := by
  have hPredicate : s.predicate.isResource = true := by
    rw [Statement.isValid] at h
    split at h <;> simp_all
  cases hNode : s.predicate with
  | resource u hu => exact ⟨u, hu, rfl⟩
  | _ =>
    rw [hNode] at hPredicate
    cases hPredicate

/-- A store and index that the invariant ties are consistent. -/
theorem Invariant.consistent (h : m.Invariant) : m.Consistent := by
  intro resource predicate text hOwn hField
  have hMem : (∃ f ∈ (m.index.getDocument resource).fields,
      f.name = QString.fromLatin1 predicate.toEncoded ∧ f.stringValue = text) ↔
      (resource, QString.fromLatin1 predicate.toEncoded, text) ∈ m.index.properties := by
    simp only [CLuceneIndex.properties, Document.properties, Set.mem_ofPred_eq, hOwn, hField, true_and,
      Prod.mk.injEq]
  rw [hMem, h.properties]
  refine exists_congr fun s => and_congr_right fun hs => ?_
  rw [yields_eq_some]
  refine and_congr_right fun _ => ?_
  have hPredicate : fieldOf s = QString.fromLatin1 predicate.toEncoded ↔ s.predicate = .ofUri predicate := by
    obtain ⟨u, hu, hUri⟩ := predicate_of_isValid (h.valid s hs)
    rw [fieldOf, hUri, QUrl.fromLatin1_toEncoded, QUrl.fromLatin1_toEncoded]
    constructor
    · intro hText
      obtain rfl : u = predicate := QUrl.ext hText
      exact (Node.ofUri_self u hu).symm
    · intro hNode
      by_cases hEmpty : predicate.isEmpty = false
      · rw [Node.ofUri_self predicate hEmpty] at hNode
        exact congrArg QUrl.encoded (Node.resource.inj hNode)
      · rw [Node.ofUri, dif_neg hEmpty] at hNode
        cases hNode
  rw [property, Prod.mk.injEq, Prod.mk.injEq, hPredicate]

/-! ### The calls -/

theorem mem_removeStatement {parent : Store} {t : Statement} :
    t ∈ Inference.Store.removeStatement parent s ↔ t ∈ parent ∧ t ≠ s := by
  rw [Inference.Store.removeStatement, List.mem_filter, decide_eq_true_eq]

theorem mem_removeAllStatements {parent : Store} {p t : Statement} :
    t ∈ Inference.Store.removeAllStatements parent p ↔
      t ∈ parent ∧ t ∉ Inference.Store.listStatements parent p := by
  rw [Inference.Store.removeAllStatements, Inference.Store.listStatements, List.mem_filter, List.mem_filter,
    Bool.not_eq_true', ← Bool.not_eq_true]
  tauto

/-- The invariant of a model whose store and index changed alike. -/
theorem Invariant.of_same (h : m.Invariant) (hSame : Same { m with parentModel := m'.parentModel } m')
    (hSound : m'.index.Sound) (hProperties : m'.index.properties = View.view m.yields {s | s ∈ m'.parentModel})
    (hNew : ∀ s ∈ m'.parentModel, s ∈ m.parentModel ∨
      s.isValid = true ∧ (m.indexStatement s = true → Apart s ∧ textOf s ≠ [])) : m'.Invariant := by
  have hYields : m'.yields = m.yields := yields_eq (m := { m with parentModel := m'.parentModel }) hSame
  have hIndex : ∀ s, m'.indexStatement s = m.indexStatement s := hSame.indexStatement
  refine ⟨hSound, by rw [hYields, hProperties], fun s hs => ?_, fun s hs hIndexed => ?_, ?_⟩
  · exact (hNew s hs).elim (h.valid s) fun hNew => hNew.1
  · rw [hIndex] at hIndexed
    exact (hNew s hs).elim (fun hOld => h.apart s hOld hIndexed) fun hNew => hNew.2 hIndexed
  · exact hSame.indexOnlyPredicates.trans h.stored

theorem Invariant.addStatement (h : m.Invariant) (hMeets : m.indexStatement s = true → Apart s)
    (hCall : m.addStatement s = (.errorNone, m')) : m'.Invariant := by
  have hStore : m.storeStatement s = true := by
    rw [storeStatement, h.stored]
    rfl
  simp only [IndexFilterModel.addStatement, hStore, Bool.not_true, Bool.false_or, if_true] at hCall
  split at hCall
  swap
  · obtain rfl := (Prod.mk.inj hCall).2
    exact h
  rw [FilterModel.addStatement] at hCall
  by_cases hValid : s.isValid = true
  swap
  · rw [if_neg hValid] at hCall
    cases (Prod.mk.inj hCall).1
  rw [if_pos hValid] at hCall
  have hSet : {t | t ∈ Inference.Store.addStatement m.parentModel s} = insert s {t | t ∈ m.parentModel} := by
    ext t
    simp [Inference.Store.mem_addStatement, hValid]
  have hNew : ∀ t ∈ Inference.Store.addStatement m.parentModel s, t = s ∨ t ∈ m.parentModel := fun t ht =>
    (Inference.Store.mem_addStatement.mp ht).imp_left And.left
  change (if _ && m.indexStatement s then _ else _ : ErrorCode × IndexFilterModel) = _ at hCall
  by_cases hIndexed : m.indexStatement s = true
  · rw [if_pos (by simp [hIndexed])] at hCall
    have hSame := same_withTransaction { m with parentModel := Inference.Store.addStatement m.parentModel s }
      (·.addStatement s)
    rw [hCall] at hSame
    obtain ⟨hSound, hProperties, hText⟩ := withTransaction_addStatement
      (m := { m with parentModel := Inference.Store.addStatement m.parentModel s }) h.sound (hMeets hIndexed) hCall
    refine h.of_same ?_ hSound ?_ fun t ht => ?_
    · rw [hSame.parentModel]
      exact ⟨hSame.parentModel, hSame.indexOnlyPredicates, hSame.forceIndexPredicates⟩
    · rw [hSame.parentModel, hSet, View.view_insert_some (yields_eq_some.mpr ⟨hIndexed, rfl⟩), ← h.properties]
      exact hProperties
    · rw [hSame.parentModel] at ht
      rcases hNew t ht with rfl | hOld
      · exact .inr ⟨hValid, fun _ => ⟨hMeets hIndexed, hText⟩⟩
      · exact .inl hOld
  · rw [if_neg (by simp [hIndexed])] at hCall
    obtain rfl := (Prod.mk.inj hCall).2
    refine h.of_same ⟨rfl, rfl, rfl⟩ h.sound ?_ fun t ht => ?_
    · have hNone : m.yields s = none := by rw [yields, if_neg hIndexed]
      rw [hSet, View.view_insert_none hNone]
      exact h.properties
    · rcases hNew t ht with rfl | hOld
      · exact .inr ⟨hValid, fun hIs => absurd hIs hIndexed⟩
      · exact .inl hOld

/-- A removal that keeps what other statements yield keeps the invariant. -/
theorem Invariant.removed (h : m.Invariant) {D : Set Statement} {kept : Store}
    (hKept : {t | t ∈ kept} = {t | t ∈ m.parentModel} \ D)
    (hOther : ∀ t ∈ kept, ∀ s ∈ D, m.indexStatement t = true → m.indexStatement s = true →
      property t ≠ property s)
    (hSame : Same { m with parentModel := kept } m') (hSound : m'.index.Sound)
    (hProperties : m'.index.properties = m.index.properties \ View.view m.yields D) : m'.Invariant := by
  have hMem : ∀ t ∈ kept, t ∈ m.parentModel := fun t ht =>
    (hKept.subset ht : t ∈ {t | t ∈ m.parentModel} \ D).1
  refine h.of_same ?_ hSound ?_ fun t ht => ?_
  · rw [hSame.parentModel]
    exact ⟨hSame.parentModel, hSame.indexOnlyPredicates, hSame.forceIndexPredicates⟩
  · rw [hSame.parentModel, hKept, hProperties, h.properties]
    refine (View.view_diff_iff.mpr fun t ht p hp => ?_).symm
    rintro ⟨s, hs, hEq⟩
    rw [yields_eq_some] at hp hEq
    have hIn : t ∈ kept := hKept.superset ht
    exact hOther t hIn s hs hp.1 hEq.1 (hp.2.trans hEq.2.symm)
  · rw [hSame.parentModel] at ht
    exact .inl (hMem t ht)

theorem view_singleton (hIndexed : m.indexStatement s = true) : View.view m.yields {s} = {property s} := by
  ext p
  constructor
  · rintro ⟨t, rfl, ht⟩
    exact (yields_eq_some.mp ht).2.symm
  · rintro rfl
    exact ⟨s, rfl, yields_eq_some.mpr ⟨hIndexed, rfl⟩⟩

theorem Invariant.removeStatement (h : m.Invariant) (hMeets : m.Keeps (.removeStatement s))
    (hCall : m.removeStatement s = (.errorNone, m')) : m'.Invariant := by
  rw [IndexFilterModel.removeStatement, FilterModel.removeStatement] at hCall
  by_cases hValid : s.isValid = true
  swap
  · rw [if_neg hValid] at hCall
    cases (Prod.mk.inj hCall).1
  rw [if_pos hValid] at hCall
  change (if _ && m.indexStatement s then _ else _ : ErrorCode × IndexFilterModel) = _ at hCall
  have hKept : {t | t ∈ Inference.Store.removeStatement m.parentModel s} = {t | t ∈ m.parentModel} \ {s} := by
    ext t
    exact mem_removeStatement
  by_cases hIndexed : m.indexStatement s = true
  · obtain ⟨hApart, hOther, hWritten⟩ := hMeets hIndexed
    rw [if_pos (by simp [hIndexed])] at hCall
    have hSame := same_withTransaction
      { m with parentModel := Inference.Store.removeStatement m.parentModel s } (·.removeStatement s)
    rw [hCall] at hSame
    have hEnd : m'.index.Sound ∧ m'.index.properties = m.index.properties \ {property s} := by
      by_cases hRemoves : m.index.indexPresent = true ∧ textOf s ≠ []
      · obtain ⟨-, hSound, -, hProperties⟩ := withTransaction_removeStatement
          (m := { m with parentModel := Inference.Store.removeStatement m.parentModel s }) h.sound
          hRemoves.1 hApart hRemoves.2
        rw [hCall] at hSound hProperties
        exact ⟨hSound, hProperties⟩
      · -- The statement is not in the store, and no other statement yields its property.
        have hSkipped : m.index.indexPresent = false ∨ textOf s = [] := by
          rw [not_and_or, Bool.not_eq_true, not_not] at hRemoves
          exact hRemoves
        obtain ⟨hSound, hProperties⟩ := withTransaction_removeStatement_none
          (m := { m with parentModel := Inference.Store.removeStatement m.parentModel s }) h.sound hSkipped
        rw [hCall] at hSound hProperties
        refine ⟨hSound, hProperties.trans (Set.sdiff_singleton_eq_self ?_).symm⟩
        show property s ∉ m.index.properties
        rw [h.properties]
        rintro ⟨t, ht, hYields⟩
        obtain ⟨hIs, hEq⟩ := yields_eq_some.mp hYields
        by_cases hSelf : t = s
        · subst hSelf
          rcases hSkipped with hAbsent | hText
          · exact (hWritten.resolve_left (by simp [hAbsent])) ht
          · exact (h.apart t ht hIs).2 hText
        · exact hOther t ht hSelf hIs hEq
    refine h.removed hKept (fun t ht u hu hIs _ => ?_) hSame hEnd.1 ?_
    · obtain rfl : u = s := hu
      obtain ⟨hOld, hNe⟩ := mem_removeStatement.mp ht
      exact hOther t hOld hNe hIs
    · rw [hEnd.2, view_singleton hIndexed]
  · rw [if_neg (by simp [hIndexed])] at hCall
    obtain rfl := (Prod.mk.inj hCall).2
    refine h.removed hKept (fun t _ u hu _ hIs => ?_) ⟨rfl, rfl, rfl⟩ h.sound ?_
    · obtain rfl : u = s := hu
      exact absurd hIs hIndexed
    · have hEmpty : View.view m.yields {s} = ∅ := by
        rw [Set.eq_empty_iff_forall_notMem]
        rintro p ⟨t, rfl, ht⟩
        exact hIndexed (yields_eq_some.mp ht).1
      rw [hEmpty, Set.sdiff_empty]

/-- The loop over the listed statements removes what they yield. -/
theorem removeListed_spec {listed : List Statement} (h : m.index.Sound)
    (hListed : ∀ s ∈ listed, m.indexStatement s = true →
      m.index.indexPresent = true ∧ Apart s ∧ textOf s ≠ []) :
    (removeListed listed m).1 = .errorNone ∧ Same m (removeListed listed m).2 ∧
      (removeListed listed m).2.index.Sound ∧ (removeListed listed m).2.index.properties =
        m.index.properties \ View.view m.yields {s | s ∈ listed} := by
  induction listed generalizing m with
  | nil =>
    refine ⟨rfl, ⟨rfl, rfl, rfl⟩, h, ?_⟩
    have hEmpty : View.view m.yields {s | s ∈ ([] : List Statement)} = ∅ := by
      rw [Set.eq_empty_iff_forall_notMem]
      rintro p ⟨t, ht, -⟩
      cases ht
    rw [hEmpty, Set.sdiff_empty]
    rfl
  | cons s rest ih =>
    have hRest := fun t ht => hListed t (List.mem_cons_of_mem s ht)
    have hSet : {t | t ∈ s :: rest} = insert s {t | t ∈ rest} := by
      ext t
      exact List.mem_cons
    by_cases hIndexed : m.indexStatement s = true
    · obtain ⟨hPresent, hApart, hText⟩ := hListed s List.mem_cons_self hIndexed
      obtain ⟨hError, hSound, hStill, hProperties⟩ := withTransaction_removeStatement h hPresent hApart hText
      have hSame := same_withTransaction m (·.removeStatement s)
      have hUnfold : removeListed (s :: rest) m =
          removeListed rest (m.withTransaction (·.removeStatement s)).2 := by
        rw [removeListed, if_pos hIndexed]
        simp only [hError, ne_eq, not_true_eq_false, if_false]
      obtain ⟨hLast, hSameRest, hSoundRest, hPropertiesRest⟩ := ih hSound fun t ht hIs =>
        ⟨hStill, (hRest t ht ((hSame.indexStatement t).symm.trans hIs)).2⟩
      rw [hUnfold]
      refine ⟨hLast, hSame.trans hSameRest, hSoundRest, ?_⟩
      rw [hPropertiesRest, hProperties, yields_eq hSame, hSet,
        View.view_insert_some (yields_eq_some.mpr ⟨hIndexed, rfl⟩)]
      ext p
      simp only [Set.mem_sdiff, Set.mem_singleton_iff, Set.mem_insert_iff]
      tauto
    · have hUnfold : removeListed (s :: rest) m = removeListed rest m := by
        rw [removeListed, if_neg hIndexed]
      obtain ⟨hLast, hSameRest, hSoundRest, hPropertiesRest⟩ := ih h hRest
      rw [hUnfold]
      refine ⟨hLast, hSameRest, hSoundRest, ?_⟩
      have hNone : m.yields s = none := by rw [yields, if_neg hIndexed]
      rw [hPropertiesRest, hSet, View.view_insert_none hNone]

theorem Invariant.removeAllStatements (h : m.Invariant) {p : Statement}
    (hMeets : m.Keeps (.removeAllStatements p)) (hCall : m.removeAllStatements p = (.errorNone, m')) :
    m'.Invariant := by
  have hIn : ∀ s ∈ Inference.Store.listStatements m.parentModel p, s ∈ m.parentModel := fun s hs =>
    (List.mem_filter.mp hs).1
  obtain ⟨hError, hSame, hSound, hProperties⟩ := removeListed_spec h.sound fun s hs hIndexed =>
    ⟨(hMeets s hs hIndexed).1, h.apart s (hIn s hs) hIndexed⟩
  have hKept : {t | t ∈ Inference.Store.removeAllStatements m.parentModel p} =
      {t | t ∈ m.parentModel} \ {s | s ∈ Inference.Store.listStatements m.parentModel p} := by
    ext t
    exact mem_removeAllStatements
  simp only [IndexFilterModel.removeAllStatements, hError, ne_eq, not_true_eq_false, if_false,
    FilterModel.removeAllStatements] at hCall
  generalize removeListed (Inference.Store.listStatements m.parentModel p) m = result at *
  obtain rfl := (Prod.mk.inj hCall).2
  refine h.removed hKept (fun t ht s hs hIs hIndexed => (hMeets s hs hIndexed).2 t ht hIs) ?_ hSound
    hProperties
  exact ⟨congrArg (Inference.Store.removeAllStatements · p) hSame.parentModel, hSame.indexOnlyPredicates,
    hSame.forceIndexPredicates⟩

/-- Each call that keeps what the statements of the store yield keeps the invariant. -/
theorem Invariant.call {c : Call} (h : m.Invariant) (hMeets : m.Keeps c) (hCall : m.call c = some m') :
    m'.Invariant := by
  rw [IndexFilterModel.call, Option.ite_none_right_eq_some, Option.some.injEq] at hCall
  obtain ⟨hError, hModel⟩ := hCall
  have hPerform : m.perform c = (.errorNone, m') := Prod.ext hError hModel
  cases c with
  | addStatement s => exact h.addStatement hMeets hPerform
  | removeStatement s => exact h.removeStatement hMeets hPerform
  | removeAllStatements p => exact h.removeAllStatements hMeets hPerform

theorem invariant_create (forceIndexPredicates : List QUrl) (transactionCacheSize : Nat) :
    (create forceIndexPredicates transactionCacheSize).Invariant := by
  refine ⟨sound_opened, ?_, fun s hs => absurd hs List.not_mem_nil, fun s hs => absurd hs List.not_mem_nil, rfl⟩
  ext ⟨n, p⟩
  rw [create, mem_properties sound_opened]
  constructor
  · rintro ⟨-, ⟨doc, hDoc, -⟩ | ⟨-, doc, hDoc, -⟩⟩
    · cases hDoc
    · cases hDoc
  · rintro ⟨s, hs, -⟩
    cases hs

/-- In a run whose calls remove no property that a statement of the store still yields, the index and
the store are consistent. -/
theorem consistent_of_run {forceIndexPredicates : List QUrl} {transactionCacheSize : Nat} {calls : List Call}
    (hMeets : Runs.AllMeet call Keeps (create forceIndexPredicates transactionCacheSize) calls)
    (hRun : Runs.run call (create forceIndexPredicates transactionCacheSize) calls = some m) :
    m.Consistent :=
  (Runs.invariant Invariant.call (invariant_create forceIndexPredicates transactionCacheSize) hMeets
    hRun).consistent

end IndexFilterModel

end Qt

section Example

namespace IndexFilterModel

local instance indexQt : Qt := asciiQt

def uriNode (name : String) (h : name.toList.all isUrlChar = true) : Node := .ofUri (.ofString name h)

/-- A statement about the text "a" in a named graph. -/
def textStatement (graph : Node) : Statement :=
  ⟨uriNode "urn:s" (by decide), uriNode "urn:p" (by decide),
    .ofLiteral (.fromString ['a'] Vocabulary.XMLSchema.string), graph⟩

def firstGraph : Statement := textStatement (uriNode "urn:g" (by decide))

def secondGraph : Statement := textStatement (uriNode "urn:h" (by decide))

theorem consistent_of_run_firstGraph :
    ∃ m, Runs.run call (create [] 1) [.addStatement firstGraph, .removeStatement firstGraph] = some m ∧
      m.Consistent := by
  have hSome : (Runs.run call (create [] 1)
      [.addStatement firstGraph, .removeStatement firstGraph]).isSome = true := by decide
  obtain ⟨m, hRun⟩ := Option.isSome_iff_exists.mp hSome
  have hApart : Apart firstGraph := ⟨by decide, by decide⟩
  have hMeets : Runs.AllMeet call Keeps (create [] 1) [.addStatement firstGraph, .removeStatement firstGraph] := by
    refine ⟨fun _ => hApart, fun m₁ h₁ => ⟨fun _ => ⟨hApart, ?_, ?_⟩, fun _ _ => trivial⟩⟩
    · have hStore : ((create [] 1).call (.addStatement firstGraph)).map (·.parentModel) =
          some [firstGraph] := by decide
      rw [h₁, Option.map_some, Option.some.injEq] at hStore
      intro s' hs' hNe
      rw [hStore, List.mem_singleton] at hs'
      exact absurd hs' hNe
    · have hPresent : ((create [] 1).call (.addStatement firstGraph)).map (·.index.indexPresent) =
          some true := by decide
      rw [h₁, Option.map_some, Option.some.injEq] at hPresent
      exact .inl hPresent
  exact ⟨m, hRun, consistent_of_run hMeets hRun⟩

/-- The triple stays in the second graph, but its property is gone. -/
theorem removeStatement_secondGraph :
    ∃ m, Runs.run call (create [] 1) [.addStatement firstGraph, .addStatement secondGraph,
      .removeStatement firstGraph] = some m ∧ ¬m.Consistent := by
  have hRun : (Runs.run call (create [] 1) [.addStatement firstGraph, .addStatement secondGraph,
      .removeStatement firstGraph]).map (fun m => (m.parentModel, m.forceIndexPredicates,
        (m.index.getDocument firstGraph.subject).fields.map (·.name))) =
      some ([secondGraph], [], [idFieldName]) := by
    decide
  obtain ⟨m, hRun, hEnd⟩ := Option.map_eq_some_iff.mp hRun
  simp only [Prod.mk.injEq] at hEnd
  obtain ⟨hStore, hForced, hFields⟩ := hEnd
  refine ⟨m, hRun, fun hConsistent => ?_⟩
  have hIff := hConsistent firstGraph.subject (.ofString "urn:p" (by decide)) ['a'] (by decide) (by decide)
  obtain ⟨f, hf, hName, -⟩ := hIff.mpr ⟨secondGraph, by rw [hStore]; exact List.mem_singleton.mpr rfl,
    by rw [indexStatement, hForced]; decide, rfl, rfl, by decide⟩
  have hMem : f.name ∈ [idFieldName] := hFields ▸ List.mem_map_of_mem hf
  rw [hName] at hMem
  revert hMem
  decide

end IndexFilterModel

end Example

end Index

end Soprano
