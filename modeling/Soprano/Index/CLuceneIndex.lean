import Mathlib.Data.List.Nodup
import Soprano.Error
import Soprano.Index.Document
import Soprano.Node

/-! `CLuceneIndex`: the documents of the index by the ids of their resources, and the cache of documents
that a commit writes. -/

namespace Soprano

namespace Index

variable [Qt]

/-- The index on disk, which is taken to store and return documents as they are, and the documents that
are not yet written. -/
structure CLuceneIndex where
  indexPresent : Bool
  documents : List Document
  documentCache : List (Node × Document)
  /-- If positive a transaction is running. -/
  transactionID : Nat

def getId (node : Node) : QString :=
  if node.isResource then QString.fromLatin1 node.uri.toEncoded
  else if node.isBlank then bnodeIdPrefix ++ node.toString
  else []

/-- The field of a statement's predicate. -/
def fieldOf (s : Statement) : QString := QString.fromLatin1 s.predicate.uri.toEncoded

/-- The text of a statement's object. -/
def textOf (s : Statement) : QString :=
  if s.object.isResource then QString.fromLatin1 s.object.uri.toEncoded else s.object.toString

namespace CLuceneIndex

/-- An index folder without an index. -/
def opened : CLuceneIndex := ⟨false, [], [], 0⟩

/-- The first document that a term of the id field finds. -/
def findDocument (index : CLuceneIndex) (id : QString) : Option Document :=
  (index.documents.find? fun doc => (doc.getValues idFieldName).contains id).map Document.stored

/-- The document that the cache has for the resource, or gets for it. -/
def getDocument (index : CLuceneIndex) (resource : Node) : Document :=
  match index.documentCache.find? (·.1 = resource) with
  | some (_, document) => document
  | none =>
    match if index.indexPresent then index.findDocument (getId resource) else none with
    | some oldDoc => .copy (getId resource) oldDoc
    | none => Document.mk [] |>.addID (getId resource)

/-- The document of the resource is changed in the cache. -/
def setDocument (index : CLuceneIndex) (resource : Node) (document : Document) : CLuceneIndex :=
  { index with documentCache := (resource, document) :: index.documentCache.filter (·.1 ≠ resource) }

/-- The documents without the previous instances of the cached ones. -/
def keptDocuments (index : CLuceneIndex) : List Document :=
  let ids := index.documentCache.filterMap (·.2.get idFieldName)
  if index.indexPresent then
    index.documents.filter fun doc => !ids.any ((doc.getValues idFieldName).contains ·)
  else index.documents

/-- The updated documents; empty ones are never added. -/
def updatedDocuments (index : CLuceneIndex) : List Document :=
  (index.documentCache.map (·.2)).filter (!·.docEmpty)

def commit (index : CLuceneIndex) : CLuceneIndex :=
  { index with
    indexPresent := index.indexPresent || !index.updatedDocuments.isEmpty
    documents := index.keptDocuments ++ index.updatedDocuments
    documentCache := [] }

def startTransaction (index : CLuceneIndex) : Nat × CLuceneIndex :=
  if index.transactionID = 0 then (1, { index with transactionID := 1 }) else (0, index)

def closeTransaction (index : CLuceneIndex) (id : Nat) : Bool × CLuceneIndex :=
  if id = index.transactionID && 0 < id then (true, { index.commit with transactionID := 0 })
  else (false, index)

/-- Outside of a transaction each change is written at once. -/
def change (index : CLuceneIndex) (resource : Node) (document : Document) : CLuceneIndex :=
  let index := index.setDocument resource document
  if index.transactionID = 0 then index.commit else index

def addStatement (index : CLuceneIndex) (statement : Statement) : ErrorCode × CLuceneIndex :=
  let field := fieldOf statement
  let text := textOf statement
  if text.isEmpty then (.errorUnknown, index)
  else
    let document := index.getDocument statement.subject
    (.errorNone, index.change statement.subject
      (document.addProperty field text statement.object.isResource))

def removeStatement (index : CLuceneIndex) (statement : Statement) : ErrorCode × CLuceneIndex :=
  -- just for speed
  if !index.indexPresent then (.errorNone, index)
  else
    let field := fieldOf statement
    let text := textOf statement
    if text.isEmpty then (.errorNone, index)
    else
      let document := index.getDocument statement.subject
      (.errorNone, index.change statement.subject
        (document.removeProperty field text statement.object.isResource))

/-! ### Documents and their resources -/

/-- The id is that of no other resource: a URI that starts as the ids of blank nodes do has none. -/
def ownId (n : Node) : Bool :=
  n.isBlank || n.isResource && (QString.fromLatin1 n.uri.toEncoded).head? != some '!'

theorem head_getId {n : Node} (h : ownId n = true) : (getId n).head? = some '!' ↔ n.isBlank = true := by
  cases n with
  | resource u hu =>
    simp only [ownId, Node.isBlank, Node.isResource, Node.type, QUrl.fromLatin1_toEncoded] at h
    simpa [getId, Node.isResource, Node.isBlank, Node.type] using h
  | blank => simp [getId, Node.isResource, Node.isBlank, Node.type, bnodeIdPrefix]
  | empty | literal => cases h

theorem getId_injective {n n' : Node} (h : ownId n = true) (h' : ownId n' = true)
    (hId : getId n = getId n') : n = n' := by
  have hBlank : n.isBlank = true ↔ n'.isBlank = true := by
    rw [← head_getId h, ← head_getId h', hId]
  cases n with
  | resource u hu =>
    cases n' with
    | resource v hv =>
      have hUri : u = v := by simpa [getId, Node.isResource, Node.type, Node.uri, QUrl.ext_iff] using hId
      subst hUri
      rfl
    | blank => simp [Node.isBlank, Node.type] at hBlank
    | empty | literal => cases h'
  | blank x hx =>
    cases n' with
    | blank y hy =>
      have hText : x = y := by
        simpa [getId, Node.isResource, Node.isBlank, Node.type, bnodeIdPrefix, Node.toString] using hId
      subst hText
      rfl
    | resource => simp [Node.isBlank, Node.type] at hBlank
    | empty | literal => cases h'
  | empty | literal => cases h

/-- What the operations of the index keep. -/
structure Sound (index : CLuceneIndex) : Prop where
  cached : ∀ c ∈ index.documentCache, ownId c.1 = true ∧ c.2.HasId (getId c.1)
  keys : (index.documentCache.map Prod.fst).Nodup
  documents : ∀ doc ∈ index.documents, ∃ id, doc.HasId id
  ids : (index.documents.map fun doc => doc.getValues idFieldName).Nodup
  absent : index.indexPresent = false → index.documents = []

theorem sound_opened : Sound opened := by
  refine ⟨nofun, List.nodup_nil, nofun, List.nodup_nil, fun _ => rfl⟩

variable {index index' : CLuceneIndex} {n n' : Node} {doc : Document}

omit [Qt] in
theorem contains_getValues {id id' : QString} (h : doc.HasId id') :
    (doc.getValues idFieldName).contains id = true ↔ id = id' := by
  rw [h.values, List.contains_iff_mem, List.mem_singleton]

theorem getDocument_cached (h : index.Sound) (hc : (n, doc) ∈ index.documentCache) :
    index.getDocument n = doc := by
  rw [getDocument]
  cases hFind : index.documentCache.find? (·.1 = n) with
  | some c =>
    have hKey : c.1 = n := by simpa using List.find?_some hFind
    have hEq := List.inj_on_of_nodup_map h.keys (List.mem_of_find?_eq_some hFind) hc hKey
    rw [hEq]
  | none =>
    have := List.find?_eq_none.mp hFind _ hc
    simp at this

/-- The document of a resource without a cached one has the properties of the document of its id. -/
theorem getDocument_uncached (h : index.Sound) (hNone : ∀ c ∈ index.documentCache, c.1 ≠ n) :
    (index.getDocument n).HasId (getId n) ∧ ∀ p, p ∈ (index.getDocument n).properties ↔
      ∃ doc ∈ index.documents, doc.HasId (getId n) ∧ p ∈ doc.properties := by
  have hCache : index.documentCache.find? (·.1 = n) = none :=
    List.find?_eq_none.mpr fun c hc => by simpa using hNone c hc
  have hAbsent : (if index.indexPresent then index.findDocument (getId n) else none) =
      index.findDocument (getId n) := by
    cases hPresent : index.indexPresent with
    | true => rfl
    | false =>
      rw [findDocument, h.absent hPresent]
      rfl
  rw [getDocument, hCache]
  simp only [hAbsent]
  rw [findDocument]
  cases hFind : index.documents.find? fun doc => (doc.getValues idFieldName).contains (getId n) with
  | none =>
    refine ⟨Document.hasId_new _, fun p => ?_⟩
    rw [Option.map_none, Document.properties_new]
    refine iff_of_false (Set.notMem_empty p) ?_
    rintro ⟨doc, hDoc, hId, -⟩
    have := List.find?_eq_none.mp hFind doc hDoc
    rw [contains_getValues hId] at this
    exact this rfl
  | some old =>
    have hOld := List.mem_of_find?_eq_some hFind
    obtain ⟨id, hId⟩ := h.documents old hOld
    have hContains := List.find?_some hFind
    obtain rfl : getId n = id := (contains_getValues hId).mp hContains
    obtain ⟨hProperties, hCopy⟩ := Document.copy_spec (getId n) old.stored
    refine ⟨hCopy, fun p => ?_⟩
    rw [Option.map_some, hProperties, hId.properties_stored]
    constructor
    · exact fun hp => ⟨old, hOld, hId, hp⟩
    · rintro ⟨doc, hDoc, hDocId, hp⟩
      rwa [List.inj_on_of_nodup_map h.ids hOld hDoc (hId.values.trans hDocId.values.symm)]

theorem hasId_getDocument (h : index.Sound) (n : Node) : (index.getDocument n).HasId (getId n) := by
  by_cases hNone : ∀ c ∈ index.documentCache, c.1 ≠ n
  · exact (getDocument_uncached h hNone).1
  · push Not at hNone
    obtain ⟨c, hc, rfl⟩ := hNone
    rw [getDocument_cached h hc]
    exact (h.cached c hc).2

/-- The properties in the index, with the resources that have them. -/
def properties (index : CLuceneIndex) : Set (Node × QString × QString) :=
  {e | ownId e.1 = true ∧ e.2 ∈ (index.getDocument e.1).properties}

theorem mem_properties (h : index.Sound) {p : QString × QString} : (n, p) ∈ index.properties ↔
    ownId n = true ∧ ((∃ doc, (n, doc) ∈ index.documentCache ∧ p ∈ doc.properties) ∨
      (∀ c ∈ index.documentCache, c.1 ≠ n) ∧
        ∃ doc ∈ index.documents, doc.HasId (getId n) ∧ p ∈ doc.properties) := by
  refine and_congr_right fun _ => ?_
  by_cases hNone : ∀ c ∈ index.documentCache, c.1 ≠ n
  · rw [(getDocument_uncached h hNone).2 p]
    constructor
    · exact fun hDoc => .inr ⟨hNone, hDoc⟩
    · rintro (⟨doc, hDoc, -⟩ | ⟨-, hDoc⟩)
      · exact absurd rfl (hNone _ hDoc)
      · exact hDoc
  · have hSome := hNone
    push Not at hSome
    obtain ⟨c, hc, rfl⟩ := hSome
    rw [getDocument_cached h hc]
    constructor
    · exact fun hp => .inl ⟨c.2, hc, hp⟩
    · rintro (⟨doc, hDoc, hp⟩ | ⟨hNone', -⟩)
      · rwa [← getDocument_cached h hc, getDocument_cached h hDoc]
      · exact absurd hNone' hNone

/-! ### Changes -/

theorem getDocument_setDocument (index : CLuceneIndex) (n n' : Node) (doc : Document) :
    (index.setDocument n doc).getDocument n' = if n' = n then doc else index.getDocument n' := by
  rw [getDocument, setDocument, List.find?_cons]
  by_cases hEq : n' = n
  · subst hEq
    simp
  · have hFind : (index.documentCache.filter (·.1 ≠ n)).find? (·.1 = n') =
        index.documentCache.find? (·.1 = n') := by
      rw [List.find?_filter]
      congr 1
      funext c
      by_cases hc : c.1 = n'
      · simp [hc, hEq]
      · simp [hc]
    rw [if_neg hEq, getDocument]
    simp only [Ne.symm hEq, decide_false, hFind]
    rfl

theorem Sound.setDocument (h : index.Sound) (hn : ownId n = true) (hId : doc.HasId (getId n)) :
    (index.setDocument n doc).Sound := by
  refine ⟨fun c hc => ?_, ?_, h.documents, h.ids, h.absent⟩
  · rcases List.mem_cons.mp hc with rfl | hc
    · exact ⟨hn, hId⟩
    · exact h.cached c (List.mem_filter.mp hc).1
  · rw [CLuceneIndex.setDocument, List.map_cons, List.nodup_cons]
    refine ⟨fun hMem => ?_, h.keys.sublist ((List.filter_sublist).map _)⟩
    obtain ⟨c, hc, hKey⟩ := List.mem_map.mp hMem
    simpa [hKey] using (List.mem_filter.mp hc).2

theorem mem_keptDocuments (h : index.Sound) : doc ∈ index.keptDocuments ↔
    doc ∈ index.documents ∧ ∀ c ∈ index.documentCache, ¬doc.HasId (getId c.1) := by
  have hIds : ∀ id, id ∈ index.documentCache.filterMap (·.2.get idFieldName) ↔
      ∃ c ∈ index.documentCache, getId c.1 = id := by
    intro id
    rw [List.mem_filterMap]
    refine exists_congr fun c => and_congr_right fun hc => ?_
    rw [(h.cached c hc).2.get, Option.some.injEq]
  rw [keptDocuments]
  cases hPresent : index.indexPresent with
  | false => simp [h.absent hPresent]
  | true =>
    rw [if_pos rfl, List.mem_filter]
    refine and_congr_right fun hDoc => ?_
    obtain ⟨id, hId⟩ := h.documents doc hDoc
    rw [Bool.not_eq_true', ← Bool.not_eq_true, List.any_eq_true]
    constructor
    · intro hNone c hc hOther
      refine hNone ⟨getId c.1, (hIds _).mpr ⟨c, hc, rfl⟩, ?_⟩
      rw [hOther.values]
      simp
    · rintro hNone ⟨other, hMem, hContains⟩
      obtain ⟨c, hc, rfl⟩ := (hIds _).mp hMem
      have hSame := (contains_getValues hId).mp hContains
      exact hNone c hc (hSame ▸ hId)

theorem mem_updatedDocuments : doc ∈ index.updatedDocuments ↔
    doc.docEmpty = false ∧ ∃ c ∈ index.documentCache, c.2 = doc := by
  rw [updatedDocuments, List.mem_filter, List.mem_map, Bool.not_eq_true', and_comm]

/-- A committed document is one that was cached, or one whose id none of the cached ones has. -/
theorem mem_documents_commit (h : index.Sound) : doc ∈ index.commit.documents ↔
    (doc ∈ index.documents ∧ ∀ c ∈ index.documentCache, ¬doc.HasId (getId c.1)) ∨
      doc.docEmpty = false ∧ ∃ c ∈ index.documentCache, c.2 = doc := by
  rw [commit, List.mem_append, mem_keptDocuments h, mem_updatedDocuments]

theorem documents_hasId_commit (h : index.Sound) (hDoc : doc ∈ index.commit.documents) :
    ∃ id, doc.HasId id := by
  rcases (mem_documents_commit h).mp hDoc with ⟨hDoc, -⟩ | ⟨-, c, hc, rfl⟩
  · exact h.documents doc hDoc
  · exact ⟨_, (h.cached c hc).2⟩

theorem Sound.commit (h : index.Sound) : index.commit.Sound := by
  refine ⟨nofun, List.nodup_nil, fun doc hDoc => documents_hasId_commit h hDoc, ?_, fun hAbsent => ?_⟩
  · have hKept : index.keptDocuments.Sublist index.documents := by
      rw [keptDocuments]
      split
      · exact List.filter_sublist
      · exact List.Sublist.refl _
    have hValues : (index.documentCache.map (·.2)).map (fun doc => doc.getValues idFieldName) =
        (index.documentCache.map Prod.fst).map fun n => [getId n] := by
      rw [List.map_map, List.map_map]
      exact List.map_congr_left fun c hc => (h.cached c hc).2.values
    have hCached : ((index.documentCache.map (·.2)).map fun doc => doc.getValues idFieldName).Nodup := by
      rw [hValues]
      refine List.Nodup.map_on (fun n hn n' hn' hId => ?_) h.keys
      obtain ⟨c, hc, rfl⟩ := List.mem_map.mp hn
      obtain ⟨c', hc', rfl⟩ := List.mem_map.mp hn'
      exact getId_injective (h.cached c hc).1 (h.cached c' hc').1 (List.singleton_inj.mp hId)
    rw [CLuceneIndex.commit, List.map_append, List.nodup_append]
    refine ⟨h.ids.sublist (hKept.map _), hCached.sublist ((List.filter_sublist).map _), ?_⟩
    -- A document that is kept has the id of no document that is written.
    intro values hFirst values' hSecond hEq
    subst hEq
    obtain ⟨doc, hDoc, rfl⟩ := List.mem_map.mp hFirst
    obtain ⟨doc', hDoc', hSame⟩ := List.mem_map.mp hSecond
    obtain ⟨hOld, hNone⟩ := (mem_keptDocuments h).mp hDoc
    obtain ⟨-, c, hc, rfl⟩ := mem_updatedDocuments.mp hDoc'
    refine hNone c hc ⟨?_, ?_⟩
    · exact hSame.symm.trans (h.cached c hc).2.values
    · obtain ⟨id, hId⟩ := h.documents doc hOld
      exact hId.stored
  · simp only [CLuceneIndex.commit, Bool.or_eq_false_iff, Bool.not_eq_false', List.isEmpty_iff] at hAbsent ⊢
    rw [hAbsent.2, keptDocuments, hAbsent.1, h.absent hAbsent.1]
    rfl

/-- A commit leaves the properties of every resource as they are. -/
theorem properties_commit (h : index.Sound) : index.commit.properties = index.properties := by
  ext ⟨n, p⟩
  rw [mem_properties h, mem_properties h.commit]
  refine and_congr_right fun hn => ?_
  have hOther : ∀ c ∈ index.documentCache, c.2.HasId (getId n) → c.1 = n := by
    intro c hc hId
    have hValues := (h.cached c hc).2.values.symm.trans hId.values
    exact getId_injective (h.cached c hc).1 hn (List.singleton_inj.mp hValues)
  constructor
  · rintro (⟨doc, hDoc, -⟩ | ⟨-, doc, hDoc, hId, hp⟩)
    · cases hDoc
    · rcases (mem_documents_commit h).mp hDoc with ⟨hDoc, hNone⟩ | ⟨-, c, hc, rfl⟩
      · refine .inr ⟨fun c hc hKey => hNone c hc (hKey ▸ hId), doc, hDoc, hId, hp⟩
      · obtain rfl := hOther c hc hId
        exact .inl ⟨c.2, hc, hp⟩
  · rintro (⟨doc, hDoc, hp⟩ | ⟨hNone, doc, hDoc, hId, hp⟩)
    · refine .inr ⟨nofun, doc, (mem_documents_commit h).mpr (.inr ⟨?_, _, hDoc, rfl⟩), (h.cached _ hDoc).2, hp⟩
      rw [← Bool.not_eq_true, Document.docEmpty_iff]
      exact Set.nonempty_iff_ne_empty.mp ⟨p, hp⟩
    · refine .inr ⟨nofun, doc, (mem_documents_commit h).mpr (.inl ⟨hDoc, fun c hc hSame => ?_⟩), hId, hp⟩
      exact hNone c hc (getId_injective (h.cached c hc).1 hn
        (List.singleton_inj.mp (hSame.values.symm.trans hId.values)))

theorem indexPresent_commit (h : index.indexPresent = true) : index.commit.indexPresent = true := by
  rw [commit, h]
  rfl

/-- A change gives the resource the properties of the new document. -/
theorem properties_change (h : index.Sound) (hn : ownId n = true) (hId : doc.HasId (getId n)) :
    (index.change n doc).Sound ∧ (index.change n doc).properties =
      {e ∈ index.properties | e.1 ≠ n} ∪ {e | e.1 = n ∧ e.2 ∈ doc.properties} := by
  have hSound := h.setDocument hn hId
  have hSet : (index.setDocument n doc).properties =
      {e ∈ index.properties | e.1 ≠ n} ∪ {e | e.1 = n ∧ e.2 ∈ doc.properties} := by
    ext ⟨n', p⟩
    simp only [properties, getDocument_setDocument, Set.mem_union, Set.mem_ofPred_eq]
    by_cases hEq : n' = n
    · subst hEq
      simp [hn]
    · simp [hEq]
  rw [change]
  split
  · exact ⟨hSound.commit, (properties_commit hSound).trans hSet⟩
  · exact ⟨hSound, hSet⟩

theorem indexPresent_change (h : index.indexPresent = true) (n : Node) (doc : Document) :
    (index.change n doc).indexPresent = true := by
  rw [change]
  split
  · exact indexPresent_commit h
  · exact h

/-- The property that an indexed statement gives its subject. -/
def property (s : Statement) : Node × QString × QString := (s.subject, fieldOf s, textOf s)

/-- The subject of the statement has an id of its own, and the predicate a field of its own. -/
structure Apart (s : Statement) : Prop where
  subject : ownId s.subject = true
  predicate : isPropertyField (fieldOf s) = true

theorem addStatement_spec (h : index.Sound) {s : Statement} (hs : Apart s)
    (hCall : index.addStatement s = (.errorNone, index')) :
    index'.Sound ∧ index'.properties = insert (property s) index.properties ∧ textOf s ≠ [] := by
  simp only [addStatement] at hCall
  split at hCall
  · cases (Prod.mk.inj hCall).1
  · rename_i hText
    obtain rfl := (Prod.mk.inj hCall).2
    have hDoc := hasId_getDocument h s.subject
    obtain ⟨hSound, hProperties⟩ := properties_change h hs.subject
      (hDoc.addProperty hs.predicate (textOf s) s.object.isResource)
    refine ⟨hSound, ?_, fun hEmpty => hText (by rw [hEmpty]; rfl)⟩
    rw [hProperties, Document.properties_addProperty hs.predicate]
    ext ⟨n, p⟩
    simp only [property, properties, Set.mem_union, Set.mem_insert_iff, Set.mem_ofPred_eq, Prod.mk.injEq]
    by_cases hEq : n = s.subject
    · subst hEq
      simp [hs.subject]
    · simp [hEq]

/-- Removing a statement from an index that is on disk removes its property. -/
theorem removeStatement_spec (h : index.Sound) (hPresent : index.indexPresent = true) {s : Statement}
    (hs : Apart s) (hText : textOf s ≠ []) :
    (index.removeStatement s).1 = .errorNone ∧ (index.removeStatement s).2.Sound ∧
      (index.removeStatement s).2.indexPresent = true ∧
      (index.removeStatement s).2.properties = index.properties \ {property s} := by
  have hNonempty : ¬(textOf s).isEmpty = true := by rwa [List.isEmpty_iff]
  simp only [removeStatement, hPresent, Bool.not_true, Bool.false_eq_true, if_false, hNonempty]
  have hDoc := hasId_getDocument h s.subject
  obtain ⟨hRemoved, hId⟩ := Document.removeProperty_spec hs.predicate (textOf s) s.object.isResource hDoc
  obtain ⟨hSound, hProperties⟩ := properties_change h hs.subject hId
  refine ⟨trivial, hSound, indexPresent_change hPresent _ _, ?_⟩
  rw [hProperties, hRemoved]
  ext ⟨n, p⟩
  simp only [property, properties, Set.mem_union, Set.mem_sdiff, Set.mem_singleton_iff, Set.mem_ofPred_eq,
    Prod.mk.injEq]
  by_cases hEq : n = s.subject
  · subst hEq
    simp [hs.subject]
  · simp [hEq]

end CLuceneIndex

end Index

end Soprano
