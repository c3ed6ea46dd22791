import Mathlib.Data.List.Perm.Subperm
import Soprano.Client.SparqlModel

/-! What `Client::SparqlModel` removes, and when its patterns select what matches. -/

namespace Soprano

namespace Client

open Codec SparqlEndpoint
open Virtuoso (Term Quad TermText)

section Qt

variable [Qt]

namespace SparqlModel

variable (m : SparqlModel)

/-! ### Removal -/

/-- The quad that a request is read to remove. -/
def request (history : List LiteralValue) (s : Statement) : Option (Quad Term) :=
  complete readDelete ("delete from ".toList ++ graphText (texts history s))

/-- The values of a quad of terms. -/
def ground (r : Quad Term) : Quad Value := ⟨.term r.graph, .term r.subject, .term r.predicate, .term r.object⟩

/-- A statement as it can be stored. -/
def Shaped (s : Statement) : Prop := s.isValid = true ∧ s.context.isResource = true

theorem Shaped.nodes {s : Statement} (h : Shaped s) : (∃ g hg, s.context = .resource g hg) ∧
    ((∃ u hu, s.subject = .resource u hu) ∨ ∃ id hId, s.subject = .blank id hId) ∧
      (∃ u hu, s.predicate = .resource u hu) ∧ s.object.isValid = true := by
  obtain ⟨hSubject, hPredicate, hObject, -⟩ := Virtuoso.nodes_of_isValid h.1
  refine ⟨?_, hSubject, hPredicate, hObject⟩
  have hContext := h.2
  cases hNode : s.context with
  | resource g hg => exact ⟨g, hg, rfl⟩
  | _ =>
    rw [hNode] at hContext
    cases hContext

/-- A statement as it can be stored has resources around its subject and object. -/
theorem texts_of_shaped {history : List LiteralValue} {s : Statement} {g pr : QUrl} {hg hpr}
    (hContext : s.context = .resource g hg) (hPredicate : s.predicate = .resource pr hpr)
    (hSubject : literals s.subject = []) :
    texts history s = ⟨'<' :: (g.encoded ++ ['>']), (nodeText history s.subject "?s".toList).1,
      '<' :: (pr.encoded ++ ['>']), (nodeText history s.object "?o".toList).1⟩ := by
  have hIri (h : List LiteralValue) (u : QUrl) (hu : u.isEmpty = false) (varText : QString) :
      nodeText h (.resource u hu) varText = ('<' :: (u.encoded ++ ['>']), h) := by
    rw [nodeText, if_pos (show (Node.resource u hu).isValid = true from rfl),
      Node.toN3_resource (N3.typeHashAfter h) hu, show literals (.resource u hu) = [] from rfl, List.append_nil]
  have hAfter : (nodeText history s.subject "?s".toList).2 = history := by
    rw [snd_nodeText, hSubject, List.append_nil]
  unfold texts
  rw [hContext, hPredicate]
  simp only [hIri, hAfter]

theorem request_iff {history : List LiteralValue} {s : Statement} {g u pr : QUrl} {hg hu hpr}
    (hContext : s.context = .resource g hg) (hSubject : s.subject = .resource u hu)
    (hPredicate : s.predicate = .resource pr hpr) {r : Quad Term} :
    request history s = some r ↔ ∃ t, ReadsPlace readTerm (nodeText history s.object "?o".toList).1 t ∧
      r = ⟨.iri g.encoded, .iri u.encoded, .iri pr.encoded, t⟩ := by
  have hIri (u : QUrl) : ReadsPlace readIri ('<' :: (u.encoded ++ ['>'])) (.iri u.encoded) :=
    (readsPlace_iri (Virtuoso.isIriChar_encoded u)).2
  have hTexts : texts history s = _ := texts_of_shaped hContext hPredicate (by rw [hSubject]; rfl)
  have hSubjectText : ReadsPlace readTerm (texts history s).subject (.iri u.encoded) := by
    rw [hTexts, hSubject, show (nodeText history (.resource u hu) "?s".toList).1 = '<' :: (u.encoded ++ ['>']) from
      Node.toN3_resource (N3.typeHashAfter history) hu]
    exact (readsPlace_term (.inl rfl)
      (Virtuoso.Sparul.readText_iri_iff.mpr ⟨Virtuoso.isIriChar_encoded u, rfl⟩)).2
  have hGraph : ReadsPlace readIri (texts history s).graph (.iri g.encoded) := by
    rw [hTexts]
    exact hIri g
  have hPredicateText : ReadsPlace readIri (texts history s).predicate (.iri pr.encoded) := by
    rw [hTexts]
    exact hIri pr
  rw [request, complete_delete_iff, readGraph_iff local_readTerm hGraph hSubjectText hPredicateText, hTexts]

theorem nodeText_blank (history : List LiteralValue) {id : QString} (hId : id.isEmpty = false) (varText : QString) :
    (nodeText history (.blank id hId) varText).1 = '_' :: ':' :: id :=
  Node.toN3_blank (N3.typeHashAfter history) hId

/-- A blank node is no data to delete. -/
theorem request_blank {history : List LiteralValue} {s : Statement} (h : Shaped s)
    (hBlank : s.subject.isBlank = true ∨ s.object.isBlank = true) : request history s = none := by
  have hNode {n : Node} (hn : n.isBlank = true) : ∃ id hId, n = .blank id hId := by
    cases n with
    | blank id hId => exact ⟨id, hId, rfl⟩
    | _ => cases hn
  obtain ⟨⟨g, hg, hContext⟩, hSubject, ⟨pr, hpr, hPredicate⟩, -⟩ := h.nodes
  refine Option.eq_none_iff_forall_ne_some.mpr fun r hRequest => ?_
  rcases hSubject with ⟨u, hu, hSubject⟩ | ⟨id, hId, hSubject⟩
  · obtain ⟨id, hId, hObject⟩ := hNode (hBlank.resolve_left (by rw [hSubject]; exact Bool.false_ne_true))
    obtain ⟨t, hRead, -⟩ := (request_iff hContext hSubject hPredicate).mp hRequest
    rw [hObject, nodeText_blank] at hRead
    have hNone := readTerm_refuses (c := '_') (by decide) (by decide) (':' :: id ++ [' '])
    rw [show '_' :: (':' :: id ++ [' ']) = '_' :: ':' :: id ++ [' '] from rfl, hRead.run] at hNone
    cases hNone
  · have hTexts : texts history s = _ := texts_of_shaped hContext hPredicate (by rw [hSubject]; rfl)
    have hGraph : ReadsPlace readIri (texts history s).graph (.iri g.encoded) := by
      rw [hTexts]
      exact (readsPlace_iri (Virtuoso.isIriChar_encoded g)).2
    rw [request, complete_delete_iff, readGraph_of_graph hGraph] at hRequest
    obtain ⟨_, hTerm⟩ := subject_of_readTriple hRequest
    have hText : (texts history s).subject = '_' :: ':' :: id := by
      rw [hTexts, hSubject]
      exact nodeText_blank history hId "?s".toList
    have hNone := readTerm_refuses (c := '_') (by decide) (by decide)
      (':' :: id ++ [' '] ++ ((texts history s).predicate ++ [' '] ++ (objectText (texts history s) ++ [])))
    rw [hText] at hTerm
    rw [show '_' :: (':' :: id ++ [' '] ++ ((texts history s).predicate ++ [' '] ++ (objectText (texts history s) ++ [])))
      = '_' :: ':' :: id ++ [' '] ++ ((texts history s).predicate ++ [' '] ++ (objectText (texts history s) ++ [])) from rfl,
      hTerm] at hNone
    cases hNone

/-- The value that the N3 text of a node stands for. -/
def meant (history : List LiteralValue) (n : Node) : Option Value :=
  match Virtuoso.Sparul.readText (n.toN3 (N3.typeHashAfter history)).1 with
  | some (.term t) => some (.term t)
  | _ => none

theorem meant_eq_some {history : List LiteralValue} {n : Node} {v : Value} : meant history n = some v ↔
    ∃ t, Virtuoso.Sparul.readText (n.toN3 (N3.typeHashAfter history)).1 = some (.term t) ∧ v = .term t := by
  unfold meant
  split
  · rename_i t hRead
    simp [hRead, eq_comm]
  · rename_i hNone
    exact ⟨nofun, fun ⟨t, hRead, _⟩ => absurd hRead (hNone t)⟩

theorem denotes_iff_meant {history : List LiteralValue} {n n' : Node} :
    Denotes history n n' ↔ meant history n = some (rdf n') := meant_eq_some.symm

theorem meant_blank {history : List LiteralValue} {n : Node} (h : n.isBlank = true) : meant history n = none := by
  refine Option.eq_none_iff_forall_ne_some.mpr fun v hMeant => ?_
  cases n with
  | blank id hId =>
    obtain ⟨t, hRead, -⟩ := meant_eq_some.mp hMeant
    rw [Node.toN3_blank (N3.typeHashAfter history) hId, Virtuoso.Sparul.readText_eq_some] at hRead
    cases hRead.run
  | _ => cases h

/-- The quad that a request removes, as it is stored. -/
def requested (history : List LiteralValue) (s : Statement) : Option (Quad Value) :=
  if s.subject.isBlank then none
  else (meant history s.object).map fun object => { quad s with object }

theorem map_request {history : List LiteralValue} {s : Statement} (h : Shaped s) :
    (request history s).map ground = requested history s := by
  obtain ⟨⟨g, hg, hContext⟩, hSubject, ⟨pr, hpr, hPredicate⟩, hObject⟩ := h.nodes
  unfold requested
  by_cases hBlank : s.subject.isBlank = true ∨ s.object.isBlank = true
  · rw [request_blank h hBlank]
    split
    · rfl
    · rw [meant_blank (hBlank.resolve_left ‹_›)]
      rfl
  · rw [not_or] at hBlank
    rw [if_neg hBlank.1]
    have hResource : ∃ u hu, s.subject = .resource u hu := by
      refine hSubject.resolve_right ?_
      rintro ⟨id, hId, hEq⟩
      exact hBlank.1 (by rw [hEq]; rfl)
    obtain ⟨u, hu, hSubject⟩ := hResource
    have hRead := (readsPlace_object history hObject (Bool.eq_false_iff.mpr hBlank.2) "?o".toList).2
    refine Option.ext fun v => ?_
    simp only [Option.map_eq_some_iff, request_iff hContext hSubject hPredicate, meant_eq_some, hRead]
    constructor
    · rintro ⟨r, ⟨t, ht, rfl⟩, rfl⟩
      refine ⟨.term t, ⟨t, ht, rfl⟩, ?_⟩
      rw [quad, hContext, hSubject, hPredicate]
      rfl
    · rintro ⟨_, ⟨t, ht, rfl⟩, rfl⟩
      refine ⟨_, ⟨t, ht, rfl⟩, ?_⟩
      rw [quad, hContext, hSubject, hPredicate]
      rfl

/-! ### The table of data types -/

/-- A text stays the same when more literals are written after it. -/
theorem toN3_later (history more : List LiteralValue) (n : Node) :
    (n.toN3 (N3.typeHashAfter (history ++ literals n ++ more))).1 = (n.toN3 (N3.typeHashAfter history)).1 := by
  cases n with
  | literal value hValue =>
    cases value with
    | null => cases hValue
    | plain text lang =>
      show (Node.literalToN3 _ (.plain text lang)).1 = (Node.literalToN3 _ (.plain text lang)).1
      simp only [Node.literalToN3, LiteralValue.isPlain, if_true]
      split <;> rfl
    | typed v u hTyped =>
      show (Node.literalToN3 _ (.typed v u hTyped)).1 = (Node.literalToN3 _ (.typed v u hTyped)).1
      rw [Virtuoso.fst_literalToN3, Virtuoso.fst_literalToN3, N3.lookup_typeHashAfter, N3.lookup_typeHashAfter]
      cases hFirst : N3.firstOfType history v.type with
      | some first => rw [N3.firstOfType_append (N3.firstOfType_append hFirst)]
      | none =>
        have hSelf : N3.firstOfType (history ++ literals (.literal (.typed v u hTyped) hValue)) v.type =
            some (.typed v u hTyped) := by
          unfold N3.firstOfType at hFirst ⊢
          rw [List.find?_append, hFirst]
          simp [literals, LiteralValue.isPlain, LiteralValue.type, LiteralValue.variant]
        rw [N3.firstOfType_append hSelf]
        rfl
  | _ => rfl

theorem meant_later (history more : List LiteralValue) (n : Node) :
    meant (history ++ literals n ++ more) n = meant history n := by
  rw [meant, toN3_later, meant]

theorem requested_later (history more : List LiteralValue) (s : Statement) :
    requested (history ++ literals s.object ++ more) s = requested history s := by
  rw [requested, meant_later, requested]

/-! ### Runs of requests -/

/-- The quads that are removed before the first request fails. -/
def leading {α : Type} : List (Option α) → List α
  | some a :: rest => a :: leading rest
  | _ => []

omit [Qt] in
theorem leading_map_some {α : Type} (l : List α) : leading (l.map some) = l := by
  induction l with
  | nil => rfl
  | cons a l ih => rw [List.map_cons, leading, ih]

omit [Qt] in
theorem length_leading_le {α : Type} (l : List (Option α)) : (leading l).length ≤ l.length := by
  induction l with
  | nil => exact le_rfl
  | cons a l ih =>
    cases a with
    | none => exact Nat.zero_le _
    | some a => exact Nat.succ_le_succ ih

omit [Qt] in
theorem mem_of_mem_leading {α : Type} {a : α} {l : List (Option α)} (h : a ∈ leading l) : some a ∈ l := by
  induction l with
  | nil => cases h
  | cons b l ih =>
    cases b with
    | none => cases h
    | some b =>
      rcases List.mem_cons.mp h with rfl | h
      · exact List.mem_cons_self
      · exact List.mem_cons_of_mem _ (ih h)

omit [Qt] in
/-- All requests are read, if none of the quads is missing. -/
theorem eq_map_some {α : Type} {l : List (Option α)} (h : l.length ≤ (leading l).length) :
    l = (leading l).map some := by
  induction l with
  | nil => rfl
  | cons a l ih =>
    cases a with
    | none => cases h
    | some a => rw [leading, List.map_cons, ← ih (Nat.le_of_succ_le_succ h)]

theorem delete_eq (history : List LiteralValue) (s : Statement) (store : Store) :
    store.delete (QString.arg "delete from %2".toList (statementToConstructGraphPattern history s true).1) =
      (request history s).map store.erase := by
  rw [arg_delete, fst_pattern, Store.delete, request]

theorem removeStatement_eq {s : Statement} (h : Shaped s) : m.removeStatement s =
    match request m.history s with
    | some r => (.errorNone, ⟨m.store.erase r, m.history ++ literals s.object⟩)
    | none => (.errorUnknown, { m with history := m.history ++ literals s.object }) := by
  obtain ⟨⟨g, hg, hContext⟩, hSubject, ⟨pr, hpr, hPredicate⟩, -⟩ := h.nodes
  have hLiterals : literals s.subject = [] := by
    rcases hSubject with ⟨u, hu, hEq⟩ | ⟨id, hId, hEq⟩ <;> rw [hEq] <;> rfl
  have hHistory : (statementToConstructGraphPattern m.history s true).2 = m.history ++ literals s.object := by
    rw [snd_pattern, hContext, hLiterals, hPredicate]
    simp only [literals, List.append_nil]
  have hValid : s.context.isValid = true := by
    rw [hContext]
    rfl
  rw [removeStatement, if_pos hValid]
  simp only [delete_eq, hHistory]
  cases request m.history s with
  | none => rfl
  | some r => rfl

theorem mem_erase {store : Store} {r : Quad Term} {q : Statement} :
    q ∈ (store.erase r).statements ↔ q ∈ store.statements ∧ quad q ≠ ground r := by
  rw [Store.erase, List.mem_filter]
  exact and_congr_right fun _ => decide_eq_true_iff

/-- The requests of a run remove what they are read for, as long as they are read. -/
theorem mem_removeEach {statements : List Statement} (h : ∀ s ∈ statements, Shaped s) (more : List LiteralValue)
    (q : Statement) : q ∈ (m.removeEach statements).2.store.statements ↔ q ∈ m.store.statements ∧
      quad q ∉ leading (statements.map
        (requested (m.history ++ statements.flatMap (literals ·.object) ++ more))) := by
  induction statements generalizing m more with
  | nil => exact (and_iff_left List.not_mem_nil).symm
  | cons s rest ih =>
    have hShaped := h s List.mem_cons_self
    have hTable : m.history ++ (s :: rest).flatMap (literals ·.object) ++ more =
        m.history ++ literals s.object ++ (rest.flatMap (literals ·.object) ++ more) := by
      rw [List.flatMap_cons, List.append_assoc, List.append_assoc, List.append_assoc]
    rw [removeEach, removeStatement_eq m hShaped, List.map_cons, hTable, requested_later, ← map_request hShaped]
    cases request m.history s with
    | none => exact (and_iff_left List.not_mem_nil).symm
    | some r =>
      dsimp only
      rw [ih _ (fun s hs => h s (List.mem_cons_of_mem _ hs)) more, mem_erase, Option.map_some, leading,
        List.mem_cons, not_or, and_assoc, ← List.append_assoc]

/-- A statement with a blank node is never removed. -/
theorem kept_of_blank {q : Statement} (hq : q ∈ m.store.statements)
    (hBlank : q.subject.isBlank = true ∨ q.object.isBlank = true) (s : Statement) :
    q ∈ (m.removeStatement s).2.store.statements := by
  have hRdf {n : Node} (hn : n.isBlank = true) (t : Term) : rdf n ≠ .term t := by
    cases n with
    | blank id hId => exact nofun
    | _ => cases hn
  have hGround (r : Quad Term) : quad q ≠ ground r := by
    intro hEq
    rcases hBlank with hSubject | hObject
    · exact hRdf hSubject _ (congrArg Quad.subject hEq)
    · exact hRdf hObject _ (congrArg Quad.object hEq)
  rw [removeStatement]
  split
  · simp only [delete_eq]
    cases request m.history s with
    | none => exact hq
    | some r => exact mem_erase.mpr ⟨hq, hGround r⟩
  · exact hq

theorem kept_in_run {q : Statement} (hBlank : q.subject.isBlank = true ∨ q.object.isBlank = true)
    (statements : List Statement) (hq : q ∈ m.store.statements) :
    q ∈ (m.removeEach statements).2.store.statements := by
  induction statements generalizing m with
  | nil => exact hq
  | cons s rest ih =>
    have hKept := m.kept_of_blank hq hBlank s
    rw [removeEach]
    split
    · rename_i hStep
      rw [hStep] at hKept
      exact ih _ hKept
    · exact hKept

/-- The literal that a term other than an IRI belongs to. -/
theorem rdf_eq_literal {n : Node} {t : Term} (h : rdf n = .term t) (hIri : ∀ u, t ≠ .iri u) :
    (∃ text lang hValid, n = .literal (.plain text lang) hValid ∧
      t = if lang.isEmpty then .plain text else .lang text lang.toString) ∨
    ∃ v u hTyped hValid, n = .literal (.typed v u hTyped) hValid ∧ t = .typed (LiteralValue.text v) u.encoded := by
  cases n with
  | resource u hu => exact absurd (Value.term.inj h).symm (hIri _)
  | literal value hValue =>
    cases value with
    | null => cases hValue
    | plain text lang => exact .inl ⟨text, lang, hValue, rfl, (Value.term.inj h).symm⟩
    | typed v u hTyped => exact .inr ⟨v, u, hTyped, hValue, rfl, (Value.term.inj h).symm⟩
  | _ => cases h

/-- A node whose text means another stored node: that one's text does, too. -/
theorem meant_image {table : List LiteralValue} {n n' : Node} (hTable : ∀ l ∈ literals n, l ∈ table)
    (hValid : n.isValid = true) (h : meant table n = some (rdf n')) : meant table n' = some (rdf n') := by
  cases n with
  | empty => cases hValid
  | blank id hId =>
    rw [meant_blank rfl] at h
    cases h
  | resource u hu =>
    obtain ⟨v, hv, rfl, -⟩ := rdf_eq_iri ((denotes_resource hu).mp (denotes_iff_meant.mpr h))
    exact denotes_iff_meant.mp ((denotes_resource hv).mpr rfl)
  | literal value hValue =>
    obtain ⟨t, hRead, hRdf⟩ := meant_eq_some.mp h
    cases value with
    | null => cases hValue
    | plain text lang =>
      cases hLang : lang.isEmpty with
      | true =>
        have hPlain : Virtuoso.Sparul.readText (Node.toN3 (N3.typeHashAfter table) (.literal (.plain text lang) rfl)).1 =
            some (.term (.plain text)) := Virtuoso.readText_plain text hLang
        obtain rfl := TermText.term.inj (Option.some.inj (hPlain.symm.trans hRead))
        rcases rdf_eq_literal hRdf (by rintro _ ⟨⟩) with ⟨text', lang', hValid', rfl, hEq⟩ | ⟨v, u, hTyped, hValid', rfl, hEq⟩
        · cases hLang' : lang'.isEmpty with
          | true => exact meant_eq_some.mpr ⟨_, Virtuoso.readText_plain text' hLang', by rw [rdf, if_pos hLang']⟩
          | false =>
            rw [hLang'] at hEq
            cases hEq
        · cases hEq
      | false =>
        obtain rfl := TermText.term.inj ((Virtuoso.readText_language (N3.typeHashAfter table) text hLang).1 _ hRead)
        rcases rdf_eq_literal hRdf (by rintro _ ⟨⟩) with ⟨text', lang', hValid', rfl, hEq⟩ | ⟨v, u, hTyped, hValid', rfl, hEq⟩
        · cases hLang' : lang'.isEmpty with
          | true =>
            rw [hLang'] at hEq
            cases hEq
          | false =>
            rw [hLang'] at hEq
            obtain ⟨rfl, hTag⟩ := Term.lang.inj hEq
            obtain rfl := LanguageTag.ext hTag
            exact h
        · cases hEq
    | typed v u hTyped =>
      obtain ⟨written, hStored, -, hWritten⟩ := Virtuoso.readText_typed table hTyped hValue
      obtain rfl := TermText.term.inj (Option.some.inj (hWritten.symm.trans hRead))
      rcases rdf_eq_literal hRdf (by rintro _ ⟨⟩) with ⟨text', lang', hValid', rfl, hEq⟩ | ⟨v', u', hTyped', hValid', rfl, hEq⟩
      · split at hEq <;> cases hEq
      · obtain ⟨hText, hType⟩ := Term.typed.inj hEq
        obtain rfl := QUrl.ext hType
        -- the data type says how values are stored, and the table has an entry for that type
        have hSame : v'.type = v.type := hTyped'.1.trans hStored
        obtain ⟨type, hLookup⟩ : ∃ type, (N3.typeHashAfter table).lookup v.type = some type := by
          rw [N3.lookup_typeHashAfter]
          cases hFirst : N3.firstOfType table v.type with
          | some first => exact ⟨_, rfl⟩
          | none =>
            have hNone := List.find?_eq_none.mp hFirst _ (hTable _ List.mem_cons_self)
            simp [LiteralValue.isPlain, LiteralValue.type, LiteralValue.variant] at hNone
        have hToN3 : ((Node.literal (.typed v' written hTyped') hValid').toN3 (N3.typeHashAfter table)).1 =
            ((Node.literal (.typed v u hTyped) hValue).toN3 (N3.typeHashAfter table)).1 := by
          show (Node.literalToN3 _ (.typed v' written hTyped')).1 = (Node.literalToN3 _ (.typed v u hTyped)).1
          rw [Virtuoso.fst_literalToN3, Virtuoso.fst_literalToN3, hSame, hLookup, hText]
          rfl
        rw [meant, hToN3, ← meant, h]

/-! ### Selecting what matches -/

/-- For a node that is no literal, a stored node has to be the same. -/
theorem part_iff_matches {history : List LiteralValue} {n n' : Node} (hBlank : n.isBlank = true → n'.isBlank = false)
    (hLiteral : n.isLiteral = true → n'.isLiteral = false) : Part history n n' ↔ n'.matches n = true := by
  cases n with
  | empty => exact iff_of_true (.inl rfl) rfl
  | resource u hu =>
    have hMatches : n'.matches (.resource u hu) = n'.operatorEq (.resource u hu) := rfl
    rw [hMatches]
    constructor
    · rintro (hEmpty | hDenotes)
      · cases hEmpty
      · obtain ⟨v, hv, rfl, hEncoded⟩ := rdf_eq_iri ((denotes_resource hu).mp hDenotes)
        exact decide_eq_true (QUrl.ext hEncoded)
    · intro hEq
      cases n' with
      | resource v hv =>
        obtain rfl : v = u := of_decide_eq_true hEq
        exact .inr ((denotes_resource hu).mpr rfl)
      | _ => cases hEq
  | literal value hValue =>
    have hNode := hLiteral rfl
    refine iff_of_false ?_ ?_
    · rintro (hEmpty | hDenotes)
      · cases hEmpty
      · exact not_denotes_literal hNode hDenotes
    · cases n' with
      | literal => cases hNode
      | _ => exact nofun
  | blank id hId =>
    have hNode := hBlank rfl
    refine iff_of_false ?_ ?_
    · rintro (hEmpty | hDenotes)
      · cases hEmpty
      · exact not_denotes_blank hId hDenotes
    · cases n' with
      | blank => cases hNode
      | _ => exact nofun

/-- A given node that a stored one matches is that node, unless they are literals. -/
theorem eq_of_matches {n n' : Node} (hLiteral : n'.isLiteral = false) (h : n'.matches n = true)
    (hValid : n.isValid = true) : n = n' := by
  cases n with
  | empty => cases hValid
  | resource u hu =>
    cases n' with
    | resource v hv =>
      obtain rfl : v = u := of_decide_eq_true h
      rfl
    | _ => cases h
  | blank id hId =>
    cases n' with
    | blank id' hId' =>
      obtain rfl : id' = id := of_decide_eq_true h
      rfl
    | _ => cases h
  | literal value hValue =>
    cases n' with
    | literal => cases hLiteral
    | _ => cases h

theorem stored_isBlank {q : Statement} (hq : q ∈ m.store.statements) :
    q.context.isBlank = false ∧ q.predicate.isBlank = false := by
  obtain ⟨⟨g, hg, hContext⟩, -, ⟨pr, hpr, hPredicate⟩, -⟩ :=
    Shaped.nodes ⟨m.store.valid q hq, m.store.named q hq⟩
  rw [hContext, hPredicate]
  exact ⟨rfl, rfl⟩

theorem matches_iff {p q : Statement} :
    q.matches p = true ↔ Around p q ∧ q.object.matches p.object = true := by
  simp only [Statement.matches, Around, Bool.and_eq_true]
  tauto

variable {m} in
theorem selected_iff_around {p q : Statement} (hSubject : p.subject.isBlank = false)
    (hObject : p.object.isBlank = false) (hq : q ∈ m.store.statements) :
    m.selected p q = true ↔ Around p q ∧ Part m.history p.object q.object := by
  obtain ⟨hContextNode, hSubjectNode, hPredicateNode⟩ := m.stored_nodes hq
  obtain ⟨hContextBlank, hPredicateBlank⟩ := m.stored_isBlank hq
  have hNoBlank : p.subject.isBlank = true → q.subject.isBlank = false := by
    rw [hSubject]
    exact nofun
  rw [(m.selected_iff hSubject hObject hq).1, part_iff_matches (fun _ => hContextBlank) (fun _ => hContextNode),
    part_iff_matches hNoBlank (fun _ => hSubjectNode),
    part_iff_matches (fun _ => hPredicateBlank) (fun _ => hPredicateNode), Around]
  tauto

variable {m} in
/-- Only a literal makes a difference between what is selected and what matches. -/
theorem selected_eq_matches_iff {p : Statement} (hSubject : p.subject.isBlank = false)
    (hObject : p.object.isBlank = false) :
    (∀ q ∈ m.store.statements, m.selected p q = q.matches p) ↔
      (p.object.isLiteral = true → ∀ q ∈ m.store.statements, Around p q →
        (Denotes m.history p.object q.object ↔ q.object.operatorEq p.object = true)) := by
  have hPart (q : Statement) (hLiteral : p.object.isLiteral = true) :
      (Part m.history p.object q.object ↔ Denotes m.history p.object q.object) ∧
        q.object.matches p.object = q.object.operatorEq p.object := by
    cases hNode : p.object with
    | literal value hValue => exact ⟨or_iff_right nofun, rfl⟩
    | _ =>
      rw [hNode] at hLiteral
      cases hLiteral
  constructor
  · intro hSame hLiteral q hq hAround
    obtain ⟨hDenotes, hMatches⟩ := hPart q hLiteral
    have hSelected := selected_iff_around hSubject hObject hq
    rw [hSame q hq, matches_iff, hMatches, hDenotes] at hSelected
    exact ⟨fun h => (hSelected.mpr ⟨hAround, h⟩).2, fun h => (hSelected.mp ⟨hAround, h⟩).2⟩
  · intro hLiteral q hq
    rw [Bool.eq_iff_iff, selected_iff_around hSubject hObject hq, matches_iff]
    refine and_congr_right fun hAround => ?_
    cases hNode : p.object.isLiteral with
    | true =>
      obtain ⟨hDenotes, hMatches⟩ := hPart q hNode
      rw [hDenotes, hMatches]
      exact hLiteral hNode q hq hAround
    | false =>
      refine part_iff_matches ?_ ?_
      · rw [hObject]
        exact nofun
      · rw [hNode]
        exact nofun

/-- The statement that is made of a selected one. -/
def listed (p q : Statement) : Statement :=
  if p.object.isValid then { q with object := p.object } else q

variable {m} in
theorem fill_eq_listed {p q : Statement} (hq : q ∈ m.store.statements) (h : Around p q) : fill p q = listed p q := by
  obtain ⟨hContextNode, hSubjectNode, hPredicateNode⟩ := m.stored_nodes hq
  obtain ⟨hSubject, hPredicate, hContext⟩ := h
  have hNode {n n' : Node} (hLiteral : n'.isLiteral = false) (hMatches : n'.matches n = true) :
      (if n.isValid then n else n') = n' := by
    split
    · exact eq_of_matches hLiteral hMatches ‹_›
    · rfl
  unfold fill listed
  dsimp only
  rw [hNode hSubjectNode hSubject, hNode hPredicateNode hPredicate, hNode hContextNode hContext]
  split <;> rfl

variable {m} in
theorem shaped_listed {q : Statement} (p : Statement) (hq : q ∈ m.store.statements) : Shaped (listed p q) := by
  have hValid := m.store.valid q hq
  have hNamed := m.store.named q hq
  unfold listed
  split
  · rename_i hObject
    refine ⟨?_, hNamed⟩
    unfold Statement.isValid at hValid ⊢
    dsimp only at hValid ⊢
    split at hValid
    · rename_i hContext
      rw [if_pos hContext]
      simp only [Bool.and_eq_true] at hValid ⊢
      exact ⟨⟨hValid.1.1, hObject⟩, hValid.2⟩
    · rename_i hContext
      rw [if_neg hContext]
      simp only [Bool.and_eq_true] at hValid ⊢
      exact ⟨hValid.1, hObject⟩
  · exact ⟨hValid, hNamed⟩

variable {m} in
theorem literals_around {p q : Statement} (hq : q ∈ m.store.statements) (h : Around p q) :
    literals p.context = [] ∧ literals p.subject = [] ∧ literals p.predicate = [] := by
  obtain ⟨hContextNode, hSubjectNode, hPredicateNode⟩ := m.stored_nodes hq
  obtain ⟨hSubject, hPredicate, hContext⟩ := h
  have hNode {n n' : Node} (hLiteral : n'.isLiteral = false) (hMatches : n'.matches n = true) : literals n = [] := by
    cases n with
    | literal =>
      cases n' with
      | literal => cases hLiteral
      | _ => cases hMatches
    | _ => rfl
  exact ⟨hNode hContextNode hContext, hNode hSubjectNode hSubject, hNode hPredicateNode hPredicate⟩

variable {m} in
theorem eq_of_quad {q r : Statement} (hq : q ∈ m.store.statements) (hr : r ∈ m.store.statements)
    (h : quad q = quad r) : q = r :=
  List.inj_on_of_nodup_map (List.pairwise_map.mpr m.store.distinct) hq hr h

/-- The statements that a pattern selects. -/
def selection (p : Statement) : List Statement := m.store.statements.filter (m.selected p)

theorem mem_selection {p q : Statement} :
    q ∈ m.selection p ↔ q ∈ m.store.statements ∧ m.selected p q = true := List.mem_filter

theorem mem_matching {p q : Statement} :
    q ∈ m.matching p ↔ q ∈ m.store.statements ∧ q.matches p = true := List.mem_filter

theorem nodup_matching (p : Statement) : ((m.matching p).map quad).Nodup :=
  List.pairwise_map.mpr (m.store.distinct.filter _)

variable {m} in
theorem length_matching {p : Statement} (h : m.Selects p) : (m.matching p).length = (m.selection p).length := by
  obtain ⟨l, hPerm, hListed⟩ := h.lists
  rw [← hPerm.length_eq, hListed.length_eq, listStatements_eq, List.length_map, selection]

/-! ### What is listed and requested -/

section Pattern

variable {m} {p : Statement} (hSubject : p.subject.isBlank = false) (hObject : p.object.isBlank = false)

include hSubject hObject

theorem list_eq : (m.listStatements p).1 = (m.selection p).map (listed p) := by
  rw [listStatements_eq, selection]
  refine List.map_congr_left fun q hq => ?_
  obtain ⟨hStored, hSelected⟩ := m.mem_selection.mp hq
  rw [(m.selected_iff hSubject hObject hStored).2 hSelected,
    fill_eq_listed hStored ((selected_iff_around hSubject hObject hStored).mp hSelected).1]

/-- What is requested for a selected statement, once all texts have been written. -/
def wanted (m : SparqlModel) (p q : Statement) : Option (Quad Value) :=
  requested (m.history ++ literals p.object ++ (m.selection p).flatMap fun q => literals (listed p q).object)
    (listed p q)

omit hSubject hObject in
theorem wanted_eq (q : Statement) : wanted m p q =
    if q.subject.isBlank then none
    else (meant (m.history ++ literals p.object ++ (m.selection p).flatMap fun q => literals (listed p q).object)
      (if p.object.isValid then p.object else q.object)).map fun object => { quad q with object } := by
  unfold wanted requested listed
  cases p.object.isValid <;> rfl

omit hSubject hObject in
theorem removeAllStatements_eq (hPart : ¬ (p.isValid && p.context.isValid) = true) :
    m.removeAllStatements p = (m.listStatements p).2.removeEach (m.listStatements p).1 := by
  rw [removeAllStatements, if_neg hPart]

omit hSubject hObject in
theorem store_listStatements (p : Statement) : (m.listStatements p).2.store = m.store := by
  rw [listStatements]

/-- What is left once each listed statement has been requested for removal. -/
theorem mem_removeAllStatements (hPart : ¬ (p.isValid && p.context.isValid) = true) (q : Statement) :
    q ∈ (m.removeAllStatements p).2.store.statements ↔
      q ∈ m.store.statements ∧ quad q ∉ leading ((m.selection p).map (wanted m p)) := by
  rw [removeAllStatements_eq hPart, list_eq hSubject hObject]
  have hShaped : ∀ s ∈ (m.selection p).map (listed p), Shaped s := by
    intro s hs
    obtain ⟨q, hq, rfl⟩ := List.mem_map.mp hs
    exact shaped_listed p (m.mem_selection.mp hq).1
  rw [mem_removeEach _ hShaped [], List.append_nil, List.map_map, List.flatMap_map]
  refine and_congr Iff.rfl (not_congr (iff_of_eq (congrArg _ (congrArg leading ?_))))
  refine List.map_congr_left fun q hq => ?_
  obtain ⟨hStored, hSelected⟩ := m.mem_selection.mp hq
  obtain ⟨hContextNil, hSubjectNil, hPredicateNil⟩ :=
    literals_around hStored ((selected_iff_around hSubject hObject hStored).mp hSelected).1
  have hHistory : (m.listStatements p).2.history = m.history ++ literals p.object := by
    show (statementToConstructGraphPattern m.history p true).2 = _
    rw [snd_pattern, hContextNil, hSubjectNil, hPredicateNil, List.append_nil, List.append_nil, List.append_nil]
  rw [hHistory]
  rfl

end Pattern

/-! ### Blank nodes -/

section Selects

variable {m} {p : Statement}

theorem isBlank_of_matches {n n' : Node} (hBlank : n.isBlank = true) (h : n'.matches n = true) : n'.isBlank = true := by
  cases n with
  | blank =>
    cases n' with
    | blank => rfl
    | _ => cases h
  | _ => cases hBlank

theorem shaped_of_isValid (h : (p.isValid && p.context.isValid) = true) : Shaped p := by
  obtain ⟨hValid, hContext⟩ := Bool.and_eq_true_iff.mp h
  refine ⟨hValid, ?_⟩
  rw [Statement.isValid, if_pos hContext] at hValid
  exact (Bool.and_eq_true_iff.mp hValid).2

/-- What has a blank node stays. -/
theorem kept {q : Statement} (hq : q ∈ m.store.statements) (hBlank : q.subject.isBlank = true ∨ q.object.isBlank = true) :
    q ∈ (m.removeAllStatements p).2.store.statements := by
  by_cases hWhole : (p.isValid && p.context.isValid) = true
  · rw [removeAllStatements, if_pos hWhole]
    exact m.kept_of_blank hq hBlank p
  · rw [removeAllStatements_eq hWhole]
    refine kept_in_run _ hBlank _ ?_
    rw [store_listStatements]
    exact hq

/-- What matches has no blank nodes, if it is removed. -/
theorem not_blank_of_selects (h : m.Selects p) {q : Statement} (hq : q ∈ m.store.statements)
    (hMatches : q.matches p = true) : q.subject.isBlank = false ∧ q.object.isBlank = false := by
  have hGone : ¬ (q.subject.isBlank = true ∨ q.object.isBlank = true) := by
    intro hBlank
    have hKept := ((h.removes q).mp (kept hq hBlank)).2
    rw [hMatches] at hKept
    cases hKept
  rw [not_or, Bool.not_eq_true, Bool.not_eq_true] at hGone
  exact hGone

theorem contains_iff : (m.containsAnyStatement p).1 = true ↔ ∃ q ∈ m.store.statements, m.selected p q = true := by
  rw [containsAnyStatement_eq, List.any_eq_true]

theorem matching_ne_nil : m.matching p ≠ [] ↔ ∃ q ∈ m.store.statements, q.matches p = true := by
  rw [matching, ne_eq, List.filter_eq_nil_iff]
  push Not
  rfl

/-- A pattern with a blank node has to find nothing. -/
theorem selects_iff_of_blank (h : p.subject.isBlank = true ∨ p.object.isBlank = true) :
    m.Selects p ↔ ∀ q ∈ m.store.statements, m.selected p q = false ∧ q.matches p = false := by
  constructor
  · intro hSelects
    have hNone : ∀ q ∈ m.store.statements, q.matches p = false := by
      refine fun q hq => Bool.eq_false_iff.mpr fun hMatches => ?_
      obtain ⟨hSubject, hObject⟩ := not_blank_of_selects hSelects hq hMatches
      rw [matches_iff, Around] at hMatches
      rcases h with hBlank | hBlank
      · exact Bool.false_ne_true (hSubject.symm.trans (isBlank_of_matches hBlank hMatches.1.1))
      · exact Bool.false_ne_true (hObject.symm.trans (isBlank_of_matches hBlank hMatches.2))
    refine fun q hq => ⟨Bool.eq_false_iff.mpr fun hSelected => ?_, hNone q hq⟩
    obtain ⟨r, hr, hMatches⟩ := matching_ne_nil.mp (hSelects.contains.mp (contains_iff.mpr ⟨q, hq, hSelected⟩))
    exact Bool.false_ne_true ((hNone r hr).symm.trans hMatches)
  · intro hNone
    have hList : (m.listStatements p).1 = [] := by
      rw [listStatements_eq, List.filter_eq_nil_iff.mpr fun q hq => Bool.eq_false_iff.mp (hNone q hq).1]
      rfl
    have hMatching : m.matching p = [] := List.filter_eq_nil_iff.mpr fun q hq => Bool.eq_false_iff.mp (hNone q hq).2
    have hStore : (m.removeAllStatements p).2.store = m.store := by
      by_cases hWhole : (p.isValid && p.context.isValid) = true
      · have hShaped := shaped_of_isValid hWhole
        rw [removeAllStatements, if_pos hWhole, removeStatement_eq m hShaped, request_blank hShaped h]
      · rw [removeAllStatements_eq hWhole, hList, removeEach, store_listStatements]
    refine ⟨⟨[], by rw [hMatching], by rw [hList]; exact .nil⟩, ?_, fun q => ?_⟩
    · rw [contains_iff, hMatching]
      exact iff_of_false (fun ⟨q, hq, hSelected⟩ => Bool.false_ne_true ((hNone q hq).1.symm.trans hSelected))
        (fun hNe => hNe rfl)
    · rw [hStore]
      exact ⟨fun hq => ⟨hq, (hNone q hq).2⟩, And.left⟩

/-! ### Other patterns -/

variable (hSubject : p.subject.isBlank = false) (hObject : p.object.isBlank = false)

include hSubject hObject

/-- A request for a whole statement removes what the pattern selects. -/
theorem mem_removeAllStatements_whole (hWhole : (p.isValid && p.context.isValid) = true) (q : Statement) :
    q ∈ (m.removeAllStatements p).2.store.statements ↔ q ∈ m.store.statements ∧ m.selected p q = false := by
  have hShaped := shaped_of_isValid hWhole
  obtain ⟨⟨g, hg, hContext⟩, hNode, ⟨pr, hpr, hPredicate⟩, hValid⟩ := hShaped.nodes
  have hResource : ∃ u hu, p.subject = .resource u hu := by
    refine hNode.resolve_right ?_
    rintro ⟨id, hId, hEq⟩
    rw [hEq] at hSubject
    cases hSubject
  obtain ⟨u, hu, hNode⟩ := hResource
  have hSelected (hq : q ∈ m.store.statements) : m.selected p q = true ↔ requested m.history p = some (quad q) := by
    have hPart {n n' : Node} {u : QUrl} {hu} (hEq : n = .resource u hu) :
        Part m.history n n' ↔ rdf n = rdf n' := by
      rw [hEq, Part, denotes_resource hu]
      exact ⟨fun h => (h.resolve_left nofun).symm, fun h => .inr h.symm⟩
    have hObjectPart : Part m.history p.object q.object ↔ meant m.history p.object = some (rdf q.object) := by
      rw [Part, denotes_iff_meant]
      exact or_iff_right (by rw [hValid]; exact nofun)
    rw [(m.selected_iff hSubject hObject hq).1, hPart hContext, hPart hNode, hPart hPredicate, hObjectPart, requested,
      if_neg (by rw [hSubject]; exact Bool.false_ne_true), Option.map_eq_some_iff]
    simp only [quad, Quad.mk.injEq]
    constructor
    · rintro ⟨hG, hS, hP, hO⟩
      exact ⟨_, hO, hG, hS, hP, rfl⟩
    · rintro ⟨_, hO, hG, hS, hP, rfl⟩
      exact ⟨hG, hS, hP, hO⟩
  rw [removeAllStatements, if_pos hWhole, removeStatement_eq m hShaped]
  have hRequest : (request m.history p).map ground = _ := map_request hShaped
  cases hRead : request m.history p with
  | none =>
    rw [hRead] at hRequest
    refine ⟨fun hq => ⟨hq, Bool.eq_false_iff.mpr fun h => ?_⟩, And.left⟩
    rw [hSelected hq, ← hRequest] at h
    cases h
  | some r =>
    rw [hRead, Option.map_some] at hRequest
    dsimp only
    rw [mem_erase]
    refine and_congr_right fun hq => ?_
    rw [Bool.eq_false_iff]
    refine not_congr ?_
    rw [hSelected hq, ← hRequest, Option.some.injEq, eq_comm]

/-- With a given object, what is requested is the selected statement. -/
theorem wanted_given (hValid : p.object.isValid = true) {q : Statement} (hq : q ∈ m.selection p) :
    wanted m p q = if q.subject.isBlank then none else some (quad q) := by
  obtain ⟨hStored, hSelected⟩ := m.mem_selection.mp hq
  have hPart := ((selected_iff_around hSubject hObject hStored).mp hSelected).2
  have hMeant : meant m.history p.object = some (rdf q.object) :=
    denotes_iff_meant.mp (hPart.resolve_left (by rw [hValid]; exact nofun))
  rw [wanted_eq, if_pos hValid, meant_later, hMeant]
  rfl

/-- What is selected is what matches, if that is what is removed. -/
theorem selected_of_selects (h : m.Selects p) : ∀ q ∈ m.store.statements, m.selected p q = q.matches p := by
  by_cases hWhole : (p.isValid && p.context.isValid) = true
  · intro q hq
    have hRemoved := h.removes q
    rw [mem_removeAllStatements_whole hSubject hObject hWhole, and_congr_right_iff] at hRemoved
    have hSame := hRemoved hq
    cases hMatches : q.matches p with
    | false => exact hSame.mpr hMatches
    | true =>
      rw [← Bool.not_eq_false, hSame, hMatches]
      exact Bool.noConfusion
  · cases hValid : p.object.isValid with
    | false =>
      refine (selected_eq_matches_iff hSubject hObject).mpr fun hLiteral => ?_
      cases hNode : p.object with
      | empty =>
        rw [hNode] at hLiteral
        cases hLiteral
      | _ =>
        rw [hNode] at hValid
        cases hValid
    | true =>
      have hSubset : m.matching p ⊆ m.selection p := by
        intro q hq
        obtain ⟨hStored, hMatches⟩ := m.mem_matching.mp hq
        have hRemoved := (h.removes q).not.mpr (by rw [hMatches]; exact fun hKept => Bool.noConfusion hKept.2)
        rw [mem_removeAllStatements hSubject hObject hWhole, not_and, not_not] at hRemoved
        obtain ⟨r, hr, hWanted⟩ := List.mem_map.mp (mem_of_mem_leading (hRemoved hStored))
        rw [wanted_given hSubject hObject hValid hr] at hWanted
        split at hWanted
        · cases hWanted
        · obtain rfl := eq_of_quad (m.mem_selection.mp hr).1 hStored (Option.some.inj hWanted)
          exact hr
      have hNodup : (m.matching p).Nodup := List.Nodup.of_map quad (m.nodup_matching p)
      have hPerm := (hNodup.subperm hSubset).perm_of_length_le (length_matching h).ge
      intro q hq
      rw [Bool.eq_iff_iff]
      have hMem := hPerm.mem_iff (a := q)
      rw [mem_matching, mem_selection, and_congr_right_iff] at hMem
      exact (hMem hq).symm

omit hSubject hObject in
/-- With a wildcard for the object, each is written as it is stored. -/
theorem wanted_wild (hEmpty : p.object.isEmpty = true) (hSame : m.selection p = m.matching p) (q : Statement) :
    wanted m p q = if q.subject.isBlank then none
    else (meant (m.historyAfter p) q.object).map fun object => { quad q with object } := by
  have hValid : ¬ p.object.isValid = true := by
    rw [Node.isValid, hEmpty]
    exact Bool.false_ne_true
  have hListed (q : Statement) : listed p q = q := if_neg hValid
  rw [wanted_eq, if_neg hValid, hSame, historyAfter]
  simp only [hListed]

/-- If all that matches is removed, each object has been written as itself: a request for another statement would
be made twice. -/
theorem denotes_of_selects (h : m.Selects p) (hEmpty : p.object.isEmpty = true) {q : Statement}
    (hq : q ∈ m.matching p) : Denotes (m.historyAfter p) q.object q.object := by
  have hSame : m.selection p = m.matching p := List.filter_congr (selected_of_selects hSubject hObject h)
  have hPart : ¬ (p.isValid && p.context.isValid) = true := by
    cases hNode : p.object with
    | empty => simp [Statement.isValid, Node.isValid, hNode, Node.isEmpty, Node.type]
    | _ =>
      rw [hNode] at hEmpty
      cases hEmpty
  have hRemoved : (m.matching p).map quad ⊆ leading ((m.matching p).map (wanted m p)) := by
    intro v hv
    obtain ⟨r, hr, rfl⟩ := List.mem_map.mp hv
    obtain ⟨hStored, hMatches⟩ := m.mem_matching.mp hr
    have hGone := (h.removes r).not.mpr (by rw [hMatches]; exact fun hKept => Bool.noConfusion hKept.2)
    rw [mem_removeAllStatements hSubject hObject hPart, not_and, not_not, hSame] at hGone
    exact hGone hStored
  have hLength : (leading ((m.matching p).map (wanted m p))).length ≤ ((m.matching p).map quad).length := by
    refine (length_leading_le _).trans ?_
    rw [List.length_map, List.length_map]
  have hPerm := ((m.nodup_matching p).subperm hRemoved).perm_of_length_le hLength
  have hAll : (m.matching p).map (wanted m p) = (leading ((m.matching p).map (wanted m p))).map some := by
    refine eq_map_some ?_
    rw [← hPerm.length_eq, List.length_map, List.length_map]
  have hNodup : ((m.matching p).map (wanted m p)).Nodup := by
    rw [hAll]
    exact (hPerm.nodup_iff.mp (m.nodup_matching p)).map (Option.some_injective _)
  -- what is requested for a statement is some other that matches
  have hWanted {r : Statement} (hr : r ∈ m.matching p) : ∃ r' ∈ m.matching p, r.subject.isBlank = false ∧
      meant (m.historyAfter p) r.object = some (rdf r'.object) ∧ wanted m p r = some (quad r') ∧
        quad r' = { quad r with object := rdf r'.object } := by
    have hMem : wanted m p r ∈ (m.matching p).map (wanted m p) := List.mem_map_of_mem hr
    rw [hAll] at hMem
    obtain ⟨v, hv, hEq⟩ := List.mem_map.mp hMem
    obtain ⟨r', hr', rfl⟩ := List.mem_map.mp (hPerm.mem_iff.mpr hv)
    have hRequest := hEq.symm
    rw [wanted_wild hEmpty hSame] at hRequest
    split at hRequest
    · cases hRequest
    · rename_i hNode
      obtain ⟨w, hMeant, hQuad⟩ := Option.map_eq_some_iff.mp hRequest
      obtain rfl : w = rdf r'.object := congrArg Quad.object hQuad
      exact ⟨r', hr', Bool.eq_false_iff.mpr hNode, hMeant, hEq.symm, hQuad.symm⟩
  obtain ⟨r, hr, -, hMeant, hRequest, -⟩ := hWanted hq
  have hTable : ∀ l ∈ literals q.object, l ∈ m.historyAfter p := fun l hl =>
    List.mem_append_right _ (List.mem_flatMap.mpr ⟨q, hq, hl⟩)
  have hValid := (Shaped.nodes ⟨m.store.valid q (m.mem_matching.mp hq).1, m.store.named q (m.mem_matching.mp hq).1⟩).2.2.2
  have hImage := meant_image hTable hValid hMeant
  obtain ⟨r', -, -, hMeant', hRequest', hQuad⟩ := hWanted hr
  obtain hObjectEq : rdf r.object = rdf r'.object := Option.some.inj (hImage.symm.trans hMeant')
  have hSelf : wanted m p r = some (quad r) := by
    rw [hRequest', hQuad, ← hObjectEq]
    rfl
  obtain rfl := List.inj_on_of_nodup_map hNodup hq hr (hRequest.trans hSelf.symm)
  exact denotes_iff_meant.mpr hImage

theorem selects_of_plain (h : m.Plain p) : m.Selects p := by
  have hSame := (selected_eq_matches_iff hSubject hObject).mpr (h.literal hSubject)
  have hSelection : m.selection p = m.matching p := List.filter_congr hSame
  refine ⟨⟨_, .refl _, ?_⟩, ?_, fun q => ?_⟩
  · rw [list_eq hSubject hObject, hSelection, List.forall₂_map_right_iff, List.forall₂_same]
    intro q hq
    obtain ⟨-, hMatches⟩ := m.mem_matching.mp hq
    unfold listed
    split
    · rename_i hValid
      refine ⟨.inl rfl, .inl rfl, .inr ?_, .inl rfl⟩
      have hEmpty : p.object.isEmpty = false := by simpa [Node.isValid] using hValid
      simpa [Node.matches, hEmpty] using (matches_iff.mp hMatches).2
    · exact ⟨.inl rfl, .inl rfl, .inl rfl, .inl rfl⟩
  · rw [contains_iff, matching_ne_nil]
    exact exists_congr fun q => and_congr_right fun hq => by rw [hSame q hq]
  · by_cases hWhole : (p.isValid && p.context.isValid) = true
    · rw [mem_removeAllStatements_whole hSubject hObject hWhole]
      exact and_congr_right fun hq => by rw [hSame q hq]
    · have hWanted : ∀ q ∈ m.matching p, wanted m p q = some (quad q) := by
        intro q hq
        obtain ⟨hNode, -, hDenotes⟩ := h.removable hSubject hObject q hq
        cases hEmpty : p.object.isEmpty with
        | true =>
          rw [wanted_wild hEmpty hSelection, hNode, denotes_iff_meant.mp (hDenotes hEmpty)]
          rfl
        | false =>
          have hValid : p.object.isValid = true := by
            rw [Node.isValid, hEmpty]
            rfl
          rw [wanted_given hSubject hObject hValid (hSelection ▸ hq), hNode]
          rfl
      rw [mem_removeAllStatements hSubject hObject hWhole, hSelection, List.map_congr_left hWanted,
        ← Function.comp_def some quad, ← List.map_map, leading_map_some]
      refine and_congr_right fun hq => ?_
      rw [← Bool.not_eq_true]
      refine not_congr ⟨fun hMem => ?_, fun hMatches => List.mem_map_of_mem (m.mem_matching.mpr ⟨hq, hMatches⟩)⟩
      obtain ⟨r, hr, hEq⟩ := List.mem_map.mp hMem
      obtain ⟨hStored, hMatches⟩ := m.mem_matching.mp hr
      rwa [← eq_of_quad hStored hq hEq]

omit hSubject hObject in
/-- A pattern selects what matches exactly if it is plain. -/
theorem selects_iff (m : SparqlModel) (p : Statement) : m.Selects p ↔ m.Plain p := by
  by_cases hBlank : p.subject.isBlank = true ∨ p.object.isBlank = true
  · rw [selects_iff_of_blank hBlank]
    refine ⟨fun hNone => ⟨fun _ => hNone, fun hSubject hLiteral => ?_, fun hSubject hObject => ?_⟩,
      fun hPlain => hPlain.blank hBlank⟩
    · have hObject := hBlank.resolve_left (by rw [hSubject]; exact Bool.false_ne_true)
      cases hNode : p.object with
      | literal =>
        rw [hNode] at hObject
        cases hObject
      | _ =>
        rw [hNode] at hLiteral
        cases hLiteral
    · rw [hSubject, hObject] at hBlank
      exact absurd hBlank (by decide)
  · obtain ⟨hSubject, hObject⟩ := not_or.mp hBlank
    rw [Bool.not_eq_true] at hSubject hObject
    refine ⟨fun hSelects => ⟨fun hNode => absurd hNode hBlank, fun _ =>
      (selected_eq_matches_iff hSubject hObject).mp (selected_of_selects hSubject hObject hSelects), ?_⟩,
      selects_of_plain hSubject hObject⟩
    intro _ _ q hq
    obtain ⟨hStored, hMatches⟩ := m.mem_matching.mp hq
    obtain ⟨hNode, hNode'⟩ := not_blank_of_selects hSelects hStored hMatches
    exact ⟨hNode, hNode', fun hEmpty => denotes_of_selects hSubject hObject hSelects hEmpty hq⟩

end Selects

end SparqlModel

end Qt

section Example

local instance sparqlSelectionQt : Qt := asciiQt

namespace SparqlModel

theorem legal_x : "urn:x".toList.all isUrlChar = true := by decide

theorem legal_p : "urn:p".toList.all isUrlChar = true := by decide

theorem legal_o : "urn:o".toList.all isUrlChar = true := by decide

theorem legal_g : "urn:g".toList.all isUrlChar = true := by decide

/-- A new client of an endpoint with one statement. -/
def oneStatement : SparqlModel where
  store :=
    { statements := [⟨.ofUri (QUrl.ofString "urn:x" legal_x), .ofUri (QUrl.ofString "urn:p" legal_p),
        .ofUri (QUrl.ofString "urn:o" legal_o), .ofUri (QUrl.ofString "urn:g" legal_g)⟩]
      valid := by decide
      named := by decide
      distinct := List.pairwise_singleton _ _ }
  history := []

/-- Any statement about the blank node `b`. -/
def aboutBlank : Statement := ⟨.blank ['b'] rfl, .empty, .empty, .empty⟩

/-- The blank node of a pattern stands for any subject. -/
theorem not_selects : ¬ oneStatement.Selects aboutBlank := by
  intro h
  have hBlank : aboutBlank.subject.isBlank = true := rfl
  obtain ⟨hSelected, -⟩ := (selects_iff_of_blank (.inl hBlank)).mp h _ List.mem_cons_self
  have hPattern : readPattern [] aboutBlank = some ⟨.variable ['g'], .blank ['b'], .variable ['p'], .variable ['o']⟩ :=
    readPattern_iff.mpr ((readGraph_iff local_readVarOrTerm (readsPlace_variable (by decide) (by decide)).1
      (readsPlace_blank (by decide) (by decide)) (readsPlace_variable (by decide) (by decide)).1).mpr
        ⟨_, (readsPlace_variable (by decide) (by decide)).2, rfl⟩)
  rw [selected_eq, show oneStatement.history = [] from rfl, hPattern, Option.any_some] at hSelected
  exact absurd hSelected (by simp [fits, places])

end SparqlModel

end Example

end Client

end Soprano
