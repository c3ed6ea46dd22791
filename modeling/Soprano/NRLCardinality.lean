import Mathlib.Data.List.Perm.Subperm
import Soprano.Library.Runs
import Soprano.NRLModel

/-! What `addNrlStatement` enforces: no subject has more values of a predicate than its maximum. The
cardinalities come from a query, in whose text the predicate is spelled as it is shown. -/

namespace Soprano

namespace NRLModel

open Inference Vocabulary Runs

section Qt

variable [Qt]

/-! ### The query -/

/-- The query for the cardinalities of the resource with that IRI. -/
def cardinalityText (iri : QString) : QString :=
  "select ?min ?max ?c where \x7b \x7b <".toList ++ (iri ++ '>' :: ' ' :: '<' ::
    (NRL.minCardinality.encoded ++ '>' :: (" ?min \x7d UNION \x7b <".toList ++ (iri ++ '>' :: ' ' :: '<' ::
    (NRL.maxCardinality.encoded ++ '>' :: (" ?max \x7d UNION \x7b <".toList ++ (iri ++ '>' :: ' ' :: '<' ::
    (NRL.cardinality.encoded ++ '>' :: " ?c \x7d \x7d".toList))))))))

/-- The variables of the query, and what they are values of. -/
def columns : List (QString × QUrl) :=
  [("min".toList, NRL.minCardinality), ("max".toList, NRL.maxCardinality), ("c".toList, NRL.cardinality)]

/-- The values of a row that binds one variable. -/
def single (name : QString) (n : Node) : QString → Node := Function.update (fun _ => .empty) name n

/-- The parent answers the query: there is a row for each statement about the resource. -/
structure AnswersCardinalities (select : QString → Store → List BindingSet) : Prop where
  sound : ∀ {u store row}, row ∈ select (cardinalityText u.encoded) store →
    ∃ q ∈ store, q.subject = .ofUri u ∧ ∃ column ∈ columns, q.predicate = .ofUri column.2 ∧
      row.value = single column.1 q.object
  complete : ∀ {u store q column}, u.isEmpty = false → q ∈ store → q.subject = .ofUri u →
    column ∈ columns → q.predicate = .ofUri column.2 →
    ∃ row ∈ select (cardinalityText u.encoded) store, row.value = single column.1 q.object

/-- The predicate is shown as its IRI, and no percent escape in it is taken for a place marker. -/
structure Spelled (p : QUrl) : Prop where
  text : Qt.urlToString p = p.encoded
  markers : QString.MarkersAbove 4 p.encoded

set_option maxRecDepth 2000 in
omit [Qt] in
theorem cardinalityTemplate_arg (p : QString) :
    QString.arg cardinalityTemplate p =
      "select ?min ?max ?c where \x7b \x7b <".toList ++ (p ++ '>' :: ' ' :: '<' :: '%' :: '2' :: '>' ::
        (" ?min \x7d UNION \x7b <".toList ++ (p ++ '>' :: ' ' :: '<' :: '%' :: '3' :: '>' ::
        (" ?max \x7d UNION \x7b <".toList ++ (p ++ '>' :: ' ' :: '<' :: '%' :: '4' :: '>' ::
        " ?c \x7d \x7d".toList))))) := (rfl)

omit [Qt] in
/-- The predicate stands in three places, each before the marker of another name. -/
theorem arg_columns {p a b c head rest₁ rest₂ rest₃ : QString} (hp : QString.MarkersAbove 4 p)
    (hHead : '%' ∉ head) (h₁ : '%' ∉ rest₁) (h₂ : '%' ∉ rest₂) (h₃ : '%' ∉ rest₃) (ha : '%' ∉ a)
    (hb : '%' ∉ b) :
    QString.arg (QString.arg (QString.arg
      (head ++ (p ++ '>' :: ' ' :: '<' :: '%' :: '2' :: '>' :: (rest₁ ++ (p ++
        '>' :: ' ' :: '<' :: '%' :: '3' :: '>' :: (rest₂ ++ (p ++
        '>' :: ' ' :: '<' :: '%' :: '4' :: '>' :: rest₃)))))) a) b) c =
    head ++ (p ++ '>' :: ' ' :: '<' :: (a ++ '>' :: (rest₁ ++ (p ++
      '>' :: ' ' :: '<' :: (b ++ '>' :: (rest₂ ++ (p ++ '>' :: ' ' :: '<' :: (c ++ '>' :: rest₃)))))))) := by
  have hMarkers (k : Nat) (hk : k ≤ 4) : QString.MarkersAbove k p := hp.mono hk
  -- what stands in front of a marker, and behind it
  have hName {k : Nat} {s t : QString} (hk : k ≤ 4) (hs : '%' ∉ s) (ht : QString.MarkersAbove k ('>' :: t)) :
      QString.MarkersAbove k (s ++ (p ++ '>' :: t)) := .of_notMem_append hs ((hMarkers k hk).append rfl ht)
  have hBracket {k : Nat} {t : QString} (ht : QString.MarkersAbove k t) :
      QString.MarkersAbove k ('>' :: ' ' :: '<' :: t) :=
    ((ht.cons (by decide)).cons (by decide)).cons (by decide)
  have hEnd {k : Nat} : QString.MarkersAbove k ('>' :: rest₃) :=
    (QString.markersAbove_of_notMem h₃).cons (by decide)
  have hLast {k : Nat} (hk : k < 4) : QString.MarkersAbove k
      ('>' :: (rest₂ ++ (p ++ '>' :: ' ' :: '<' :: '%' :: '4' :: '>' :: rest₃))) :=
    (hName (by omega) h₂ (hBracket (.marker rfl hk rfl hEnd))).cons (by decide)
  have hMiddle {k : Nat} (hk : k < 3) : QString.MarkersAbove k
      ('>' :: (rest₁ ++ (p ++ '>' :: ' ' :: '<' :: '%' :: '3' :: '>' :: (rest₂ ++ (p ++
        '>' :: ' ' :: '<' :: '%' :: '4' :: '>' :: rest₃))))) :=
    (hName (by omega) h₁ (hBracket (.marker rfl hk rfl (hLast (by omega))))).cons (by decide)
  have hSpace {k : Nat} : QString.MarkersAbove k ['>', ' '] := QString.markersAbove_of_notMem (by decide)
  have hStart : QString.MarkersAbove 4 (head ++ (p ++ ['>', ' '])) := hName (Nat.le_refl 4) hHead hSpace
  have hSecondStart : QString.MarkersAbove 4
      (head ++ (p ++ '>' :: ' ' :: '<' :: (a ++ '>' :: (rest₁ ++ (p ++ ['>', ' ']))))) :=
    hName (Nat.le_refl 4) hHead (hBracket (.of_notMem_append ha
      ((hName (Nat.le_refl 4) h₁ hSpace).cons (by decide))))
  have hThirdStart : QString.MarkersAbove 4
      (head ++ (p ++ '>' :: ' ' :: '<' :: (a ++ '>' :: (rest₁ ++ (p ++
        '>' :: ' ' :: '<' :: (b ++ '>' :: (rest₂ ++ (p ++ ['>', ' ']))))))))  :=
    hName (Nat.le_refl 4) hHead (hBracket (.of_notMem_append ha
      ((hName (Nat.le_refl 4) h₁ (hBracket (.of_notMem_append hb
        ((hName (Nat.le_refl 4) h₂ hSpace).cons (by decide))))).cons (by decide))))
  have hFirst := QString.arg_once (a := a) (d := '<') (m := '2') (e := '>') rfl
    (hStart.mono (by decide)) rfl rfl (hMiddle (by decide)) rfl
  have hSecond := QString.arg_once (a := b) (d := '<') (m := '3') (e := '>') rfl
    (hSecondStart.mono (by decide)) rfl rfl (hLast (by decide)) rfl
  have hThird := QString.arg_once (a := c) (d := '<') (m := '4') (e := '>') rfl hThirdStart rfl rfl
    hEnd rfl
  simp only [List.append_assoc, List.cons_append, List.nil_append] at hFirst hSecond hThird
  rw [hFirst, hSecond, hThird]

open QString in
theorem cardinalityQuery_eq {p : QUrl} (hp : p.isEmpty = false) (h : Spelled p) :
    cardinalityQuery (.ofUri p) = cardinalityText p.encoded := by
  have hText : (Node.ofUri p).toString = p.encoded := by
    rw [Node.ofUri_self p hp]
    exact h.text
  have hMin : '%' ∉ NRL.minCardinality.encoded := by decide
  have hMax : '%' ∉ NRL.maxCardinality.encoded := by decide
  have hC : '%' ∉ NRL.cardinality.encoded := by decide
  rw [cardinalityQuery, hText, Qt.urlToString_plain _ hMin, Qt.urlToString_plain _ hMax,
    Qt.urlToString_plain _ hC, cardinalityTemplate_arg,
    arg_columns h.markers (by decide) (by decide) (by decide) (by decide) hMin hMax]
  rfl

/-! ### The rows -/

/-- The predicate has one maximum: what is stated of it is that value of `cardinality` or `maxCardinality`,
and no other value of either. -/
structure Declared (store : Store) (p : QUrl) (property : QUrl) (n : Int) : Prop where
  isMaximum : property = NRL.maxCardinality ∨ property = NRL.cardinality
  stated : ∃ q ∈ store, q.subject = .ofUri p ∧ q.predicate = .ofUri property
  only : ∀ q ∈ store, q.subject = .ofUri p →
    (q.predicate = .ofUri NRL.maxCardinality ∨ q.predicate = .ofUri NRL.cardinality) →
    q.predicate = .ofUri property ∧ q.object.isLiteral = true ∧ q.object.toLiteral.toInt.toInt = n

/-- The cardinalities with that maximum. -/
def Cardinalities.withMaximum (property : QUrl) (min n : Int) : Cardinalities :=
  if property = NRL.cardinality then ⟨min, -1, n⟩ else ⟨min, n, -1⟩

omit [Qt] in
theorem max_ne_cardinality : NRL.maxCardinality ≠ NRL.cardinality := by decide

/-- A row that binds the minimum changes nothing else. -/
theorem read_min (k : Cardinalities) {row : BindingSet} {n : Node}
    (h : row.value = single "min".toList n) : ∃ min, k.read row = { k with min } := by
  have hMax : row.value "max".toList = .empty := by rw [h]; rfl
  have hC : row.value "c".toList = .empty := by rw [h]; rfl
  rw [Cardinalities.read, hMax, hC]
  by_cases hLiteral : (row.value "min".toList).isLiteral = true
  · rw [if_pos hLiteral]
    exact ⟨_, rfl⟩
  · rw [if_neg hLiteral]
    exact ⟨k.min, rfl⟩

theorem read_max (k : Cardinalities) {row : BindingSet} {n : Node}
    (h : row.value = single "max".toList n) (hLiteral : n.isLiteral = true) :
    k.read row = { k with max := n.toLiteral.toInt.toInt } := by
  have hMin : row.value "min".toList = .empty := by rw [h]; rfl
  have hMax : row.value "max".toList = n := by rw [h]; rfl
  have hC : row.value "c".toList = .empty := by rw [h]; rfl
  rw [Cardinalities.read, hMin, hMax, hC, if_pos hLiteral]
  rfl

theorem read_c (k : Cardinalities) {row : BindingSet} {n : Node}
    (h : row.value = single "c".toList n) (hLiteral : n.isLiteral = true) :
    k.read row = { k with c := n.toLiteral.toInt.toInt } := by
  have hMin : row.value "min".toList = .empty := by rw [h]; rfl
  have hMax : row.value "max".toList = .empty := by rw [h]; rfl
  have hC : row.value "c".toList = n := by rw [h]; rfl
  rw [Cardinalities.read, hMin, hMax, hC, if_pos hLiteral]
  rfl

/-- The rows of a predicate with one maximum: those of the minimum, and those of the maximum. -/
def RowOf (property : QUrl) (n : Int) (row : BindingSet) : Prop :=
  (∃ o, row.value = single "min".toList o) ∨
    ∃ o : Node, o.isLiteral = true ∧ o.toLiteral.toInt.toInt = n ∧
      row.value = single (if property = NRL.cardinality then "c".toList else "max".toList) o

/-- Whatever the order of the rows, the maximum is read from one of them and is not changed again. -/
theorem foldl_read {property : QUrl} {n : Int} {rows : List BindingSet}
    (hRows : ∀ row ∈ rows, RowOf property n row) {k : Cardinalities}
    (hk : k.max = -1 ∧ k.c = -1 ∨ ∃ min, k = .withMaximum property min n)
    (hMaximum : (∃ min, k = .withMaximum property min n) ∨
      ∃ row ∈ rows, ∀ o, row.value ≠ single "min".toList o) :
    ∃ min, rows.foldl Cardinalities.read k = .withMaximum property min n := by
  induction rows generalizing k with
  | nil => exact hMaximum.resolve_right fun ⟨_, hMem, _⟩ => absurd hMem List.not_mem_nil
  | cons row rows ih =>
    rw [List.foldl_cons]
    have hLater : ∀ row ∈ rows, RowOf property n row := fun r hr => hRows r (List.mem_cons_of_mem row hr)
    rcases hRows row List.mem_cons_self with ⟨o, hMin⟩ | ⟨o, hLiteral, hValue, hRow⟩
    · obtain ⟨min, hRead⟩ := read_min k hMin
      have hKept : (∃ m, k = .withMaximum property m n) → ∃ m, k.read row = .withMaximum property m n := by
        rintro ⟨m, rfl⟩
        refine ⟨min, ?_⟩
        rw [hRead, Cardinalities.withMaximum, Cardinalities.withMaximum]
        split <;> rfl
      refine ih hLater (hk.imp (fun h => by rw [hRead]; exact h) hKept) ?_
      rcases hMaximum with hSome | ⟨r, hr, hNot⟩
      · exact .inl (hKept hSome)
      · rcases List.mem_cons.mp hr with rfl | hr
        · exact absurd hMin (hNot o)
        · exact .inr ⟨r, hr, hNot⟩
    · have hRead : ∃ min, k.read row = .withMaximum property min n := by
        unfold Cardinalities.withMaximum
        split at hRow
        · next hCardinality =>
          rw [read_c k hRow hLiteral, hValue]
          rcases hk with ⟨hMax, -⟩ | ⟨m, rfl⟩
          · exact ⟨k.min, by rw [if_pos hCardinality, hMax]⟩
          · exact ⟨m, by rw [if_pos hCardinality, Cardinalities.withMaximum, if_pos hCardinality]⟩
        · next hCardinality =>
          rw [read_max k hRow hLiteral, hValue]
          rcases hk with ⟨-, hC⟩ | ⟨m, rfl⟩
          · exact ⟨k.min, by rw [if_neg hCardinality, hC]⟩
          · exact ⟨m, by rw [if_neg hCardinality, Cardinalities.withMaximum, if_neg hCardinality]⟩
      exact ih hLater (.inr hRead) (.inl hRead)

variable {select : QString → Store → List BindingSet}

theorem single_ne {name other : QString} {n o : Node} (hNe : name ≠ other) (hn : n ≠ .empty) :
    single name n ≠ single other o := by
  intro hEq
  have hAt := congrFun hEq name
  rw [single, single, Function.update_self, Function.update_of_ne hNe] at hAt
  exact hn hAt

/-- The query finds the maximum that is stated. -/
theorem ofRows_declared (hSelect : AnswersCardinalities select) {store : Store} {p property : QUrl} {n : Int}
    (hp : p.isEmpty = false) (h : Declared store p property n) :
    ∃ min, Cardinalities.ofRows (select (cardinalityText p.encoded) store) = .withMaximum property min n := by
  refine foldl_read (fun row hRow => ?_) (.inl ⟨rfl, rfl⟩) (.inr ?_)
  · obtain ⟨q, hq, hSubject, column, hColumn, hPredicate, hValue⟩ := hSelect.sound hRow
    have hOnly := h.only q hq hSubject
    rw [hPredicate] at hOnly
    simp only [columns, List.mem_cons, List.not_mem_nil, or_false] at hColumn
    rcases hColumn with rfl | rfl | rfl
    · exact .inl ⟨_, hValue⟩
    · obtain ⟨hProperty, hLiteral, hInt⟩ := hOnly (.inl rfl)
      have hEq : NRL.maxCardinality = property := (Node.ofUri_inj (u := NRL.maxCardinality) rfl).mp hProperty
      refine .inr ⟨_, hLiteral, hInt, ?_⟩
      rw [if_neg (hEq ▸ max_ne_cardinality)]
      exact hValue
    · obtain ⟨hProperty, hLiteral, hInt⟩ := hOnly (.inr rfl)
      have hEq : NRL.cardinality = property := (Node.ofUri_inj (u := NRL.cardinality) rfl).mp hProperty
      refine .inr ⟨_, hLiteral, hInt, ?_⟩
      rw [if_pos hEq.symm]
      exact hValue
  · obtain ⟨q, hq, hSubject, hPredicate⟩ := h.stated
    have hObject : q.object ≠ .empty := by
      have hMaximum : q.predicate = .ofUri NRL.maxCardinality ∨ q.predicate = .ofUri NRL.cardinality := by
        rw [hPredicate]
        exact h.isMaximum.imp (congrArg Node.ofUri) (congrArg Node.ofUri)
      have hLiteral := (h.only q hq hSubject hMaximum).2.1
      rintro hEmpty
      rw [hEmpty] at hLiteral
      cases hLiteral
    rcases h.isMaximum with rfl | rfl
    · obtain ⟨row, hRow, hValue⟩ := hSelect.complete hp hq hSubject
        (show ("max".toList, NRL.maxCardinality) ∈ columns by simp [columns]) hPredicate
      exact ⟨row, hRow, fun o => hValue ▸ single_ne (by decide) hObject⟩
    · obtain ⟨row, hRow, hValue⟩ := hSelect.complete hp hq hSubject
        (show ("c".toList, NRL.cardinality) ∈ columns by simp [columns]) hPredicate
      exact ⟨row, hRow, fun o => hValue ▸ single_ne (by decide) hObject⟩

/-! ### The statements -/

/-- The statement is a value of the predicate for the subject, in that graph unless contexts are ignored. -/
def counts (ignoreContext : Bool) (p : QUrl) (subject graph : Node) (q : Statement) : Bool :=
  q.subject = subject && q.predicate = .ofUri p && (ignoreContext || q.context = graph)

/-- No subject has more values of the predicate than the maximum. -/
def Limited (ignoreContext : Bool) (p : QUrl) (n : Int) (store : Store) : Prop :=
  ∀ subject graph, ((store.filter (counts ignoreContext p subject graph)).length : Int) ≤ n

/-- A call of `addNrlStatement` adds no other statement than its own. -/
structure Grows (statement : Statement) (store store' : Store) : Prop where
  nodup : store'.Nodup
  mem : ∀ {q}, q ∈ store' → q ∈ store ∨ q = statement ∧ statement.isValid = true

variable {answer : Answer} {ignoreContext : Bool} {store store' : Store} {statement : Statement}

theorem grows_self (h : store.Nodup) : Grows statement store store := ⟨h, .inl⟩

theorem nodup_removeAllStatements (h : store.Nodup) (pattern : Statement) :
    (FilterModel.removeAllStatements answer store pattern).store.Nodup := by
  rw [FilterModel.removeAllStatements]
  split
  · exact h
  · exact h.filter _

theorem mem_removeAllStatements {pattern q : Statement}
    (h : q ∈ (FilterModel.removeAllStatements answer store pattern).store) : q ∈ store := by
  rw [FilterModel.removeAllStatements] at h
  split at h
  · exact h
  · exact List.mem_of_mem_filter h

theorem nodup_removeStatement (h : store.Nodup) (s : Statement) :
    (FilterModel.removeStatement answer store s).store.Nodup := by
  rw [FilterModel.removeStatement]
  split
  · exact h
  · split
    · exact h.filter _
    · exact h

theorem mem_removeStatement {s q : Statement}
    (h : q ∈ (FilterModel.removeStatement answer store s).store) : q ∈ store := by
  rw [FilterModel.removeStatement] at h
  split at h
  · exact h
  · split at h
    · exact List.mem_of_mem_filter h
    · exact h

/-- The statement is added to what is left of the store. -/
theorem grows_addStatement {left : Store} (hLeft : left.Nodup)
    (hSub : ∀ {q}, q ∈ left → q ∈ store) :
    Grows statement store (FilterModel.addStatement answer left statement).store := by
  rw [FilterModel.addStatement]
  split
  · exact ⟨hLeft, fun hq => .inl (hSub hq)⟩
  · split
    · next hValid =>
      refine ⟨?_, fun hq => ?_⟩
      · rw [Store.addStatement, if_pos hValid]
        exact hLeft.insert
      · rcases Store.mem_addStatement.mp hq with ⟨rfl, -⟩ | hq
        · exact .inr ⟨rfl, hValid⟩
        · exact .inl (hSub hq)
    · exact ⟨hLeft, fun hq => .inl (hSub hq)⟩

theorem grows_addNrlStatement (h : store.Nodup) :
    Grows statement store (addNrlStatement answer ignoreContext store statement select).store := by
  have hAdd : Grows statement store (FilterModel.addStatement answer store statement).store :=
    grows_addStatement h id
  have hReplace : Grows statement store (replace answer ignoreContext store statement).store :=
    grows_addStatement (nodup_removeAllStatements h _) mem_removeAllStatements
  have hBelow (max : Int) : Grows statement store (addBelow answer ignoreContext store statement max).store := by
    simp only [addBelow]
    split
    · split
      · exact grows_addStatement (nodup_removeStatement h _) mem_removeStatement
      · exact grows_self h
    · exact hAdd
  simp only [addNrlStatement, addWithin]
  repeat' split
  all_goals first | exact grows_self h | exact hAdd | exact hReplace | exact hBelow _

/-- The statements of one kind are no more than before, and the new one. -/
theorem length_filter_le (h : Grows statement store store') (f : Statement → Bool) :
    (store'.filter f).length ≤ (store.filter f).length + 1 ∧
      (f statement = false ∨ statement ∈ store → (store'.filter f).length ≤ (store.filter f).length) := by
  have hNodup : (store'.filter f).Nodup := h.nodup.filter f
  constructor
  · have hSub : store'.filter f ⊆ statement :: store.filter f := by
      intro q hq
      obtain ⟨hMem, hf⟩ := List.mem_filter.mp hq
      rcases h.mem hMem with hMem | ⟨rfl, -⟩
      · exact List.mem_cons_of_mem _ (List.mem_filter.mpr ⟨hMem, hf⟩)
      · exact List.mem_cons_self
    exact (List.subperm_of_subset hNodup hSub).length_le
  · intro hNone
    refine (List.subperm_of_subset hNodup fun q hq => ?_).length_le
    obtain ⟨hMem, hf⟩ := List.mem_filter.mp hq
    refine List.mem_filter.mpr ⟨?_, hf⟩
    rcases h.mem hMem with hMem | ⟨rfl, -⟩
    · exact hMem
    · refine hNone.resolve_left fun hNot => ?_
      rw [hNot] at hf
      cases hf

/-- A call of `addNrlStatement`, and how the parent answers. -/
structure Action where
  statement : Statement
  answer : Answer

def step (select : QString → Store → List BindingSet) (ignoreContext : Bool) (store : Store) (a : Action) :
    Option Store :=
  some (addNrlStatement a.answer ignoreContext store a.statement select).store

/-- The call says nothing of the cardinalities of the predicate, and could not remove what is said of
them. -/
def Action.KeepsDeclaration (p : QUrl) (a : Action) : Prop :=
  a.statement.subject = .ofUri p ∨ a.statement.subject = .empty →
    a.statement.predicate ≠ .ofUri NRL.maxCardinality ∧ a.statement.predicate ≠ .ofUri NRL.cardinality ∧
      a.statement.predicate ≠ .empty

/-- With a maximum of one, the old values are removed if there are any. With a larger one, the values are
those of the default graph or of all graphs, or there is room for one. -/
structure Action.Enforced (ignoreContext : Bool) (p : QUrl) (n : Int) (store : Store) (a : Action) :
    Prop where
  declaration : a.KeepsDeclaration p
  lists : ¬ a.answer.Fails .listStatements
  removes : n = 1 → a.statement.predicate = .ofUri p →
    ¬ a.answer.Fails .removeAllStatements ∨
      ∀ q ∈ store, Store.isMatch (replacedBy ignoreContext a.statement) q = false
  room : 1 < n → a.statement.predicate = .ofUri p →
    ignoreContext = true ∨ a.statement.context = .empty ∨ a.statement ∈ store ∨
      ((store.filter (counts false p a.statement.subject a.statement.context)).length : Int) < n

/-- What shares the subject and the predicate of the statement. -/
def sameProperty (statement : Statement) : Statement :=
  ⟨statement.subject, statement.predicate, .empty, .empty⟩

theorem isMatch_sameProperty {q : Statement} (h : Store.isMatch (replacedBy ignoreContext statement) q = true ∨
    Store.isMatch (countedFor ignoreContext statement) q = true) :
    Store.isMatch (sameProperty statement) q = true := by
  cases ignoreContext <;>
    simp only [Store.isMatch, replacedBy, countedFor, sameProperty, Bool.and_eq_true, if_true] at h ⊢
  · rcases h with h | h <;> exact ⟨⟨h.1.1, rfl⟩, rfl⟩
  · rcases h with h | h <;> exact ⟨⟨h.1.1, rfl⟩, rfl⟩

theorem mem_addStatement_of_mem {q : Statement} (h : q ∈ store) :
    q ∈ (FilterModel.addStatement answer store statement).store := by
  rw [FilterModel.addStatement]
  split
  · exact h
  · split
    · exact Store.mem_addStatement.mpr (.inr h)
    · exact h

/-- A call removes only what shares the subject and the predicate of its statement. -/
theorem mem_addNrlStatement_of_mem {q : Statement} (h : q ∈ store)
    (hOther : Store.isMatch (sameProperty statement) q = false) :
    q ∈ (addNrlStatement answer ignoreContext store statement select).store := by
  have hNot {o : Prop} (hMatch : Store.isMatch (sameProperty statement) q = true) : o := by
    rw [hOther] at hMatch
    cases hMatch
  have hReplace : q ∈ (replace answer ignoreContext store statement).store := by
    refine mem_addStatement_of_mem ?_
    rw [FilterModel.removeAllStatements]
    split
    · exact h
    · refine List.mem_filter.mpr ⟨h, ?_⟩
      rw [Bool.not_eq_true', Bool.eq_false_iff]
      exact fun hMatch => hNot (isMatch_sameProperty (.inl hMatch))
  have hBelow (max : Int) : q ∈ (addBelow answer ignoreContext store statement max).store := by
    simp only [addBelow]
    split
    · split
      · next s hFound =>
        refine mem_addStatement_of_mem ?_
        have hs : s ∈ matchingStatements answer ignoreContext store statement := hFound ▸ List.mem_singleton_self s
        have hListed := (List.mem_filter.mp hs).1
        rw [FilterModel.listStatements] at hListed
        split at hListed
        · cases hListed
        · have hMatch := isMatch_sameProperty (.inr (List.mem_filter.mp hListed).2)
          rw [FilterModel.removeStatement]
          split
          · exact h
          · split
            · refine List.mem_filter.mpr ⟨h, decide_eq_true ?_⟩
              rintro rfl
              exact hNot hMatch
            · exact h
      · exact h
    · exact mem_addStatement_of_mem h
  simp only [addNrlStatement, addWithin]
  repeat' split
  all_goals first | exact h | exact mem_addStatement_of_mem h | exact hReplace | exact hBelow _

/-- The calls keep the declaration. -/
theorem declared_step {p property : QUrl} {n : Int} (hNodup : store.Nodup) (h : Declared store p property n)
    {a : Action} (hKeeps : a.KeepsDeclaration p) :
    Declared (addNrlStatement a.answer ignoreContext store a.statement select).store p property n := by
  have hGrows : Grows a.statement store
      (addNrlStatement a.answer ignoreContext store a.statement select).store := grows_addNrlStatement hNodup
  refine ⟨h.isMaximum, ?_, fun q hq hSubject hPredicate => ?_⟩
  · obtain ⟨q, hq, hSubject, hPredicate⟩ := h.stated
    refine ⟨q, mem_addNrlStatement_of_mem hq (Bool.eq_false_iff.mpr fun hMatch => ?_), hSubject, hPredicate⟩
    simp only [Store.isMatch, sameProperty, Bool.and_eq_true, Bool.or_eq_true, isEmpty_eq, decide_eq_true_eq,
      hSubject, hPredicate] at hMatch
    obtain ⟨⟨⟨hAbout, hOf⟩, -⟩, -⟩ := hMatch
    obtain ⟨hMax, hC, hEmpty⟩ := hKeeps (hAbout.symm.imp_left Eq.symm)
    rcases hOf with hOf | hOf
    · exact hEmpty hOf
    · rcases h.isMaximum with hProperty | hProperty
      · exact hMax (hOf.symm.trans (congrArg Node.ofUri hProperty))
      · exact hC (hOf.symm.trans (congrArg Node.ofUri hProperty))
  · rcases hGrows.mem hq with hOld | ⟨rfl, -⟩
    · exact h.only q hOld hSubject hPredicate
    · obtain ⟨hMax, hC, -⟩ := hKeeps (.inl hSubject)
      exact absurd hPredicate (not_or.mpr ⟨hMax, hC⟩)

/-- What counts with a statement that counts has its subject and its graph. -/
theorem counts_trans {p : QUrl} {subject graph : Node} {q : Statement}
    (h : counts ignoreContext p subject graph statement = true)
    (hq : counts ignoreContext p subject graph q = true) :
    counts ignoreContext p statement.subject statement.context q = true := by
  simp only [counts, Bool.and_eq_true, decide_eq_true_eq, Bool.or_eq_true] at h hq ⊢
  obtain ⟨⟨hSubject, -⟩, hContext⟩ := h
  obtain ⟨⟨hSubject', hSame⟩, hContext'⟩ := hq
  refine ⟨⟨hSubject'.trans hSubject.symm, hSame⟩, ?_⟩
  cases ignoreContext with
  | true => exact .inl rfl
  | false => exact .inr ((hContext'.resolve_left nofun).trans (hContext.resolve_left nofun).symm)

/-- The counted statements of a subject match the pattern of the old values. -/
theorem isMatch_of_counts {p : QUrl} {q : Statement} (hPredicate : statement.predicate = .ofUri p)
    (h : counts ignoreContext p statement.subject statement.context q = true) :
    Store.isMatch (replacedBy ignoreContext statement) q = true := by
  simp only [counts, Bool.and_eq_true, decide_eq_true_eq, Bool.or_eq_true] at h
  obtain ⟨⟨hSubject, hSame⟩, hContext⟩ := h
  cases ignoreContext with
  | true => simp [Store.isMatch, replacedBy, hSubject, hSame, hPredicate, isEmpty_eq]
  | false =>
    have hContext : q.context = statement.context := hContext.resolve_left (by rintro ⟨⟩)
    simp [Store.isMatch, replacedBy, hSubject, hSame, hPredicate, hContext, isEmpty_eq]

/-- The simple case leaves no old value. -/
theorem limited_replace {p : QUrl} (hNodup : store.Nodup) (hPredicate : statement.predicate = .ofUri p)
    (hLimited : Limited ignoreContext p 1 store)
    (hRemoves : ¬ answer.Fails .removeAllStatements ∨
      ∀ q ∈ store, Store.isMatch (replacedBy ignoreContext statement) q = false) :
    Limited ignoreContext p 1 (replace answer ignoreContext store statement).store := by
  have hGrows : Grows statement store (replace answer ignoreContext store statement).store :=
    grows_addStatement (nodup_removeAllStatements hNodup _) mem_removeAllStatements
  intro subject graph
  by_cases hCounts : counts ignoreContext p subject graph statement = true
  · -- the removal leaves none of these, and so only the new statement counts
    have hLeft : ∀ q ∈ (FilterModel.removeAllStatements answer store (replacedBy ignoreContext statement)).store,
        counts ignoreContext p subject graph q = false := by
      intro q hq
      refine Bool.eq_false_iff.mpr fun hOld => ?_
      have hMatch := isMatch_of_counts hPredicate (counts_trans hCounts hOld)
      by_cases hFails : answer.Fails .removeAllStatements
      · rw [(hRemoves.resolve_left (not_not.mpr hFails)) q (mem_removeAllStatements hq)] at hMatch
        cases hMatch
      · rw [FilterModel.removeAllStatements, if_neg hFails] at hq
        simp [Store.removeAllStatements, hMatch] at hq
    have hSub : (replace answer ignoreContext store statement).store.filter
        (counts ignoreContext p subject graph) ⊆ [statement] := by
      intro q hq
      obtain ⟨hMem, hq⟩ := List.mem_filter.mp hq
      have hAdded : Grows statement _ (replace answer ignoreContext store statement).store :=
        grows_addStatement (nodup_removeAllStatements hNodup _) id
      have hFrom := hAdded.mem hMem
      rcases hFrom with hFrom | ⟨rfl, -⟩
      · rw [hLeft q hFrom] at hq
        cases hq
      · exact List.mem_singleton_self q
    have := (List.subperm_of_subset (hGrows.nodup.filter _) hSub).length_le
    rw [List.length_singleton] at this
    omega
  · have := (length_filter_le hGrows (counts ignoreContext p subject graph)).2
      (.inl (Bool.eq_false_iff.mpr hCounts))
    have := hLimited subject graph
    omega

/-- The general case adds nothing where there is no room. -/
theorem limited_addBelow {p : QUrl} {n : Int} (hn : 1 < n) (hNodup : store.Nodup)
    (hPredicate : statement.predicate = .ofUri p) (hLimited : Limited ignoreContext p n store)
    (hLists : ¬ answer.Fails .listStatements)
    (hRoom : ignoreContext = true ∨ statement.context = .empty ∨ statement ∈ store ∨
      ((store.filter (counts false p statement.subject statement.context)).length : Int) < n) :
    Limited ignoreContext p n (addBelow answer ignoreContext store statement n).store := by
  simp only [addBelow]
  split
  · next hFull =>
    split
    · next s hFound =>
      rw [hFound, List.length_singleton] at hFull
      omega
    · exact hLimited
  · next hBelow =>
    have hGrows : Grows statement store (FilterModel.addStatement answer store statement).store :=
      grows_addStatement hNodup id
    intro subject graph
    obtain ⟨hOne, hNone⟩ := length_filter_le hGrows (counts ignoreContext p subject graph)
    have hOld := hLimited subject graph
    by_cases hCounts : counts ignoreContext p subject graph statement = true
    · -- the statements that count are among those that were listed
      have hListed (hAll : ignoreContext = true ∨ statement.context = .empty) :
          ((store.filter (counts ignoreContext p subject graph)).length : Int) < n := by
        have hSub : store.filter (counts ignoreContext p subject graph) ⊆
            matchingStatements answer ignoreContext store statement := by
          intro q hq
          obtain ⟨hMem, hq⟩ := List.mem_filter.mp hq
          have hSame := counts_trans hCounts hq
          have hMatch := isMatch_of_counts hPredicate hSame
          rw [matchingStatements, FilterModel.listStatements, if_neg hLists]
          rcases hAll with rfl | hDefault
          · exact List.mem_filter.mpr ⟨List.mem_filter.mpr ⟨hMem, hMatch⟩, rfl⟩
          · have hPattern : countedFor ignoreContext statement = replacedBy ignoreContext statement := by
              rw [countedFor, replacedBy, hDefault]
            refine List.mem_filter.mpr ⟨List.mem_filter.mpr ⟨hMem, hPattern ▸ hMatch⟩, ?_⟩
            simp only [counts, Bool.and_eq_true, decide_eq_true_eq, Bool.or_eq_true] at hSame ⊢
            refine hSame.2.imp_right fun hContext => ?_
            rw [hContext, hDefault]
            rfl
        have := (List.subperm_of_subset (hNodup.filter _) hSub).length_le
        omega
      rcases hRoom with hAll | hDefault | hThere | hLess
      · have := hListed (.inl hAll)
        omega
      · have := hListed (.inr hDefault)
        omega
      · have := hNone (.inr hThere)
        omega
      · cases ignoreContext with
        | true =>
          have := hListed (.inl rfl)
          omega
        | false =>
          have hSame : store.filter (counts false p subject graph) =
              store.filter (counts false p statement.subject statement.context) := by
            simp only [counts, Bool.and_eq_true, decide_eq_true_eq, Bool.false_or] at hCounts
            rw [hCounts.1.1, hCounts.2]
          rw [hSame] at hOne
          omega
    · have := hNone (.inl (Bool.eq_false_iff.mpr hCounts))
      omega

/-- What a run keeps. -/
structure Keeps (ignoreContext : Bool) (p property : QUrl) (n : Int) (store : Store) : Prop where
  nodup : store.Nodup
  declared : Declared store p property n
  limited : Limited ignoreContext p n store

theorem addWithin_withMaximum {property : QUrl} {min n : Int} (hn : 1 ≤ n) :
    addWithin answer ignoreContext store statement (.withMaximum property min n) =
      if n = 1 then replace answer ignoreContext store statement
      else addBelow answer ignoreContext store statement n := by
  simp only [addWithin, Cardinalities.withMaximum]
  by_cases hOne : n = 1 <;> split <;> grind

theorem keeps_step (hSelect : AnswersCardinalities select) {p property : QUrl} (hp : p.isEmpty = false)
    (hSpelled : Spelled p) {n : Int} (hn : 1 ≤ n) (h : Keeps ignoreContext p property n store) {a : Action}
    (hEnforced : a.Enforced ignoreContext p n store) (hStep : step select ignoreContext store a = some store') :
    Keeps ignoreContext p property n store' := by
  cases hStep
  have hGrows : Grows a.statement store
      (addNrlStatement a.answer ignoreContext store a.statement select).store := grows_addNrlStatement h.nodup
  refine ⟨hGrows.nodup, declared_step h.nodup h.declared hEnforced.declaration, ?_⟩
  by_cases hPredicate : a.statement.predicate = .ofUri p
  · obtain ⟨min, hRows⟩ := ofRows_declared hSelect hp h.declared
    rw [addNrlStatement, hPredicate, cardinalityQuery_eq hp hSpelled, hRows]
    split
    · exact h.limited
    · rw [addWithin_withMaximum hn]
      split
      · next hOne =>
        subst hOne
        exact limited_replace h.nodup hPredicate h.limited (hEnforced.removes rfl hPredicate)
      · next hNotOne =>
        have hAbove : 1 < n := by omega
        exact limited_addBelow hAbove h.nodup hPredicate h.limited hEnforced.lists
          (hEnforced.room hAbove hPredicate)
  · intro subject graph
    have hOther : counts ignoreContext p subject graph a.statement = false := by
      simp [counts, hPredicate]
    have := (length_filter_le hGrows (counts ignoreContext p subject graph)).2 (.inl hOther)
    have := h.limited subject graph
    omega

/-- Where each call meets the condition, no subject ever has more values of the predicate than the one
maximum that is stated. -/
theorem limited_run (hSelect : AnswersCardinalities select) {p property : QUrl} (hp : p.isEmpty = false)
    (hSpelled : Spelled p) {n : Int} (hn : 1 ≤ n) (ignoreContext : Bool) {start : Store}
    (hNodup : start.Nodup) (hDeclared : Declared start p property n)
    (hLimited : Limited ignoreContext p n start) (actions : List Action)
    (hRun : run (step select ignoreContext) start actions = some store)
    (hEnforced : AllMeet (step select ignoreContext) (fun store a => a.Enforced ignoreContext p n store)
      start actions) : Limited ignoreContext p n store :=
  (invariant (I := Keeps ignoreContext p property n)
    (fun h hAction hStep => keeps_step hSelect hp hSpelled hn h hAction hStep) ⟨hNodup, hDeclared, hLimited⟩ hEnforced hRun).limited

/-! ### Failures -/

/-- A call that fails leaves the statements as they were. -/
def Atomic (store : Store) (result : Result) : Prop :=
  result.code ≠ .errorNone → ∀ q, q ∈ result.store ↔ q ∈ store

/-- Old values were removed in place of a statement that could not be added. -/
structure LosesValues (answer : Answer) (ignoreContext : Bool) (store : Store) (statement : Statement)
    (k : Cardinalities) : Prop where
  one : k.c = 1 ∨ k.max = 1
  removes : ¬ answer.Fails .removeAllStatements
  old : ∃ q ∈ store, Store.isMatch (replacedBy ignoreContext statement) q = true
  refused : answer.Fails .addStatement ∨ statement.isValid = false

theorem code_failed {call : Call} (h : answer.Fails call) : (failed answer call store).code ≠ .errorNone := by
  have hNe : (answer call).code.toInt ≠ 0 := fun hZero => h (Int32.toInt_inj.mp hZero)
  simp only [failed, ErrorCode.convertErrorCode, if_neg hNe]
  repeat' split
  all_goals exact nofun

/-- An addition fails if and only if the parent fails or the statement is not valid, and then adds nothing. -/
theorem addStatement_cases (answer : Answer) (store : Store) (statement : Statement) :
    ((answer.Fails .addStatement ∨ statement.isValid = false) ∧
      (FilterModel.addStatement answer store statement).code ≠ .errorNone ∧
      (FilterModel.addStatement answer store statement).store = store) ∨
    (¬ (answer.Fails .addStatement ∨ statement.isValid = false) ∧
      (FilterModel.addStatement answer store statement).code = .errorNone) := by
  rw [FilterModel.addStatement]
  split
  · next hFails => exact .inl ⟨.inl hFails, code_failed hFails, rfl⟩
  · next hAnswers =>
    split
    · next hValid => exact .inr ⟨by simp [hAnswers, hValid], rfl⟩
    · next hInvalid => exact .inl ⟨.inr (Bool.eq_false_iff.mpr hInvalid), nofun, rfl⟩

theorem atomic_addStatement : Atomic store (FilterModel.addStatement answer store statement) := by
  intro hCode q
  rcases addStatement_cases answer store statement with ⟨-, -, hSame⟩ | ⟨-, hNone⟩
  · rw [hSame]
  · exact absurd hNone hCode

theorem atomic_self {result : Result} (h : result.store = store) : Atomic store result := fun _ q => by rw [h]

/-- A maximum above one is not reached by one statement, and so nothing is removed. -/
theorem atomic_addBelow {max : Int} (hMax : 1 < max) :
    Atomic store (addBelow answer ignoreContext store statement max) := by
  simp only [addBelow]
  split
  · next hFull =>
    split
    · next s hFound =>
      rw [hFound, List.length_singleton] at hFull
      omega
    · exact atomic_self rfl
  · exact atomic_addStatement

/-- The simple case loses values if they were removed before the addition failed. -/
theorem atomic_replace {k : Cardinalities} (hOne : k.c = 1 ∨ k.max = 1) :
    Atomic store (replace answer ignoreContext store statement) ↔
      ¬ LosesValues answer ignoreContext store statement k := by
  rcases addStatement_cases answer
      (FilterModel.removeAllStatements answer store (replacedBy ignoreContext statement)).store statement with
    ⟨hRefused, hCode, hSame⟩ | ⟨hAdded, hNone⟩
  · rw [Atomic, replace, hSame]
    by_cases hFails : answer.Fails .removeAllStatements
    · rw [FilterModel.removeAllStatements, if_pos hFails]
      exact iff_of_true (fun _ q => .rfl) fun hLoses => hLoses.removes hFails
    · rw [FilterModel.removeAllStatements, if_neg hFails] at hCode ⊢
      refine ⟨fun hAtomic hLoses => ?_, fun hKeeps _ q => ⟨List.mem_of_mem_filter, fun hq => ?_⟩⟩
      · obtain ⟨q, hq, hMatch⟩ := hLoses.old
        have := (hAtomic hCode q).mpr hq
        simp [Store.removeAllStatements, hMatch] at this
      · refine List.mem_filter.mpr ⟨hq, ?_⟩
        rw [Bool.not_eq_true', Bool.eq_false_iff]
        exact fun hMatch => hKeeps ⟨hOne, hFails, ⟨q, hq, hMatch⟩, hRefused⟩
  · exact iff_of_true (fun hCode => absurd hNone hCode) fun hLoses => hAdded hLoses.refused

/-- `addNrlStatement` is atomic if and only if it does not remove values in place of a statement that cannot
be added. -/
theorem atomic_iff (answer : Answer) (ignoreContext : Bool) (store : Store) (statement : Statement)
    (select : QString → Store → List BindingSet) :
    Atomic store (addNrlStatement answer ignoreContext store statement select) ↔
      answer.Fails .executeQuery ∨ ¬ LosesValues answer ignoreContext store statement
        (.ofRows (select (cardinalityQuery statement.predicate) store)) := by
  simp only [addNrlStatement]
  split
  · next hFails => exact iff_of_true (atomic_self rfl) (.inl hFails)
  · next hAnswers =>
    rw [or_iff_right hAnswers]
    generalize Cardinalities.ofRows (select (cardinalityQuery statement.predicate) store) = k
    simp only [addWithin]
    split
    · split
      · next hOne => exact atomic_replace hOne
      · next hNotOne =>
        refine iff_of_true ?_ fun hLoses => hNotOne hLoses.one
        split
        · next hAbove => exact atomic_addBelow (by split <;> omega)
        · exact atomic_addStatement
    · next hNone =>
      refine iff_of_true atomic_addStatement fun hLoses => ?_
      have := hLoses.one
      omega

/-! ### An implementation of the query -/

def rowsOf (iri : QString) (store : Store) : List BindingSet :=
  store.flatMap fun q =>
    match q.subject with
    | .resource u _ =>
      if u.encoded = iri then
        columns.filterMap fun column =>
          if q.predicate = .ofUri column.2 then some (BindingSet.empty.insert column.1 q.object) else none
      else []
    | _ => []

def selectCardinalities (query : QString) (store : Store) : List BindingSet :=
  let iri := (query.drop "select ?min ?max ?c where \x7b \x7b <".length).takeWhile (· ≠ '>')
  if query = cardinalityText iri then rowsOf iri store else []

theorem selectCardinalities_eq (u : QUrl) (store : Store) :
    selectCardinalities (cardinalityText u.encoded) store = rowsOf u.encoded store := by
  have hIri (rest : QString) : (u.encoded ++ '>' :: rest).takeWhile (· ≠ '>') = u.encoded := by
    rw [List.takeWhile_append_of_pos fun c hc => ?_]
    · simp
    · have : c ≠ '>' := fun hEq => u.notMem (c := '>') rfl (hEq ▸ hc)
      simpa using this
  have hDrop : ∃ rest, (cardinalityText u.encoded).drop "select ?min ?max ?c where \x7b \x7b <".length =
      u.encoded ++ '>' :: rest := ⟨_, rfl⟩
  obtain ⟨rest, hDrop⟩ := hDrop
  simp only [selectCardinalities, hDrop, hIri, if_true]

theorem value_insert_empty (name : QString) (n : Node) : (BindingSet.empty.insert name n).value = single name n := by
  funext other
  rw [BindingSet.value_insert, single, Function.update_apply]
  rfl

theorem answersCardinalities : AnswersCardinalities selectCardinalities where
  sound {u store row} h := by
    rw [selectCardinalities_eq] at h
    obtain ⟨q, hq, hRow⟩ := List.mem_flatMap.mp h
    cases hSubject : q.subject with
    | resource v hv =>
      simp only [hSubject] at hRow
      split at hRow
      · next hEncoded =>
        obtain ⟨column, hColumn, hRow⟩ := List.mem_filterMap.mp hRow
        simp only [Option.ite_none_right_eq_some, Option.some.injEq] at hRow
        obtain ⟨hPredicate, rfl⟩ := hRow
        have hUrl : v = u := QUrl.ext hEncoded
        refine ⟨q, hq, ?_, column, hColumn, hPredicate, value_insert_empty _ _⟩
        rw [hSubject, ← hUrl, Node.ofUri_self v hv]
      · cases hRow
    | _ =>
      simp only [hSubject] at hRow
      cases hRow
  complete {u store q column} hu hq hSubject hColumn hPredicate := by
    rw [selectCardinalities_eq]
    refine ⟨BindingSet.empty.insert column.1 q.object, List.mem_flatMap.mpr ⟨q, hq, ?_⟩,
      value_insert_empty _ _⟩
    rw [hSubject, Node.ofUri_self u hu]
    simp only [if_true]
    exact List.mem_filterMap.mpr ⟨column, hColumn, if_pos hPredicate⟩

end Qt

section Example

local instance cardinalityQt : Qt := asciiQt

/-- A resource for each number. -/
local instance tenThings : NeZero 10 := ⟨by decide⟩

theorem legal_thing (i : Fin 10) : ['u', 'r', 'n', ':', Nat.digitChar i].all isUrlChar = true := by
  revert i
  decide

theorem legal_property : "urn:p".toList.all isUrlChar = true := by decide

def thing (i : Fin 10) : Node := .ofUri ⟨['u', 'r', 'n', ':', Nat.digitChar i], legal_thing i⟩

def property : QUrl := .ofString "urn:p" legal_property

def number (n : Int32) : Node := .ofLiteral (.ofVariant (.int n))

/-- At most that many values of the property. -/
def declares (n : Int32) : Statement := ⟨.ofUri property, .ofUri NRL.maxCardinality, number n, .empty⟩

/-- The parent answers each call. -/
def succeeds : Answer := fun _ => .none

/-- One more value, in a graph. -/
def value (i : Fin 10) : Action := ⟨⟨thing 0, .ofUri property, thing i, thing 9⟩, succeeds⟩

theorem spelled_property : Spelled property :=
  ⟨Qt.urlToString_plain _ (by decide), QString.markersAbove_of_notMem (by decide)⟩

theorem declared_declares (n : Int32) : Declared [declares n] property NRL.maxCardinality n.toInt := by
  refine ⟨.inl rfl, ⟨declares n, List.mem_singleton_self _, rfl, rfl⟩, fun q hq _ _ => ?_⟩
  obtain rfl := List.mem_singleton.mp hq
  exact ⟨rfl, rfl, rfl⟩

theorem limited_declares (n : Int32) (hn : 0 ≤ n.toInt) (ignoreContext : Bool) :
    Limited ignoreContext property n.toInt [declares n] := by
  intro subject graph
  have hOther : [declares n].filter (counts ignoreContext property subject graph) = [] := by
    refine List.filter_eq_nil_iff.mpr fun q hq => ?_
    obtain rfl := List.mem_singleton.mp hq
    have hNe : Node.ofUri NRL.maxCardinality ≠ .ofUri property := by decide
    simp [counts, declares, hNe]
  rw [hOther]
  exact hn

theorem enforced_value (i : Fin 10) (store : Store) : (value i).Enforced false property 1 store where
  declaration h := absurd h (show ¬ (thing 0 = .ofUri property ∨ thing 0 = .empty) by decide)
  lists := fun h => h rfl
  removes _ _ := .inl fun h => h rfl
  room h := absurd h (by decide)

/-- A call for the property, whose rows are read from the store. -/
theorem addNrlStatement_property (ignoreContext : Bool) (store : Store) {statement : Statement}
    (h : statement.predicate = .ofUri property) :
    addNrlStatement succeeds ignoreContext store statement selectCardinalities =
      addWithin succeeds ignoreContext store statement (.ofRows (rowsOf property.encoded store)) := by
  rw [addNrlStatement, h, cardinalityQuery_eq rfl spelled_property, selectCardinalities_eq]
  rfl

theorem run_values (store : Store) (values : List (Fin 10)) :
    run (step selectCardinalities false) store (values.map value) =
      some (values.foldl (fun store i => (addWithin succeeds false store (value i).statement
        (.ofRows (rowsOf property.encoded store))).store) store) := by
  induction values generalizing store with
  | nil => rfl
  | cons i values ih =>
    have hStep : step selectCardinalities false store (value i) = some (addWithin succeeds false store
        (value i).statement (.ofRows (rowsOf property.encoded store))).store := by
      rw [step, show (value i).answer = succeeds from rfl, addNrlStatement_property false store rfl]
    rw [List.map_cons, run_cons_of_step hStep, ih]
    rfl

/-- The second value takes the place of the first. -/
theorem limited_run_example :
    ∃ store, run (step selectCardinalities false) [declares 1] ([1, 2].map value) = some store ∧
      Limited false property 1 store ∧ (value 2).statement ∈ store := by
  refine ⟨_, run_values _ _, limited_run answersCardinalities rfl spelled_property (by decide) false
    (List.nodup_singleton _) (declared_declares 1) (limited_declares 1 (by decide) false)
    ([1, 2].map value) (run_values _ _) ?_, by decide⟩
  exact ⟨enforced_value 1 _, fun s _ => ⟨enforced_value 2 s, fun _ _ => trivial⟩⟩

/-- Three values of a property of which a graph may have two. -/
theorem not_limited :
    ¬ ∀ actions store, run (step selectCardinalities false) [declares 2] actions = some store →
      Limited false property 2 store := by
  intro h
  have := h ([1, 2, 3].map value) _ (run_values _ _) (thing 0) (thing 9)
  revert this
  decide

/-- A statement without an object is refused when the old value is already gone. -/
theorem not_atomic :
    ¬ ∀ answer ignoreContext store statement,
      Atomic store (addNrlStatement answer ignoreContext store statement selectCardinalities) := by
  intro h
  have hCall := h succeeds true [declares 1, (value 1).statement] ⟨thing 0, .ofUri property, .empty, .empty⟩
  rw [addNrlStatement_property true _ rfl] at hCall
  have := hCall (by decide) (value 1).statement
  revert this
  decide

end Example

end NRLModel

end Soprano
