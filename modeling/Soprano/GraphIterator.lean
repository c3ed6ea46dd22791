import Soprano.Graph
import Soprano.Library.Runs
import Soprano.Library.Sharing

/-! The iterator of a `Graph` beside other graphs. Graphs share a `Private`, the sets in different
`Private`s share a table of statements, and the iterator stands in the table of the graph that it was made
for. -/

namespace Soprano

namespace GraphIterator

open Sharing Runs

section Qt

variable [Qt] [QtHash]

/-- The table of statements of each `QSet` in a `Private`: the objects of the heap are numbers of tables. -/
structure Store where
  heap : Heap Nat
  tables : List (QSet Statement Statement.same)

/-- `GraphStatementIteratorBackend`: `m_graph` is a graph that nobody else has, and `m_it` is a table and a
position in it. -/
structure Backend where
  m_graph : Nat
  m_filter : Statement
  m_first : Bool
  m_it : Nat × Nat

/-- `log` has what each `next` returned and `current` then gave, or nothing if the end was read. -/
structure State extends Store where
  it : Backend
  log : List (Option (Bool × Statement))

/-- What is done with graphs. A `Command` is `Sharing`'s; a change that does nothing is an access that is
not const. `change` is `addStatement`, `removeAllStatements` or another operation. -/
inductive Action
  | create (statements : List Statement)
  | handle (c : Command Unit)
  | change (target : Nat) (operation : Graph → Graph)
  | next

/-- The graph that the action is about. -/
def Action.target : Action → Option Nat
  | .handle c => c.target
  | .change target _ => some target
  | .create _ | .next => none

namespace Store

variable (s : Store)

/-- `Graph( const QList<Statement>& )` -/
def create (statements : List Statement) : Store where
  heap := ⟨s.heap.objects ++ [s.tables.length], s.heap.pointers ++ [some s.heap.objects.length]⟩
  tables := s.tables ++ [.fromList statements]

/-- Constructors, assignments, destructors, and `d->`. -/
def handle (c : Command Unit) : Option Store :=
  (s.heap.perform s.tables.length (fun _ table => some table) c).map fun heap => { s with heap }

/-- The table of a `Private` has no other set. -/
def ownTable (heap : Heap Nat) (p table : Nat) : Bool :=
  heap.pointers.all fun
    | some q => q == p || heap.objects[q]? != some table
    | none => true

/-- The graph has data of its own, and a table of its own if the set is not the only one to have it. -/
def change (target : Nat) (operation : Graph → Graph) : Option Store := do
  let (heap, p) ← s.heap.detach target
  let table ← heap.objects[p]?
  let set ← s.tables[table]?
  let set := (operation ⟨set⟩).statements
  if ownTable heap p table then some ⟨heap, s.tables.set table set⟩
  else some ⟨⟨heap.objects.set p s.tables.length, heap.pointers⟩, s.tables ++ [set]⟩

/-- What an iterator stands at, unless it is the end of its table. -/
def deref (m_it : Nat × Nat) : Option Statement :=
  s.tables[m_it.1]?.bind fun set => set.toList[m_it.2]?

/-- `m_graph.d->statements.constEnd()`, whose `d->` is not const. -/
def constEnd (m_graph : Nat) : Option (Store × (Nat × Nat)) := do
  let (heap, p) ← s.heap.detach m_graph
  let table ← heap.objects[p]?
  let set ← s.tables[table]?
  some ({ s with heap }, table, set.toList.length)

end Store

namespace Backend

variable (s : Store) (it : Backend)

/-- `!m_first || !m_it->matches( m_filter )` -/
def leaves : Option Bool :=
  if it.m_first then (s.deref it.m_it).map fun statement => !statement.matches it.m_filter else some true

/-- The loop, which is left at the end and at a statement that matches. -/
def skip (constEnd : Nat × Nat) : Nat → Nat × Nat → Option (Nat × Nat)
  | 0, _ => none
  | n + 1, (table, i) =>
    if (table, i + 1) = constEnd then some (table, i + 1)
    else
      (s.deref (table, i + 1)).bind fun statement =>
        if statement.matches it.m_filter then some (table, i + 1) else skip constEnd n (table, i + 1)

/-- The first operand of the condition is computed before the end is asked for. -/
def next : Option (Store × Bool × Backend) := do
  let leaves ← it.leaves s
  let (s, constEnd) ← s.constEnd it.m_graph
  let m_it ←
    if leaves ∧ it.m_it ≠ constEnd then it.skip s constEnd (constEnd.2 + 1) it.m_it else some it.m_it
  some (s, decide (m_it ≠ constEnd), { it with m_first := false, m_it })

/-- The test for the end is that of `next`, and the table is that of `m_graph`. -/
def current : Statement := (s.deref it.m_it).getD .empty

end Backend

/-- `m_graph` is a member that only the iterator uses. -/
def step (s : State) (a : Action) : Option State :=
  if a.target = some s.it.m_graph then none
  else
    match a with
    | .create statements => some { s with toStore := s.create statements }
    | .handle c => (s.toStore.handle c).map fun t => { s with toStore := t }
    | .change target operation => (s.toStore.change target operation).map fun t => { s with toStore := t }
    | .next =>
      match s.it.next s.toStore with
      | some (t, more, it) =>
        some { toStore := t, it, log := s.log ++ [some (more, it.current t)] }
      | none => some { s with log := s.log ++ [none] }

/-- `listStatements` of a graph, whose copy is the last one. -/
def listStatements (s : Store) (g : Nat) (filter : Statement) : Option State := do
  let p ← s.heap.pointers[g]?.join
  let table ← s.heap.objects[p]?
  some
    { heap := ⟨s.heap.objects, s.heap.pointers ++ [some p]⟩
      tables := s.tables
      it := ⟨s.heap.pointers.length, filter, true, table, 0⟩
      log := [] }

/-- The result of the call of `next` with that number, and of `current` behind it. -/
def delivered (filter : Statement) (members : List Statement) (k : Nat) : Bool × Statement :=
  match (members.filter (·.matches filter))[k]? with
  | some statement => (true, statement)
  | none => (false, .empty)

/-! ### The position in a table -/

variable {s : Store} {it : Backend} {set : QSet Statement Statement.same} {i : Nat}

/-- The iterator without the table: what it has left. -/
def Backend.view (set : QSet Statement Statement.same) (it : Backend) :
    Graph.GraphStatementIteratorBackend :=
  ⟨it.m_filter, it.m_first, set.toList.drop it.m_it.2⟩

theorem deref_eq {table : Nat} (h : s.tables[table]? = some set) (i : Nat) :
    s.deref (table, i) = set.toList[i]? := by
  rw [Store.deref, h]
  rfl

variable (it) in
/-- The loop leaves out what `dropWhile` does. -/
theorem skip_eq {table n : Nat} (h : s.tables[table]? = some set) (hi : i < set.toList.length)
    (hn : set.toList.length ≤ n + i) :
    ∃ j, it.skip s (table, set.toList.length) n (table, i) = some (table, j) ∧ j ≤ set.toList.length ∧
      set.toList.drop j = (set.toList.drop (i + 1)).dropWhile fun s => !s.matches it.m_filter := by
  induction n generalizing i with
  | zero => omega
  | succ n ih =>
    rw [Backend.skip]
    by_cases hEnd : i + 1 = set.toList.length
    · refine ⟨i + 1, by rw [if_pos (by rw [hEnd])], hEnd.le, ?_⟩
      rw [List.drop_eq_nil_of_le hEnd.ge, List.dropWhile_nil]
    · have hNext : i + 1 < set.toList.length := by omega
      rw [if_neg fun hEq => hEnd (Prod.mk.inj hEq).2, deref_eq h, List.getElem?_eq_getElem hNext,
        Option.bind_some, List.drop_eq_getElem_cons hNext, List.dropWhile_cons]
      by_cases hMatch : set.toList[i + 1].matches it.m_filter = true
      · refine ⟨i + 1, by rw [if_pos hMatch], hNext.le, ?_⟩
        simp [hMatch]
      · obtain ⟨j, hSkip, hj, hDrop⟩ := ih hNext (by omega)
        refine ⟨j, by rw [if_neg hMatch, hSkip], hj, ?_⟩
        simp [hMatch, hDrop]

/-- The iterator does with its table what it would do with the list of what it has left. -/
theorem next_view {t : Store} (hTable : s.tables[it.m_it.1]? = some set)
    (hi : it.m_it.2 ≤ set.toList.length) (hTables : t.tables = s.tables)
    (hEnd : s.constEnd it.m_graph = some (t, it.m_it.1, set.toList.length)) :
    match (it.view set).next with
    | none => it.next s = none
    | some (more, v) => ∃ j, it.next s = some (t, more, { it with m_first := false, m_it := (it.m_it.1, j) }) ∧
        j ≤ set.toList.length ∧ v = ⟨it.m_filter, false, set.toList.drop j⟩ := by
  obtain ⟨m_graph, filter, m_first, table, i⟩ := it
  simp only at hTable hi hEnd
  have hLeaves : Backend.leaves s ⟨m_graph, filter, m_first, table, i⟩ =
      (Backend.view set ⟨m_graph, filter, m_first, table, i⟩).leaves := by
    cases m_first with
    | false => rfl
    | true =>
      simp only [Backend.leaves, Backend.view, Graph.GraphStatementIteratorBackend.leaves, if_true,
        deref_eq hTable, List.head?_drop]
  simp only [Backend.next, hLeaves, hEnd, Graph.GraphStatementIteratorBackend.next, Option.bind_eq_bind]
  cases hLeft : (Backend.view set ⟨m_graph, filter, m_first, table, i⟩).leaves with
  | none => rfl
  | some leaves =>
    have hIsEnd : (table, i) ≠ (table, set.toList.length) ↔ i < set.toList.length := by
      rw [Ne, Prod.mk.injEq, eq_self_iff_true, true_and]
      omega
    have hMore (j : Nat) (hj : j ≤ set.toList.length) :
        decide ((table, j) ≠ (table, set.toList.length)) = !(set.toList.drop j).isEmpty := by
      rw [Bool.eq_iff_iff]
      simp only [decide_eq_true_eq, Ne, Prod.mk.injEq, true_and, Bool.not_eq_true',
        List.isEmpty_eq_false_iff, List.drop_eq_nil_iff]
      omega
    have hEmpty : (set.toList.drop i).isEmpty = !decide (i < set.toList.length) := by
      rw [Bool.eq_iff_iff]
      simp
    simp only [Option.bind_some, Option.map_some, Backend.view, hEmpty, Bool.not_not]
    by_cases hSkips : leaves = true ∧ i < set.toList.length
    · obtain ⟨hLeaves, hInside⟩ := hSkips
      obtain ⟨j, hSkip, hj, hDrop⟩ := skip_eq ⟨m_graph, filter, m_first, table, i⟩ (hTables ▸ hTable) hInside
        (n := set.toList.length + 1) (by omega)
      rw [if_pos ⟨hLeaves, hIsEnd.mpr hInside⟩, hSkip]
      have hSame : Graph.GraphStatementIteratorBackend.skip filter (set.toList.drop i) = set.toList.drop j := by
        rw [List.drop_eq_getElem_cons hInside, Graph.GraphStatementIteratorBackend.skip, hDrop]
      simp only [hLeaves, hInside, decide_true, Bool.and_self, if_true, hSame, Option.bind_some]
      exact ⟨j, by rw [hMore j hj], hj, rfl⟩
    · have hStays : ¬ (leaves && decide (i < set.toList.length)) = true := by simpa using hSkips
      rw [if_neg fun h => hSkips ⟨h.1, hIsEnd.mp h.2⟩, if_neg hStays]
      exact ⟨i, by rw [← hMore i hi], hi, rfl⟩

/-! ### What the list delivers -/

section List

omit [QtHash]

variable {filter : Statement} {members : List Statement}

/-- The iterator behind a number of calls of `next`: it stands at the last matching statement that it has
delivered, or at the end. -/
structure Behind (filter : Statement) (members : List Statement) (k : Nat)
    (v : Graph.GraphStatementIteratorBackend) : Prop where
  pattern : v.m_filter = filter
  first : v.m_first = true ↔ k = 0
  start : k = 0 → v.m_it = members
  left : 0 < k → v.m_it.filter (·.matches filter) = (members.filter (·.matches filter)).drop (k - 1)
  stands : 0 < k → ∀ s ∈ v.m_it.head?, s.matches filter = true

/-- What stands at the head of the rest is the statement that is delivered. -/
theorem delivered_of_left {l : List Statement} {k : Nat}
    (hLeft : l.filter (·.matches filter) = (members.filter (·.matches filter)).drop k)
    (hStands : ∀ s ∈ l.head?, s.matches filter = true) :
    delivered filter members k = (!l.isEmpty, l.head?.getD .empty) := by
  have hGet : (members.filter (·.matches filter))[k]? = (l.filter (·.matches filter)).head? := by
    rw [hLeft, List.head?_drop]
  rw [delivered, hGet]
  cases l with
  | nil => rfl
  | cons s rest =>
    have hMatch : s.matches filter = true := hStands s rfl
    simp [hMatch]

/-- A call of `next` delivers the next matching statement, unless it reads the end. -/
theorem behind_next {k : Nat} {v : Graph.GraphStatementIteratorBackend} (h : Behind filter members k v)
    (hMembers : members ≠ []) :
    ∃ v', v.next = some ((delivered filter members k).1, v') ∧ Behind filter members (k + 1) v' ∧
      v'.current = (delivered filter members k).2 := by
  obtain ⟨rfl, hFirst, hStart, hLeft, hStands⟩ := h
  -- what is to be shown of the place that `next` goes to
  suffices hPlace : ∃ l, v.next = some (!l.isEmpty, { v with m_first := false, m_it := l }) ∧
      l.filter (·.matches v.m_filter) = (members.filter (·.matches v.m_filter)).drop k ∧
      ∀ s ∈ l.head?, s.matches v.m_filter = true by
    obtain ⟨l, hNext, hRest, hHead⟩ := hPlace
    have hDelivered := delivered_of_left hRest hHead
    refine ⟨{ v with m_first := false, m_it := l }, by rw [hNext, hDelivered],
      ⟨rfl, by simp, (by intros; contradiction), fun _ => hRest, fun _ => hHead⟩, ?_⟩
    rw [hDelivered]
    rfl
  rcases Nat.eq_zero_or_pos k with rfl | hk
  · have hIt := hStart rfl
    obtain ⟨s, rest, hCons⟩ := List.exists_cons_of_ne_nil hMembers
    rw [Graph.GraphStatementIteratorBackend.next, Graph.GraphStatementIteratorBackend.leaves,
      hFirst.mpr rfl, hIt, hCons]
    cases hMatch : s.matches v.m_filter with
    | true =>
      refine ⟨s :: rest, by simp [hMatch], by rw [List.drop_zero], fun t ht => ?_⟩
      cases ht
      exact hMatch
    | false =>
      refine ⟨rest.dropWhile fun s => !s.matches v.m_filter, ?_, ?_, Graph.GraphStatementIteratorBackend.matches_head_dropWhile⟩
      · simp [hMatch, Graph.GraphStatementIteratorBackend.skip]
      · simp [Graph.GraphStatementIteratorBackend.filter_dropWhile, hMatch]
  · have hNotFirst : v.m_first = false := Bool.eq_false_iff.mpr fun h => hk.ne' (hFirst.mp h)
    have hNext : (members.filter (·.matches v.m_filter)).drop k =
        (v.m_it.filter (·.matches v.m_filter)).tail := by
      rw [hLeft hk, List.tail_drop, Nat.sub_add_cancel hk]
    rw [Graph.GraphStatementIteratorBackend.next, Graph.GraphStatementIteratorBackend.leaves, hNotFirst, hNext]
    cases hIt : v.m_it with
    | nil => exact ⟨[], by simp, rfl, by intros; contradiction⟩
    | cons s rest =>
      have hMatch : s.matches v.m_filter = true := hStands hk s (by rw [hIt]; rfl)
      refine ⟨rest.dropWhile fun s => !s.matches v.m_filter, ?_, ?_, Graph.GraphStatementIteratorBackend.matches_head_dropWhile⟩
      · simp [Graph.GraphStatementIteratorBackend.skip]
      · simp [Graph.GraphStatementIteratorBackend.filter_dropWhile, hMatch]

end List

/-! ### The tables beside other graphs -/

/-- The table that the graph's set has, with its statements. -/
structure Has (s : Store) (g table : Nat) (set : QSet Statement Statement.same) : Prop where
  heap : s.heap.WellFormed
  graph : s.heap.view[g]?.join = some table
  table : s.tables[table]? = some set

variable {t : Store} {g table : Nat}

theorem has_create (h : Has s g table set) (statements : List Statement) :
    Has (s.create statements) g table set := by
  have hPerform : s.heap.perform (ω := Unit) s.tables.length (fun _ a => some a) .create =
      some (s.create statements).heap := rfl
  obtain ⟨hView, hHeap⟩ := Heap.perform_view h.heap hPerform
  refine ⟨hHeap, onValues_of_ne hView h.graph nofun, ?_⟩
  rw [Store.create, List.getElem?_append_left (List.getElem?_eq_some_iff.mp h.table).1]
  exact h.table

theorem has_handle (h : Has s g table set) {c : Command Unit} (hTarget : c.target ≠ some g)
    (hHandle : s.handle c = some t) : Has t g table set := by
  obtain ⟨heap, hPerform, rfl⟩ := Option.map_eq_some_iff.mp hHandle
  obtain ⟨hView, hHeap⟩ := Heap.perform_view h.heap hPerform
  exact ⟨hHeap, onValues_of_ne hView h.graph hTarget, h.table⟩

/-- A graph that is changed has data of its own, and leaves the tables of the others alone. -/
theorem has_change (h : Has s g table set) {target : Nat} {operation : Graph → Graph} (hTarget : target ≠ g)
    (hChange : s.change target operation = some t) : Has t g table set := by
  simp only [Store.change, Option.bind_eq_bind, Option.bind_eq_some_iff, Prod.exists] at hChange
  obtain ⟨heap, p, hDetach, own, hOwn, old, hOld, hChange⟩ := hChange
  obtain ⟨hView, hHeap, hPointer, hOnly⟩ := Heap.detach_spec h.heap hDetach
  have hGraph : heap.view[g]?.join = some table := hView ▸ h.graph
  rw [← Heap.read_eq, Heap.read, Option.bind_eq_some_iff] at hGraph
  obtain ⟨q, hq, hObject⟩ := hGraph
  have hNe : q ≠ p := by
    rintro rfl
    exact hTarget (Heap.eq_of_count_eq_one hOnly hPointer (Option.join_eq_some_iff.mp hq))
  split at hChange
  · next hAlone =>
    cases hChange
    have hTables : own ≠ table := by
      rintro rfl
      have := List.all_eq_true.mp hAlone (some q) (Heap.mem_of_join hq).2
      simp [hNe, hObject] at this
    refine ⟨hHeap, ?_, (List.getElem?_set_ne hTables).trans h.table⟩
    rw [hView]
    exact h.graph
  · cases hChange
    have hp : p < heap.objects.length := hHeap p (List.mem_of_getElem? hPointer)
    refine ⟨fun r hr => ?_, ?_, ?_⟩
    · rw [List.length_set]
      exact hHeap r hr
    · rw [Heap.view_set hPointer hOnly hp, List.getElem?_set_ne hTarget, hView]
      exact h.graph
    · rw [List.getElem?_append_left (List.getElem?_eq_some_iff.mp h.table).1]
      exact h.table

/-- The end that `next` compares with is that of the table. -/
theorem constEnd_eq (h : Has s g table set) :
    ∃ t, s.constEnd g = some (t, table, set.toList.length) ∧ t.tables = s.tables ∧ Has t g table set := by
  have hGraph := h.graph
  rw [← Heap.read_eq, Heap.read, Option.bind_eq_some_iff] at hGraph
  obtain ⟨p, hp, hObject⟩ := hGraph
  obtain ⟨heap, q, hDetach⟩ : ∃ heap q, s.heap.detach g = some (heap, q) := by
    simp only [Heap.detach, hp, hObject, Option.bind_eq_bind, Option.bind_some]
    split
    · exact ⟨_, _, rfl⟩
    · exact ⟨_, _, rfl⟩
  obtain ⟨hView, hHeap, hPointer, hOnly⟩ := Heap.detach_spec h.heap hDetach
  have hSame : heap.objects[q]? = some table := by
    have hRead : heap.view[g]?.join = some table := hView ▸ h.graph
    rw [← Heap.read_eq, Heap.read, Option.join_eq_some_iff.mpr hPointer, Option.bind_some] at hRead
    exact hRead
  refine ⟨{ s with heap }, ?_, rfl, hHeap, ?_, h.table⟩
  · simp only [Store.constEnd, hDetach, hSame, h.table, Option.bind_eq_bind, Option.bind_some]
  · rw [hView]
    exact h.graph

/-! ### Runs -/

variable {filter : Statement}

/-- The iterator stands in the table of the graph that it was made for, which has not changed. -/
structure Stands (set : QSet Statement Statement.same) (filter : Statement) (s : State) : Prop where
  has : Has s.toStore s.it.m_graph s.it.m_it.1 set
  inside : s.it.m_it.2 ≤ set.toList.length
  behind : Behind filter set.toList s.log.length (s.it.view set)
  delivered : ∀ k o, s.log[k]? = some o → o = some (delivered filter set.toList k)

theorem stands_step {s t : State} {a : Action} (hSet : set.toList ≠ []) (h : Stands set filter s)
    (hStep : step s a = some t) : Stands set filter t := by
  simp only [step, Option.ite_none_left_eq_some] at hStep
  obtain ⟨hTarget, hStep⟩ := hStep
  cases a with
  | create statements =>
    cases hStep
    exact ⟨has_create h.has statements, h.inside, h.behind, h.delivered⟩
  | handle c =>
    obtain ⟨u, hHandle, rfl⟩ := Option.map_eq_some_iff.mp hStep
    exact ⟨has_handle h.has hTarget hHandle, h.inside, h.behind, h.delivered⟩
  | change target operation =>
    obtain ⟨u, hChange, rfl⟩ := Option.map_eq_some_iff.mp hStep
    have hNe : target ≠ s.it.m_graph := fun hEq => hTarget (congrArg some hEq)
    exact ⟨has_change h.has hNe hChange, h.inside, h.behind, h.delivered⟩
  | next =>
    obtain ⟨u, hEnd, hTables, hHas⟩ := constEnd_eq h.has
    obtain ⟨v, hNext, hBehind, hCurrent⟩ := behind_next h.behind hSet
    have hView := next_view h.has.table h.inside hTables hEnd
    rw [hNext] at hView
    obtain ⟨j, hIt, hj, rfl⟩ := hView
    simp only [hIt] at hStep
    cases hStep
    refine ⟨hHas, hj, ?_, fun k o hk => ?_⟩
    · rw [List.length_append, List.length_singleton]
      exact hBehind
    · have hIs : Backend.current u { s.it with m_first := false, m_it := (s.it.m_it.1, j) } =
          (GraphIterator.delivered filter set.toList s.log.length).2 := by
        rw [← hCurrent, Backend.current, deref_eq (hTables ▸ h.has.table),
          Graph.GraphStatementIteratorBackend.current, List.head?_drop]
      rw [hIs] at hk
      rcases Nat.lt_or_ge k s.log.length with hLt | hGe
      · rw [List.getElem?_append_left hLt] at hk
        exact h.delivered k o hk
      · rw [List.getElem?_append_right hGe] at hk
        have hLength := (List.getElem?_eq_some_iff.mp hk).1
        obtain rfl : k = s.log.length := by
          rw [List.length_singleton] at hLength
          omega
        rw [Nat.sub_self] at hk
        exact (Option.some.inj hk).symm

theorem stands_listStatements (hHeap : s.heap.WellFormed) {u : State}
    (hTable : s.heap.view[g]?.join = some table) (hSet : s.tables[table]? = some set)
    (h : listStatements s g filter = some u) : Stands set filter u := by
  simp only [listStatements, Option.bind_eq_bind, Option.bind_eq_some_iff] at h
  obtain ⟨p, hPointer, own, hObject, hState⟩ := h
  have hOwn : own = table := by
    rw [← Heap.read_eq, Heap.read, hPointer, Option.bind_some, hObject] at hTable
    exact Option.some.inj hTable
  subst hOwn
  cases hState
  have hPerform : s.heap.perform (ω := Unit) 0 (fun _ a => some a) (.copy g) =
      some ⟨s.heap.objects, s.heap.pointers ++ [some p]⟩ := by
    simp only [Heap.perform, hPointer, Option.bind_eq_bind, Option.bind_some]
  refine ⟨⟨(Heap.perform_view hHeap hPerform).2, ?_, hSet⟩, Nat.zero_le _, ?_, fun k o hk => ?_⟩
  · rw [← Heap.read_eq, Heap.read, List.getElem?_concat_length]
    exact hObject
  · exact ⟨rfl, iff_of_true rfl rfl, fun _ => rfl, fun h => absurd h (Nat.lt_irrefl 0),
      fun h => absurd h (Nat.lt_irrefl 0)⟩
  · rw [List.getElem?_nil] at hk
    cases hk

/-- The iterator of a graph delivers each matching statement once, and then nothing for ever, whatever is
done with other graphs meanwhile, if and only if the graph has a statement. -/
theorem delivers_iff {s : Store} (hHeap : s.heap.WellFormed) (g table : Nat)
    (set : QSet Statement Statement.same) (hTable : s.heap.view[g]?.join = some table)
    (hSet : s.tables[table]? = some set) (filter : Statement) :
    ∃ start, listStatements s g filter = some start ∧
      ((∀ actions t, run step start actions = some t →
        ∀ k o, t.log[k]? = some o → o = some (delivered filter set.toList k)) ↔ set.toList ≠ []) := by
  have hRead := hTable
  rw [← Heap.read_eq, Heap.read, Option.bind_eq_some_iff] at hRead
  obtain ⟨p, hPointer, hObject⟩ := hRead
  obtain ⟨start, hStart⟩ : ∃ start, listStatements s g filter = some start := by
    simp only [listStatements, hPointer, hObject, Option.bind_eq_bind, Option.bind_some]
    exact ⟨_, rfl⟩
  have hStands := stands_listStatements hHeap hTable hSet hStart
  refine ⟨start, hStart, fun hAll hEmpty => ?_, fun hNe actions t hRun => ?_⟩
  · -- the first call reads the end
    obtain ⟨u, hEnd, hTables, -⟩ := constEnd_eq hStands.has
    have hView := next_view hStands.has.table hStands.inside hTables hEnd
    have hLog : start.log = [] ∧ start.it.m_first = true := by
      simp only [listStatements, hPointer, hObject, Option.bind_eq_bind, Option.bind_some,
        Option.some.injEq] at hStart
      subst hStart
      exact ⟨rfl, rfl⟩
    have hNone : (start.it.view set).next = none := by
      simp [Graph.GraphStatementIteratorBackend.next, Graph.GraphStatementIteratorBackend.leaves,
        Backend.view, hLog.2, hEmpty]
    rw [hNone] at hView
    have hStep : step start .next = some { start with log := start.log ++ [none] } := by
      simp [step, Action.target, hView]
    have hBad := hAll [.next] _ (run_cons_of_step hStep) 0 none (by rw [hLog.1]; rfl)
    cases hBad
  · exact (invariant_of_forall (stands_step hNe) hStands hRun).delivered

end Qt

section Example

local instance graphIteratorQt : Qt := asciiQt

local instance graphIteratorHash : QtHash := ⟨fun _ => 0, fun _ => 0⟩

/-- A graph with those statements. -/
def storeOf (statements : List Statement) : Store :=
  Store.create ⟨⟨[], []⟩, []⟩ statements

theorem delivers_iff_example :
    ∃ start, listStatements (storeOf [Graph.inContext (Graph.numbered 3)]) 0 .empty = some start ∧
      ∀ actions t, run step start actions = some t → ∀ k o, t.log[k]? = some o →
        o = some (delivered .empty [Graph.inContext (Graph.numbered 3)] k) := by
  obtain ⟨start, hStart, hIff⟩ := delivers_iff (s := storeOf [Graph.inContext (Graph.numbered 3)])
    (fun p hp => by cases List.mem_singleton.mp hp; decide) 0 0
    (.fromList [Graph.inContext (Graph.numbered 3)]) rfl rfl .empty
  exact ⟨start, hStart, hIff.mpr (List.cons_ne_nil _ _)⟩

/-- The first `next` of the iterator of an empty graph reads the end. -/
theorem reads_end :
    ¬ ∀ statements filter start actions t, listStatements (storeOf statements) 0 filter = some start →
      run step start actions = some t → none ∉ t.log :=
  fun h => h [] .empty _ [.next] _ rfl rfl (by decide)

end Example

end GraphIterator

end Soprano
