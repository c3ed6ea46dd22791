import Soprano.Equality
import Soprano.Qt.Set

/-! `Graph`: a set of statements in memory. Its questions are answered by a lookup of the hash set, by
loops over the set, and by an iterator. -/

namespace Soprano

section Qt

variable [Qt] [QtHash]

/-- The test of a hash set for a node that it is asked for, and one of its nodes. -/
def Node.same (n stored : Node) : Bool := n.qHash == stored.qHash && n.operatorEq stored

def Statement.same (s stored : Statement) : Bool := s.qHash == stored.qHash && s.operatorEq stored

/-- `Graph` -/
structure Graph where
  statements : QSet Statement Statement.same

namespace Graph

/-- `Graph()` -/
def empty : Graph := ⟨.empty⟩

/-- `Graph( const QList<Statement>& )` and `operator=` of a list -/
def ofList (s : List Statement) : Graph := ⟨.fromList s⟩

def addStatement (g : Graph) (statement : Statement) : Graph := ⟨g.statements.insert statement⟩

def addStatements (g : Graph) (statements : List Statement) : Graph :=
  ⟨g.statements.unite (.fromList statements)⟩

def removeStatement (g : Graph) (statement : Statement) : Graph := ⟨g.statements.remove statement⟩

def removeStatements (g : Graph) (statements : List Statement) : Graph :=
  ⟨g.statements.subtract (.fromList statements)⟩

/-- `operator+=` of a graph -/
def unite (g other : Graph) : Graph := ⟨g.statements.unite other.statements⟩

/-- `operator-=` of a graph -/
def subtract (g other : Graph) : Graph := ⟨g.statements.subtract other.statements⟩

/-- The loop of `removeAllStatements` from an iterator on: `erase` returns the next one. -/
def eraseMatching (statement : Statement) : List Statement → List Statement
  | [] => []
  | s :: rest =>
    if s.matches statement then eraseMatching statement rest else s :: eraseMatching statement rest

omit [QtHash] in
theorem eraseMatching_eq (statement : Statement) (l : List Statement) :
    eraseMatching statement l = l.filter fun s => !s.matches statement := by
  induction l with
  | nil => rfl
  | cons s rest ih => cases h : s.matches statement <;> simp [eraseMatching, h, ih]

def removeAllStatements (g : Graph) (statement : Statement) : Graph :=
  ⟨⟨eraseMatching statement g.statements.toList, by
    rw [eraseMatching_eq]
    exact g.statements.distinct.filter _⟩⟩

/-- The statement that stands for a context: all other nodes are wildcards. -/
def inContext (c : Node) : Statement := ⟨.empty, .empty, .empty, c⟩

def removeContext (g : Graph) (c : Node) : Graph := g.removeAllStatements (inContext c)

/-- The loop of `containsAnyStatement` from an iterator on. -/
def anyMatching (statement : Statement) : List Statement → Bool
  | [] => false
  | s :: rest => if s.matches statement then true else anyMatching statement rest

def containsAnyStatement (g : Graph) (statement : Statement) : Bool :=
  anyMatching statement g.statements.toList

def containsStatement (g : Graph) (statement : Statement) : Bool := g.statements.contains statement

def containsContext (g : Graph) (context : Node) : Bool := g.containsStatement (inContext context)

/-- The loop of `listContexts` from an iterator on. -/
def contextsFrom (contexts : QSet Node Node.same) : List Statement → QSet Node Node.same
  | [] => contexts
  | s :: rest =>
    contextsFrom (if s.context.isEmpty then contexts else contexts.insert s.context) rest

def listContexts (g : Graph) : List Node := (contextsFrom .empty g.statements.toList).toList

/-- `GraphStatementIteratorBackend`: the position `m_it` is the statements from there on, and the
graph, whose end is the end of these, is left out. -/
structure GraphStatementIteratorBackend where
  m_filter : Statement
  m_first : Bool
  m_it : List Statement

namespace GraphStatementIteratorBackend

/-- The loop of `next`, which leaves the statement that it stands at. -/
def skip (filter : Statement) : List Statement → List Statement
  | [] => []
  | _ :: rest => rest.dropWhile fun s => !s.matches filter

/-- The first part of the condition in `next`; nothing stands at the end. -/
def leaves (it : GraphStatementIteratorBackend) : Option Bool :=
  if it.m_first then it.m_it.head?.map fun s => !s.matches it.m_filter else some true

/-- `next` is undefined where it reads the statement at the end. -/
def next (it : GraphStatementIteratorBackend) : Option (Bool × GraphStatementIteratorBackend) :=
  it.leaves.map fun leaves =>
    let m_it := if leaves && !it.m_it.isEmpty then skip it.m_filter it.m_it else it.m_it
    (!m_it.isEmpty, { it with m_first := false, m_it := m_it })

def current (it : GraphStatementIteratorBackend) : Statement := it.m_it.head?.getD .empty

/-- `Iterator::allElements`, in a number of turns. -/
def allElements : Nat → GraphStatementIteratorBackend → Option (List Statement)
  | 0, _ => none
  | n + 1, it =>
    match it.next with
    | none => none
    | some (false, _) => some []
    | some (true, it) => (it.allElements n).map (it.current :: ·)

end GraphStatementIteratorBackend

def listStatements (g : Graph) (partialStatement : Statement) : GraphStatementIteratorBackend :=
  ⟨partialStatement, true, g.statements.toList⟩

def listStatementsInContext (g : Graph) (context : Node) : GraphStatementIteratorBackend :=
  g.listStatements (inContext context)

/-! ### One relation of matching -/

omit [QtHash] in
theorem anyMatching_iff {statement : Statement} {l : List Statement} :
    anyMatching statement l = true ↔ ∃ s ∈ l, s.matches statement = true := by
  induction l with
  | nil => simp [anyMatching]
  | cons s rest ih => cases h : s.matches statement <;> simp [anyMatching, h, ih]

theorem containsAnyStatement_iff {g : Graph} {statement : Statement} :
    g.containsAnyStatement statement = true ↔
      ∃ s ∈ g.statements.toList, s.matches statement = true := anyMatching_iff

omit [QtHash] in
theorem matches_inContext {s : Statement} {c : Node} (hc : c.isEmpty = false) :
    s.matches (inContext c) = s.context.operatorEq c := by
  have hEmpty : (Node.empty).isEmpty = true := rfl
  simp [Statement.matches, Node.matches, inContext, hc, hEmpty]

namespace GraphStatementIteratorBackend

omit [QtHash]

/-- What does not match is left out, up to the first that does. -/
theorem filter_dropWhile (filter : Statement) (l : List Statement) :
    (l.dropWhile fun s => !s.matches filter).filter (·.matches filter) = l.filter (·.matches filter) := by
  induction l with
  | nil => rfl
  | cons s rest ih => cases h : s.matches filter <;> simp [h, ih]

theorem matches_head_dropWhile {filter : Statement} {l : List Statement} :
    ∀ t ∈ (l.dropWhile fun s => !s.matches filter).head?, t.matches filter = true := by
  intro t ht
  have := List.head?_dropWhile_not (fun s => !s.matches filter) l
  rw [Option.mem_def.mp ht] at this
  simpa using this

/-- Behind a statement, the iterator finds the matching ones of the rest. -/
theorem allElements_behind (filter s : Statement) {rest : List Statement} {n : Nat}
    (h : rest.length < n) :
    allElements n ⟨filter, false, s :: rest⟩ = some (rest.filter (·.matches filter)) := by
  induction n generalizing s rest with
  | zero => exact absurd h (Nat.not_lt_zero _)
  | succ n ih =>
    have hNext : next ⟨filter, false, s :: rest⟩ =
        some (!(skip filter (s :: rest)).isEmpty, ⟨filter, false, skip filter (s :: rest)⟩) := rfl
    rw [allElements, hNext]
    have hFilter : rest.filter (·.matches filter) =
        (skip filter (s :: rest)).filter (·.matches filter) := (filter_dropWhile filter rest).symm
    have hLength : (skip filter (s :: rest)).length ≤ rest.length :=
      (List.dropWhile_sublist _).length_le
    have hHead : ∀ t ∈ (skip filter (s :: rest)).head?, t.matches filter = true := matches_head_dropWhile
    rw [hFilter]
    cases hSkip : skip filter (s :: rest) with
    | nil => rfl
    | cons t rest' =>
      rw [hSkip] at hLength hHead
      have hRest := @ih t rest' (by simp only [List.length_cons] at hLength; omega)
      simp [hRest, current, hHead t rfl]

/-- The whole list of a graph that is not empty. -/
theorem allElements_first (filter : Statement) {l : List Statement} {n : Nat} (hl : l ≠ [])
    (h : l.length < n) :
    allElements n ⟨filter, true, l⟩ = some (l.filter (·.matches filter)) := by
  obtain ⟨s, rest, rfl⟩ := List.exists_cons_of_ne_nil hl
  cases n with
  | zero => exact absurd h (Nat.not_lt_zero _)
  | succ n =>
    cases hMatch : s.matches filter with
    | true =>
      have hNext : next ⟨filter, true, s :: rest⟩ = some (true, ⟨filter, false, s :: rest⟩) := by
        simp [next, leaves, hMatch]
      rw [allElements, hNext]
      have hRest := allElements_behind filter s
        (show rest.length < n by simp only [List.length_cons] at h; omega)
      simp [hRest, current, hMatch]
    | false =>
      -- the iterator goes on as if it stood behind the statement
      have hNext : next ⟨filter, true, s :: rest⟩ = next ⟨filter, false, s :: rest⟩ := by
        simp [next, leaves, hMatch]
      have hAll : allElements (n + 1) ⟨filter, true, s :: rest⟩ =
          allElements (n + 1) ⟨filter, false, s :: rest⟩ := by
        rw [allElements, hNext, allElements]
      rw [hAll, allElements_behind filter s (by simp only [List.length_cons] at h; omega)]
      simp [hMatch]

theorem allElements_empty (filter : Statement) (n : Nat) : allElements n ⟨filter, true, []⟩ = none := by
  cases n <;> rfl

theorem allElements_mono {it : GraphStatementIteratorBackend} {l : List Statement} {n m : Nat}
    (h : allElements n it = some l) (hLe : n ≤ m) : allElements m it = some l := by
  induction n generalizing it l m with
  | zero => cases h
  | succ n ih =>
    obtain ⟨m, rfl⟩ := Nat.exists_eq_add_of_le' hLe
    rw [allElements] at h
    rw [show m + (n + 1) = m + n + 1 from rfl, allElements]
    cases hNext : it.next with
    | none =>
      rw [hNext] at h
      cases h
    | some result =>
      obtain ⟨more, it'⟩ := result
      rw [hNext] at h
      cases more with
      | false => exact h
      | true =>
        obtain ⟨rest, hRest, rfl⟩ := Option.map_eq_some_iff.mp h
        show (allElements (m + n) it').map _ = _
        rw [ih hRest (Nat.le_add_left n m)]
        rfl

/-- What a client reads until `next` returns false. -/
def Lists (it : GraphStatementIteratorBackend) (l : List Statement) : Prop :=
  ∃ n, it.allElements n = some l

end GraphStatementIteratorBackend

/-- A listing of a graph has the matching statements; that of the empty graph is undefined. -/
theorem lists_iff {g : Graph} {p : Statement} {l : List Statement} :
    (g.listStatements p).Lists l ↔
      g.statements.toList ≠ [] ∧ l = g.statements.toList.filter (·.matches p) := by
  rw [GraphStatementIteratorBackend.Lists, listStatements]
  cases hList : g.statements.toList with
  | nil => simp [GraphStatementIteratorBackend.allElements_empty]
  | cons s rest =>
    constructor
    · rintro ⟨n, hn⟩
      refine ⟨List.cons_ne_nil _ _, ?_⟩
      have hAll := GraphStatementIteratorBackend.allElements_first p
        (List.cons_ne_nil s rest) (Nat.lt_succ_of_le (Nat.le_add_left _ n))
      rw [GraphStatementIteratorBackend.allElements_mono hn
        (Nat.le_succ_of_le (Nat.le_add_right n _))] at hAll
      exact Option.some.inj hAll
    · rintro ⟨-, rfl⟩
      exact ⟨_, GraphStatementIteratorBackend.allElements_first p (List.cons_ne_nil _ _)
        (Nat.lt_succ_self _)⟩

theorem contextsFrom_eq (contexts : QSet Node Node.same) (l : List Statement) :
    contextsFrom contexts l =
      ((l.map Statement.context).filter fun n => !n.isEmpty).foldl QSet.insert contexts := by
  induction l generalizing contexts with
  | nil => rfl
  | cons s rest ih => cases h : s.context.isEmpty <;> simp [contextsFrom, h, ih]

/-- A context is listed, up to equality, if a statement is in it. -/
theorem exists_listContexts_iff (hDouble : DoubleEquality) {g : Graph} {c : Node}
    (hc : c.isEmpty = false) :
    (∃ n ∈ g.listContexts, n.operatorEq c = true) ↔
      ∃ s ∈ g.statements.toList, s.context.operatorEq c = true := by
  obtain ⟨-, hFrom, hFound⟩ := QSet.mem_foldl_insert
    ((g.statements.toList.map Statement.context).filter fun n => !n.isEmpty)
    (QSet.empty : QSet Node Node.same)
  rw [← contextsFrom_eq] at hFrom hFound
  constructor
  · rintro ⟨n, hn, hEq⟩
    obtain ⟨s, hs, rfl⟩ := List.mem_map.mp (List.mem_filter.mp
      ((hFrom n hn).resolve_left List.not_mem_nil)).1
    exact ⟨s, hs, hEq⟩
  · rintro ⟨s, hs, hEq⟩
    have hContext : s.context.isEmpty = false := by
      cases hNode : s.context with
      | empty =>
        rw [hNode] at hEq
        cases c with
        | empty => cases hc
        | _ => cases hEq
      | _ => rfl
    obtain ⟨n, hn, hSame⟩ := hFound s.context
      (List.mem_filter.mpr ⟨List.mem_map_of_mem hs, by simp [hContext]⟩)
    refine ⟨n, hn, ?_⟩
    rcases hSame with rfl | hSame
    · exact hEq
    · have hNode : s.context.operatorEq n = true := (Bool.and_eq_true_iff.mp hSame).2
      exact Node.operatorEq_trans hDouble (Node.operatorEq_symm hDouble hNode) hEq

/-- What stands for a context in the hash set is in the context. -/
theorem operatorEq_of_same (hDouble : DoubleEquality) {c : Node} {s : Statement}
    (h : (inContext c).same s = true) : s.context.operatorEq c = true := by
  simp only [Statement.same, Statement.operatorEq, Bool.and_eq_true] at h
  exact Node.operatorEq_symm hDouble h.2.2

/-- The questions about a pattern and about a context have one answer, also behind the removal of
what matches the pattern. -/
structure Agrees (g : Graph) (p : Statement) (c : Node) : Prop where
  listing : ∃ l, (g.listStatements p).Lists l ∧ (g.containsAnyStatement p = true ↔ l ≠ []) ∧
    (l ≠ [] ↔ ∃ s ∈ g.statements.toList, s.matches p = true)
  contexts : c.isEmpty = false → ∃ l, (g.listStatementsInContext c).Lists l ∧
    (g.containsContext c = true ↔ ∃ n ∈ g.listContexts, n.operatorEq c = true) ∧
    (g.containsContext c = true ↔ l ≠ [])
  gone : ((g.removeAllStatements p).listStatements p).Lists [] ∧
    (g.removeAllStatements p).containsAnyStatement p = false ∧
    ∀ s ∈ (g.removeAllStatements p).statements.toList, s.matches p = false
  contextGone : c.isEmpty = false → p = inContext c →
    (g.removeAllStatements p).containsContext c = false ∧
    ∀ n ∈ (g.removeAllStatements p).listContexts, n.operatorEq c = false
  kept : ∀ s ∈ g.statements.toList, s.matches p = false →
    s ∈ (g.removeAllStatements p).statements.toList

theorem mem_removeAllStatements {g : Graph} {p s : Statement} :
    s ∈ (g.removeAllStatements p).statements.toList ↔
      s ∈ g.statements.toList ∧ s.matches p = false := by
  show s ∈ eraseMatching p g.statements.toList ↔ _
  rw [eraseMatching_eq, List.mem_filter, Bool.not_eq_true']

/-- The questions agree if and only if some statement does not match the pattern, and the context is
empty, or no statement is in it, or the graph has the statement of the context alone. -/
theorem agrees_iff (hDouble : DoubleEquality) (g : Graph) (p : Statement) (c : Node) :
    Agrees g p c ↔ (∃ s ∈ g.statements.toList, s.matches p = false) ∧
      (c.isEmpty = false → (∃ s ∈ g.statements.toList, (inContext c).same s = true) ∨
        ∀ s ∈ g.statements.toList, s.context.operatorEq c = false) := by
  have hContains : g.containsContext c = true ↔
      ∃ s ∈ g.statements.toList, (inContext c).same s = true := QSet.contains_iff
  constructor
  · intro h
    constructor
    · have hNe := (lists_iff.mp h.gone.1).1
      obtain ⟨s, rest, hList⟩ := List.exists_cons_of_ne_nil hNe
      have hs : s ∈ (g.removeAllStatements p).statements.toList := hList ▸ List.mem_cons_self
      exact ⟨s, mem_removeAllStatements.mp hs⟩
    · intro hc
      obtain ⟨l, -, hListed, -⟩ := h.contexts hc
      by_cases hIn : ∃ s ∈ g.statements.toList, s.context.operatorEq c = true
      · exact .inl (hContains.mp (hListed.mpr ((exists_listContexts_iff hDouble hc).mpr hIn)))
      · exact .inr fun s hs => Bool.eq_false_iff.mpr fun hEq => hIn ⟨s, hs, hEq⟩
  · rintro ⟨⟨s, hs, hMatch⟩, hContext⟩
    have hNe : g.statements.toList ≠ [] := List.ne_nil_of_mem hs
    have hLeft : (g.removeAllStatements p).statements.toList ≠ [] :=
      List.ne_nil_of_mem (mem_removeAllStatements.mpr ⟨hs, hMatch⟩)
    have hFilter : ∀ q : Statement, g.statements.toList.filter (·.matches q) ≠ [] ↔
        ∃ s ∈ g.statements.toList, s.matches q = true := by
      intro q
      simp [List.filter_eq_nil_iff]
    have hNone : ∀ s ∈ (g.removeAllStatements p).statements.toList, s.matches p = false :=
      fun s hs => (mem_removeAllStatements.mp hs).2
    refine ⟨?_, fun hc => ?_, ⟨?_, ?_, hNone⟩, fun hc hp => ⟨?_, fun n hn => ?_⟩, fun s hs hMatch => ?_⟩
    · exact ⟨_, lists_iff.mpr ⟨hNe, rfl⟩, containsAnyStatement_iff.trans (hFilter p).symm, hFilter p⟩
    · have hSame : g.containsContext c = true ↔
          ∃ s ∈ g.statements.toList, s.context.operatorEq c = true := by
        rw [hContains]
        constructor
        · rintro ⟨s, hs, hSame⟩
          exact ⟨s, hs, operatorEq_of_same hDouble hSame⟩
        · rintro ⟨s, hs, hEq⟩
          refine (hContext hc).resolve_right fun hNo => ?_
          rw [hNo s hs] at hEq
          cases hEq
      refine ⟨_, lists_iff.mpr ⟨hNe, rfl⟩, hSame.trans (exists_listContexts_iff hDouble hc).symm, ?_⟩
      rw [hSame, hFilter]
      simp only [matches_inContext hc]
    · refine lists_iff.mpr ⟨hLeft, (List.filter_eq_nil_iff.mpr fun s hs => ?_).symm⟩
      simp [hNone s hs]
    · refine Bool.eq_false_iff.mpr fun hAny => ?_
      obtain ⟨s, hs, hMatch⟩ := containsAnyStatement_iff.mp hAny
      rw [hNone s hs] at hMatch
      cases hMatch
    · refine Bool.eq_false_iff.mpr fun hStands => ?_
      obtain ⟨s, hs, hSame⟩ := QSet.contains_iff.mp hStands
      have hMatch := hNone s hs
      rw [hp, matches_inContext hc, operatorEq_of_same hDouble hSame] at hMatch
      cases hMatch
    · refine Bool.eq_false_iff.mpr fun hEq => ?_
      obtain ⟨s, hs, hIn⟩ := (exists_listContexts_iff hDouble hc).mp ⟨n, hn, hEq⟩
      have hMatch := hNone s hs
      rw [hp, matches_inContext hc, hIn] at hMatch
      cases hMatch
    · exact mem_removeAllStatements.mpr ⟨hs, hMatch⟩

end Graph

end Qt

section Example

local instance graphQt : Qt := asciiQt

local instance graphHash : QtHash := ⟨fun _ => 0, fun _ => 0⟩

namespace Graph

/-- A resource of its own for each number. -/
def numbered (i : Fin 10) : Node := .ofUri ⟨['u', 'r', 'n', ':', Nat.digitChar i], by revert i; decide⟩

/-- Two statements in different contexts. -/
def twoContexts : Graph :=
  (empty.addStatement ⟨numbered 0, numbered 1, numbered 2, numbered 3⟩).addStatement
    ⟨numbered 0, numbered 1, numbered 2, numbered 4⟩

theorem doubleEquality_ascii : DoubleEquality where
  symm d e h := by
    have hEq : d = e := eq_of_beq h
    exact beq_iff_eq.mpr hEq.symm
  trans d e f h h' := by
    have hFirst : d = e := eq_of_beq h
    have hSecond : e = f := eq_of_beq h'
    exact beq_iff_eq.mpr (hFirst.trans hSecond)

/-- The questions agree for a context that no statement is in. -/
theorem agrees_twoContexts : Agrees twoContexts (inContext (numbered 3)) (numbered 5) :=
  (agrees_iff doubleEquality_ascii _ _ _).mpr
    ⟨⟨⟨numbered 0, numbered 1, numbered 2, numbered 4⟩, by decide, by decide⟩, fun _ =>
      .inr (by decide)⟩

/-- A context is listed and not contained. -/
theorem containsContext_twoContexts : ¬ ∀ g p c, Agrees g p c := by
  intro hAgrees
  obtain ⟨l, -, hListed, -⟩ := (hAgrees twoContexts (inContext (numbered 3)) (numbered 3)).contexts rfl
  have hNot : twoContexts.containsContext (numbered 3) = false := by decide
  rw [hListed.mpr ⟨numbered 3, by decide, by decide⟩] at hNot
  cases hNot

end Graph

end Example

end Soprano
