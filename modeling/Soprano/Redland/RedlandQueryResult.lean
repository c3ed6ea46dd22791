import Soprano.Node

/-! `RedlandQueryResult`: `next` only looks whether the stream of a graph result has ended, and
`currentStatement` moves it on. -/

namespace Soprano.Redland

section Use

variable [Qt]

/-- `librdf_query_results`: its kind, the number of rows from the current one on, and the statements that it
exposes as a stream, if it can. -/
structure QueryResults where
  isGraph : Bool
  isBindings : Bool
  isBoolean : Bool
  rows : Nat
  statements : Option (List Statement)

/-- `RedlandQueryResult::Private`, with the statements that the stream has left, and whether it has a model. -/
structure RedlandQueryResult where
  result : Option QueryResults
  stream : Option (List Statement)
  first : Bool
  isBool : Bool
  isGraph : Bool
  isBinding : Bool
  model : Bool

namespace RedlandQueryResult

def init (result : QueryResults) : RedlandQueryResult :=
  ⟨some result, none, true, result.isBoolean, result.isGraph, result.isBindings, true⟩

/-- `RedlandQueryResult::close` -/
def close (s : RedlandQueryResult) : RedlandQueryResult :=
  { s with
    result := none
    stream := if s.result.isSome then none else s.stream
    model := false }

/-- `RedlandQueryResult::next` -/
def next (s : RedlandQueryResult) : Bool × RedlandQueryResult :=
  match s.result with
  | none => (false, s)
  | some result =>
    if s.isBool then (false, s)
    else if s.isBinding then
      if s.first then
        if 0 < result.rows then (true, { s with first := false }) else (false, { s with first := false }.close)
      else
        -- `librdf_query_results_next` leaves the current row first
        let s := { s with result := some { result with rows := result.rows - 1 } }
        if 1 < result.rows then (true, s) else (false, s.close)
    else if s.isGraph then
      let s := if s.first then { s with stream := result.statements, first := false } else s
      match s.stream with
      | some [] => (false, s.close)
      | some (_ :: _) => (true, s)
      | none => (false, s)
    else (false, s)

/-- `RedlandQueryResult::currentStatement` -/
def currentStatement (s : RedlandQueryResult) : Statement × RedlandQueryResult :=
  match s.stream with
  -- `librdf_stream_next`
  | some (statement :: rest) => (statement, { s with stream := some rest })
  | some [] => (.empty, s)
  | none => (.empty, s)

/-! ### Its use -/

/-- Calls of `currentStatement` in a row. -/
def currents : Nat → RedlandQueryResult → List Statement × RedlandQueryResult
  | 0, s => ([], s)
  | count + 1, s =>
    let (statement, s) := s.currentStatement
    let (statements, s) := currents count s
    (statement :: statements, s)

/-- A call of `next`, and `count` calls of `currentStatement` behind it. -/
def round (count : Nat) (s : RedlandQueryResult) : (Bool × List Statement) × RedlandQueryResult :=
  let (hasNext, s) := s.next
  let (statements, s) := currents count s
  ((hasNext, statements), s)

/-- The state before the round at `k`, where `calls` counts the calls of `currentStatement` in each round. -/
def before (calls : Nat → Nat) (s : RedlandQueryResult) : Nat → RedlandQueryResult
  | 0 => s
  | k + 1 => (round (calls k) (before calls s k)).2

/-- What the calls of the round at `k` return. -/
def returned (calls : Nat → Nat) (s : RedlandQueryResult) (k : Nat) : Bool × List Statement :=
  (round (calls k) (before calls s k)).1

/-- The result of a query that constructs or describes. -/
def graph (statements : List Statement) : QueryResults := ⟨true, false, false, 0, some statements⟩

/-- `next` returns true once for each statement and then false, and each call of `currentStatement` behind it
returns that statement. -/
def Contract (calls : Nat → Nat) (statements : List Statement) : Prop :=
  (∀ k ≤ statements.length, (returned calls (init (graph statements)) k).1 = decide (k < statements.length)) ∧
    ∀ k, ∀ statement ∈ statements[k]?,
      (returned calls (init (graph statements)) k).2 = List.replicate (calls k) statement

/-- The calls of `currentStatement` before the round at `k`. -/
def total (calls : Nat → Nat) : Nat → Nat
  | 0 => 0
  | k + 1 => total calls k + calls k

/-- Before each of the first rounds there were fewer calls than there are statements, behind all of them as
many or more, and the calls of a round, counted through, find the statement of the round. -/
def Aligned (calls : Nat → Nat) (statements : List Statement) : Prop :=
  (∀ k < statements.length, total calls k < statements.length) ∧
    statements.length ≤ total calls statements.length ∧
    ∀ k, ∀ statement ∈ statements[k]?, ∀ j < calls k,
      statements[total calls k + j]?.getD .empty = statement

/-! ### The stream along the rounds -/

variable {statements : List Statement} {s : RedlandQueryResult} {t : Nat} {calls : Nat → Nat}

/-- A graph result behind `t` calls of `currentStatement`. -/
structure At (statements : List Statement) (t : Nat) (s : RedlandQueryResult) : Prop where
  result : s.result = some (graph statements)
  kind : s.isBool = false ∧ s.isBinding = false ∧ s.isGraph = true
  stream : s.first = true ∧ t = 0 ∨ s.first = false ∧ s.stream = some (statements.drop t)

theorem at_init : At statements 0 (init (graph statements)) := ⟨rfl, ⟨rfl, rfl, rfl⟩, .inl ⟨rfl, rfl⟩⟩

/-- What `next` looks at, and where it leaves the stream. -/
theorem At.next_eq (h : At statements t s) :
    s.next = match statements.drop t with
      | [] => (false, { s with stream := some [], first := false }.close)
      | _ :: _ => (true, { s with stream := some (statements.drop t), first := false }) := by
  obtain ⟨result, stream, first, isBool, isGraph, isBinding, model⟩ := s
  obtain ⟨rfl, ⟨rfl, rfl, rfl⟩, hStream⟩ := h
  rcases hStream with ⟨rfl, rfl⟩ | ⟨rfl, rfl⟩
  · cases statements <;> rfl
  · change (match some (statements.drop t) with | some [] => _ | some (_ :: _) => _ | none => _) = _
    cases statements.drop t <;> rfl

theorem At.next_of_ge (h : At statements t s) (hEnd : statements.length ≤ t) : s.next.1 = false := by
  rw [h.next_eq, List.drop_eq_nil_of_le hEnd]

/-- Before the end of the stream `next` returns true and leaves it where it is. -/
theorem At.next_of_lt (h : At statements t s) (hLt : t < statements.length) :
    s.next.1 = true ∧ s.next.2.first = false ∧ At statements t s.next.2 := by
  rw [h.next_eq, List.drop_eq_getElem_cons hLt]
  refine ⟨rfl, rfl, h.result, h.kind, .inr ⟨rfl, ?_⟩⟩
  rw [List.drop_eq_getElem_cons hLt]

/-- Each call of `currentStatement` returns the next statement of the stream. -/
theorem At.currentStatement (h : At statements t s) (hFirst : s.first = false) :
    s.currentStatement.1 = statements[t]?.getD .empty ∧ s.currentStatement.2.first = false ∧
      At statements (t + 1) s.currentStatement.2 := by
  have hStream : s.stream = some (statements.drop t) := by
    rcases h.stream with ⟨hTrue, -⟩ | ⟨-, hStream⟩
    · rw [hFirst] at hTrue
      cases hTrue
    · exact hStream
  by_cases hLt : t < statements.length
  · rw [List.drop_eq_getElem_cons hLt] at hStream
    rw [RedlandQueryResult.currentStatement, hStream, List.getElem?_eq_getElem hLt]
    exact ⟨rfl, hFirst, h.result, h.kind, .inr ⟨hFirst, rfl⟩⟩
  · have hEnd : statements.drop (t + 1) = [] := List.drop_eq_nil_of_le (by omega)
    rw [List.drop_eq_nil_of_le (by omega)] at hStream
    rw [RedlandQueryResult.currentStatement, hStream, List.getElem?_eq_none (by omega)]
    exact ⟨rfl, hFirst, h.result, h.kind, .inr ⟨hFirst, by rw [hStream, hEnd]⟩⟩

theorem At.currents (h : At statements t s) (hFirst : s.first = false) (count : Nat) :
    (currents count s).1 = (List.range count).map (fun j => statements[t + j]?.getD .empty) ∧
      At statements (t + count) (currents count s).2 := by
  induction count generalizing s t with
  | zero => exact ⟨rfl, h⟩
  | succ count ih =>
    obtain ⟨hValue, hRest, hAt⟩ := h.currentStatement hFirst
    obtain ⟨hValues, hEnd⟩ := ih hAt hRest
    constructor
    · simp only [RedlandQueryResult.currents, hValue, hValues, List.range_succ_eq_map, List.map_cons,
        List.map_map, Nat.add_zero]
      refine congrArg _ (List.map_congr_left fun j _ => ?_)
      rw [Function.comp_apply, show t + 1 + j = t + j.succ by omega]
    · rw [show t + (count + 1) = t + 1 + count by omega]
      exact hEnd

/-- As long as there were fewer calls than statements, the stream stands behind as many statements. -/
theorem at_before {k : Nat} (h : ∀ i < k, total calls i < statements.length) :
    At statements (total calls k) (before calls (init (graph statements)) k) := by
  induction k with
  | zero => exact at_init
  | succ k ih =>
    obtain ⟨-, hFirst, hNext⟩ := (ih fun i hi => h i (by omega)).next_of_lt (h k (by omega))
    exact (hNext.currents hFirst (calls k)).2

theorem returned_of_lt {k : Nat} (h : ∀ i ≤ k, total calls i < statements.length) :
    returned calls (init (graph statements)) k =
      (true, (List.range (calls k)).map fun j => statements[total calls k + j]?.getD .empty) := by
  obtain ⟨hTrue, hFirst, hNext⟩ :=
    (at_before fun i hi => h i (Nat.le_of_lt hi)).next_of_lt (h k (Nat.le_refl k))
  exact Prod.ext hTrue (hNext.currents hFirst (calls k)).1

theorem returned_of_ge {k : Nat} (h : ∀ i < k, total calls i < statements.length)
    (hEnd : statements.length ≤ total calls k) :
    (returned calls (init (graph statements)) k).1 = false := (at_before h).next_of_ge hEnd

omit [Qt] in
theorem map_range_eq_replicate {α : Type} {f : Nat → α} {a : α} {n : Nat} :
    (List.range n).map f = List.replicate n a ↔ ∀ j < n, f j = a := by
  simp [List.eq_replicate_iff]

/-- A graph result is used as the documentation of the iterators has it exactly where the calls of
`currentStatement` are aligned with its statements. -/
theorem contract_iff (calls : Nat → Nat) (statements : List Statement) :
    Contract calls statements ↔ Aligned calls statements := by
  constructor
  · rintro ⟨hNext, hValues⟩
    have hBefore : ∀ k ≤ statements.length, ∀ i < k, total calls i < statements.length := by
      intro k hk
      induction k with
      | zero => exact fun i hi => absurd hi (by omega)
      | succ k ih =>
        have hEarlier := ih (by omega)
        intro i hi
        rcases Nat.lt_succ_iff_lt_or_eq.mp hi with hi | rfl
        · exact hEarlier i hi
        · by_contra hNot
          have hFalse := returned_of_ge hEarlier (by omega)
          rw [hNext i (by omega), decide_eq_false_iff_not] at hFalse
          omega
    have hAll := hBefore statements.length (Nat.le_refl _)
    refine ⟨hAll, ?_, fun k statement hk => ?_⟩
    · by_contra hNot
      have hUpTo : ∀ i ≤ statements.length, total calls i < statements.length := by
        intro i hi
        rcases Nat.lt_or_eq_of_le hi with hi | rfl
        · exact hAll i hi
        · omega
      have hEnd := hNext _ (Nat.le_refl _)
      rw [returned_of_lt hUpTo] at hEnd
      simp at hEnd
    · obtain ⟨hLt, -⟩ := List.getElem?_eq_some_iff.mp hk
      have hRound := hValues k statement hk
      rw [returned_of_lt fun i hi => hAll i (by omega)] at hRound
      exact map_range_eq_replicate.mp hRound
  · rintro ⟨hAll, hEnd, hValues⟩
    refine ⟨fun k hk => ?_, fun k statement hk => ?_⟩
    · rcases Nat.lt_or_eq_of_le hk with hLt | rfl
      · rw [returned_of_lt fun i hi => hAll i (by omega)]
        simp [hLt]
      · rw [returned_of_ge hAll hEnd]
        simp
    · obtain ⟨hLt, -⟩ := List.getElem?_eq_some_iff.mp hk
      rw [returned_of_lt fun i hi => hAll i (by omega)]
      exact map_range_eq_replicate.mpr (hValues k statement hk)

/-! ### Results that hold no statement twice -/

omit [Qt] in
theorem total_of_once {k : Nat} (h : ∀ i < k, calls i = 1) : total calls k = k := by
  induction k with
  | zero => rfl
  | succ k ih => rw [total, ih fun i hi => h i (by omega), h k (by omega)]

/-- One call behind each call of `next` is aligned with any statements. -/
theorem aligned_of_once (h : ∀ i < statements.length, calls i = 1) : Aligned calls statements := by
  have hTotal : ∀ k ≤ statements.length, total calls k = k :=
    fun k hk => total_of_once fun i hi => h i (by omega)
  refine ⟨fun k hk => ?_, (hTotal _ (Nat.le_refl _)).ge, fun k statement hk j hj => ?_⟩
  · rw [hTotal k (by omega)]
    exact hk
  · obtain ⟨hLt, -⟩ := List.getElem?_eq_some_iff.mp hk
    rw [h k hLt] at hj
    rw [hTotal k (by omega), show j = 0 by omega, Nat.add_zero, hk, Option.getD_some]

/-- Of statements that differ, one call behind each call of `next` is all that is aligned. -/
theorem once_of_aligned (hDistinct : statements.Nodup) (hEmpty : .empty ∉ statements)
    (h : Aligned calls statements) {k : Nat} (hk : k < statements.length) : calls k = 1 := by
  obtain ⟨hBefore, hEnd, hValues⟩ := h
  -- a call finds the statement of its round only at the place of the round
  have hPlace : ∀ i < statements.length, ∀ j < calls i, total calls i + j = i := by
    intro i hi j hj
    have hValue := hValues i _ (List.getElem?_eq_getElem hi) j hj
    by_cases hLt : total calls i + j < statements.length
    · rw [List.getElem?_eq_getElem hLt, Option.getD_some] at hValue
      exact hDistinct.getElem_inj_iff.mp hValue
    · rw [List.getElem?_eq_none (by omega), Option.getD_none] at hValue
      rw [hValue] at hEmpty
      exact absurd (List.getElem_mem hi) hEmpty
  have hAtMost : ∀ i < statements.length, calls i ≤ 1 := by
    intro i hi
    by_contra hMany
    have hFirst := hPlace i hi 0 (by omega)
    have hSecond := hPlace i hi 1 (by omega)
    omega
  have hStep : ∀ i ≤ statements.length, total calls i ≤ i := by
    intro i hi
    induction i with
    | zero => exact Nat.le_refl 0
    | succ i ih =>
      have := ih (by omega)
      have := hAtMost i (by omega)
      rw [total]
      omega
  by_contra hNot
  -- a round without a call leaves the calls behind for good
  have hBehind : ∀ i, k < i → i ≤ statements.length → total calls i < i := by
    intro i hki hi
    induction i with
    | zero => omega
    | succ i ih =>
      rw [total]
      rcases Nat.lt_succ_iff_lt_or_eq.mp hki with hLt | rfl
      · have := ih hLt (by omega)
        rcases Nat.eq_zero_or_pos (calls i) with hZero | hPos
        · omega
        · have := hPlace i (by omega) 0 hPos
          omega
      · have := hAtMost k hk
        have := hStep k (by omega)
        omega
  have := hBehind statements.length hk (Nat.le_refl _)
  omega

end RedlandQueryResult

end Use

section Example

open RedlandQueryResult

local instance queryResultQt : Qt := asciiQt

def someStatement : Statement :=
  ⟨.ofIdentifier ['s'], .ofIdentifier ['p'], .ofIdentifier ['o'], .empty⟩

/-- The second of two calls of `currentStatement` finds the stream at its end. -/
theorem RedlandQueryResult.not_contract : ¬ Contract (fun _ => 2) [someStatement] := by
  intro h
  have hTwice := h.2 0 someStatement rfl
  have hEmpty : (returned (fun _ => 2) (init (graph [someStatement])) 0).2 = [someStatement, .empty] := rfl
  rw [hEmpty] at hTwice
  have hSame : Statement.empty = someStatement := (List.cons.inj (List.cons.inj hTwice).2).1
  exact absurd hSame (by decide)

end Example

end Soprano.Redland
