import Soprano.Virtuoso.VirtuosoModel

/-! Whether a client can read the resource that stands for the default graph. -/

namespace Soprano

namespace Virtuoso

open ODBC

section Qt

variable [Qt]

/-- What a client does with the iterators over a result: `listed` reads the statement that
`listStatements` makes of the current row. -/
inductive Access where
  | next
  | close
  | binding (name : QString)
  | bindingAt (offset : Int)
  | currentBindings
  | currentStatement
  | listed

/-- The nodes that are read. -/
def Access.perform (template : Statement) (backend : QueryResultIteratorBackend) :
    Access → List Node × QueryResultIteratorBackend
  | next => ([], (QueryResultIterator.next backend).2)
  | close => ([], backend.close)
  | binding name => ([(backend.binding name).1], (backend.binding name).2)
  | bindingAt offset => ([(backend.bindingAt offset).1], (backend.bindingAt offset).2)
  | currentBindings => (backend.current.1.values, backend.current.2)
  | currentStatement => (backend.currentStatement.1.nodes, backend.currentStatement.2)
  | listed =>
    let s := QueryResultIterator.constructStatement template
      (VirtuosoModel.listBindings template) backend
    (s.1.nodes, s.2)

/-- The nodes that a client reads in a row of accesses. -/
def reads (template : Statement) : List Access → QueryResultIteratorBackend → List Node
  | [], _ => []
  | access :: accesses, backend =>
    (access.perform template backend).1 ++
      reads template accesses (access.perform template backend).2

/-! ### The values of a result -/

/-- The nodes of a row, if each column has one. -/
def rowNodes : Nat → List Cell → Option (List Node)
  | 0, _ => some []
  | _ + 1, [] => none
  | columns + 1, cell :: row =>
    if cell.getData.2.code = 0 then (rowNodes columns row).map (cell.getData.1 :: ·) else none

/-- The rows before the first one that cannot be read. -/
def readableRows (columns : Nat) : List (Except Diagnostics (List Cell)) → List (List Node)
  | .ok row :: rows =>
    match rowNodes columns row with
    | some nodes => nodes :: readableRows columns rows
    | none => []
  | _ => []

/-- The nodes of the only row of a call: those of the graph, or the value. -/
def callValues (parser : TurtleParser) (result : ResultSet) : List Node :=
  match result.rows with
  | .ok (cell :: _) :: _ =>
    if cell.getData.2.code ≠ 0 then []
    else if (QueryResult.ofResultSet result).isBlob 1 then
      (parser.map fun parseString =>
        (parseString cell.getData.1.toString).1.flatMap Statement.nodes).getD []
    else [cell.getData.1]
  | _ => []

/-- The nodes of a result. -/
def values (parser : TurtleParser) (result : ResultSet) : List Node :=
  let names := result.columns.map Column.name
  if names = ["__ASK_RETVAL".toList] then []
  else if QueryResultIteratorBackend.isCall names then callValues parser result
  else (readableRows names.length result.rows).flatten

namespace QueryResultIteratorBackend

variable {backend : QueryResultIteratorBackend} {v : Node}

/-- The node is in the current row or statement, or in a later one. -/
def Holds (v : Node) (backend : QueryResultIteratorBackend) : Prop :=
  match backend.resultType with
  | .graphResult => ∃ s ∈ backend.graphStatements, v ∈ s.nodes
  | .methodCallResult => backend.queryResult.isSome = true ∧ some v ∈ backend.bindingCache
  | .bindingResult => ∃ result, backend.queryResult = some result ∧
      (some v ∈ backend.bindingCache ∨
        ∃ nodes ∈ readableRows backend.bindingNames.length result.rows, v ∈ nodes)
  | .askResult | .unknownResult => False

/-- The values of the current row, if there is one, are cached. -/
structure Ready (backend : QueryResultIteratorBackend) : Prop where
  length : backend.bindingCache.length = backend.bindingNames.length
  cached : backend.isBinding = true → ∀ result, backend.queryResult = some result →
    result.current = [] ∨ ∀ cell ∈ backend.bindingCache, cell.isSome = true

/-- The node cannot be read from here on. -/
structure Hidden (v : Node) (backend : QueryResultIteratorBackend) : Prop where
  ready : backend.Ready
  notHolds : ¬backend.Holds v

/-! ### Reading a value -/

/-- Reading a cached value changes nothing. -/
theorem bindingAt_cached {result : QueryResult} {i : Nat} (hResult : backend.queryResult = some result)
    (hBinding : backend.isBinding = true) (hi : i < backend.bindingNames.length)
    (hCached : backend.bindingCache[i]? = some (some v)) : backend.bindingAt i = (v, backend) := by
  unfold bindingAt
  simp [hResult, hBinding, hi, hCached]

/-- A value that is not cached is read outside of the rows, and there is none. -/
theorem bindingAt_uncached {result : QueryResult} {i : Nat}
    (hResult : backend.queryResult = some result) (hBinding : backend.isBinding = true)
    (hi : i < backend.bindingNames.length) (hUncached : ∀ n, backend.bindingCache[i]? ≠ some (some n))
    (hCurrent : result.current = []) :
    backend.bindingAt i = (.empty, { backend with
      queryResult := some (result.getData (i + 1)).2
      bindingCache := backend.bindingCache.set i (some .empty)
      lastError := (result.getData (i + 1)).2.lastError }) := by
  have hData : (result.getData (i + 1)).1 = .empty := by simp [QueryResult.getData, hCurrent]
  unfold bindingAt
  simp only [hResult, hBinding, Nat.cast_lt, hi, Int.natCast_nonneg, and_self, if_true,
    Int.toNat_natCast]
  rcases hCached : backend.bindingCache[i]? with _ | _ | n
  · simp [hData]
  · simp [hData]
  · exact absurd hCached (hUncached n)

theorem isBinding_iff : backend.isBinding = true ↔
    backend.resultType = .bindingResult ∨ backend.resultType = .methodCallResult := by
  simp [isBinding]

theorem holds_of_cached {result : QueryResult} (hResult : backend.queryResult = some result)
    (hBinding : backend.isBinding = true) (h : some v ∈ backend.bindingCache) :
    backend.Holds v := by
  unfold Holds
  rcases isBinding_iff.mp hBinding with hType | hType
  · rw [hType]
    exact ⟨result, hResult, .inl h⟩
  · rw [hType]
    exact ⟨by rw [hResult]; rfl, h⟩

/-- No read gets at a hidden node, nor makes it readable. -/
theorem hidden_bindingAt (hv : v ≠ .empty) (h : Hidden v backend) (offset : Int) :
    (backend.bindingAt offset).1 ≠ v ∧ Hidden v (backend.bindingAt offset).2 := by
  have hNone : backend.bindingAt offset = (.empty, backend) →
      (backend.bindingAt offset).1 ≠ v ∧ Hidden v (backend.bindingAt offset).2 := by
    intro hEq
    rw [hEq]
    exact ⟨Ne.symm hv, h⟩
  cases hResult : backend.queryResult with
  | none => exact hNone (by simp [bindingAt, hResult])
  | some result =>
    by_cases hRange : backend.isBinding = true ∧ offset < backend.bindingNames.length ∧ 0 ≤ offset
    · obtain ⟨hBinding, hHigh, hLow⟩ := hRange
      obtain ⟨i, rfl⟩ := Int.eq_ofNat_of_zero_le hLow
      have hi : i < backend.bindingNames.length := by simpa using hHigh
      by_cases hCached : ∃ n, backend.bindingCache[i]? = some (some n)
      · obtain ⟨n, hn⟩ := hCached
        rw [bindingAt_cached hResult hBinding hi hn]
        refine ⟨?_, h⟩
        rintro rfl
        exact h.notHolds (holds_of_cached hResult hBinding (List.mem_of_getElem? hn))
      · have hUncached := not_exists.mp hCached
        have hCurrent : result.current = [] := by
          refine (h.ready.cached hBinding result hResult).resolve_right fun hAll => ?_
          have hBound : i < backend.bindingCache.length := h.ready.length ▸ hi
          obtain ⟨n, hn⟩ := Option.isSome_iff_exists.mp (hAll _ (List.getElem_mem hBound))
          exact hUncached n (List.getElem?_eq_some_iff.mpr ⟨hBound, hn⟩)
        rw [bindingAt_uncached hResult hBinding hi hUncached hCurrent]
        have hCache : ∀ n, some n ∈ backend.bindingCache.set i (some Node.empty) →
            some n ∈ backend.bindingCache ∨ n = .empty := fun n hn =>
          (List.mem_or_eq_of_mem_set hn).imp_right fun hEq => Option.some.inj hEq
        refine ⟨Ne.symm hv, ⟨⟨?_, ?_⟩, ?_⟩⟩
        · simpa using h.ready.length
        · intro _ result' hResult'
          cases hResult'
          exact .inl (by simpa using hCurrent)
        · intro hHolds
          unfold Holds at hHolds
          rcases isBinding_iff.mp hBinding with hType | hType
          · simp only [hType] at hHolds
            obtain ⟨result', hResult', hMem | hRow⟩ := hHolds
            · exact (hCache v hMem).elim
                (fun hOld => h.notHolds (holds_of_cached hResult hBinding hOld)) hv
            · cases hResult'
              simp only [QueryResult.getData_rows] at hRow
              refine h.notHolds ?_
              unfold Holds
              rw [hType]
              exact ⟨result, hResult, .inr hRow⟩
          · simp only [hType] at hHolds
            exact (hCache v hHolds.2).elim
              (fun hOld => h.notHolds (holds_of_cached hResult hBinding hOld)) hv
    · exact hNone (by simp [bindingAt, hResult, hRange])

theorem Hidden.setLastError (h : Hidden v backend) (error : Error) :
    Hidden v { backend with lastError := error } := ⟨⟨h.ready.length, h.ready.cached⟩, h.notHolds⟩

theorem hidden_binding (hv : v ≠ .empty) (h : Hidden v backend) (name : QString) :
    (backend.binding name).1 ≠ v ∧ Hidden v (backend.binding name).2 := by
  unfold binding
  split
  · exact hidden_bindingAt hv h _
  · exact ⟨Ne.symm hv, h.setLastError _⟩

theorem hidden_currentFrom (hv : v ≠ .empty) (h : Hidden v backend) (i : Nat)
    {bindings : BindingSet} (hBindings : v ∉ bindings.values) (names : List QString) :
    v ∉ (backend.currentFrom i bindings names).1.values ∧
      Hidden v (backend.currentFrom i bindings names).2 := by
  induction names generalizing backend i bindings with
  | nil => exact ⟨hBindings, h⟩
  | cons name names ih =>
    obtain ⟨hValue, hNext⟩ := hidden_bindingAt hv h i
    refine ih hNext (i + 1) ?_
    simp only [BindingSet.values, BindingSet.insert, List.map_append, List.mem_append, not_or] at *
    exact ⟨hBindings, by simpa using Ne.symm hValue⟩

theorem hidden_current (hv : v ≠ .empty) (h : Hidden v backend) :
    v ∉ backend.current.1.values ∧ Hidden v backend.current.2 :=
  hidden_currentFrom hv h 0 List.not_mem_nil _

theorem notMem_nodes {s : Statement} : v ∉ s.nodes ↔
    s.subject ≠ v ∧ s.predicate ≠ v ∧ s.object ≠ v ∧ s.context ≠ v := by
  simp [Statement.nodes, eq_comm]

theorem hidden_currentStatement (hv : v ≠ .empty) (h : Hidden v backend) :
    v ∉ backend.currentStatement.1.nodes ∧ Hidden v backend.currentStatement.2 := by
  have hEmpty : v ∉ Statement.empty.nodes := by simp [Statement.nodes, Statement.empty, hv]
  unfold currentStatement
  split
  · rename_i hType
    refine ⟨?_, h⟩
    cases hStatements : backend.graphStatements with
    | nil => exact hEmpty
    | cons s rest =>
      intro hMem
      refine h.notHolds ?_
      unfold Holds
      rw [hType]
      exact ⟨s, by simp [hStatements], hMem⟩
  · split
    · obtain ⟨hSubject, h⟩ := hidden_bindingAt hv h 0
      obtain ⟨hPredicate, h⟩ := hidden_bindingAt hv h 1
      obtain ⟨hObject, h⟩ := hidden_bindingAt hv h 2
      exact ⟨notMem_nodes.mpr ⟨hSubject, hPredicate, hObject, Ne.symm hv⟩, h⟩
    · exact ⟨hEmpty, h⟩

theorem hidden_constructNode (hv : v ≠ .empty) (h : Hidden v backend) {template : Node}
    (hTemplate : template ≠ v) (name : QString) :
    (QueryResultIterator.constructNode backend template name).1 ≠ v ∧
      Hidden v (QueryResultIterator.constructNode backend template name).2 := by
  unfold QueryResultIterator.constructNode
  split
  · exact ⟨hTemplate, h⟩
  · exact hidden_binding hv h name

theorem hidden_constructStatement (hv : v ≠ .empty) (h : Hidden v backend) {template : Statement}
    (hTemplate : v ∉ template.nodes) (names : QueryResultIterator.StatementBindings) :
    v ∉ (QueryResultIterator.constructStatement template names backend).1.nodes ∧
      Hidden v (QueryResultIterator.constructStatement template names backend).2 := by
  obtain ⟨hS, hP, hO, hC⟩ := notMem_nodes.mp hTemplate
  obtain ⟨hContext, h⟩ := hidden_constructNode hv h hC names.context
  obtain ⟨hSubject, h⟩ := hidden_constructNode hv h hS names.subject
  obtain ⟨hPredicate, h⟩ := hidden_constructNode hv h hP names.predicate
  obtain ⟨hObject, h⟩ := hidden_constructNode hv h hO names.object
  exact ⟨notMem_nodes.mpr ⟨hSubject, hPredicate, hObject, hContext⟩, h⟩

/-! ### Moving on -/

/-- The loop of `next` caches the nodes of a row that can be read, and ends in an error at any other. -/
theorem cacheRow_spec (result : QueryResult) (i columns : Nat) :
    match rowNodes columns (result.current.drop i) with
    | some nodes => (cacheRow result i columns).1 = nodes.map some ∧
        (cacheRow result i columns).2.1.code = 0
    | none => (cacheRow result i columns).2.1.code ≠ 0 := by
  induction columns generalizing result i with
  | zero => exact ⟨rfl, rfl⟩
  | succ columns ih =>
    rw [cacheRow]
    cases hDrop : result.current.drop i with
    | nil =>
      have hFailed := QueryResult.code_getData_of_drop hDrop
      simp [rowNodes, hFailed]
    | cons cell row =>
      have hData := QueryResult.getData_of_drop hDrop
      rw [hData, rowNodes]
      by_cases hCode : cell.getData.2.code = 0
      · have hRest := ih { result with lastError := cell.getData.2 } (i + 1)
        have hTail : result.current.drop (i + 1) = row := by
          rw [← List.tail_drop, hDrop, List.tail_cons]
        rw [hTail] at hRest
        cases hRow : rowNodes columns row with
        | none => simpa [hCode, hRow] using hRest
        | some nodes => simpa [hCode, hRow] using hRest
      · simp [hCode]

theorem length_cacheRow (result : QueryResult) (i columns : Nat) :
    (cacheRow result i columns).1.length = columns := by
  induction columns generalizing result i with
  | zero => rfl
  | succ columns ih =>
    unfold cacheRow
    simp only
    split
    · simp
    · simp [ih]

theorem length_rowNodes {columns : Nat} {row : List Cell} {nodes : List Node}
    (h : rowNodes columns row = some nodes) : nodes.length = columns := by
  induction columns generalizing row nodes with
  | zero =>
    cases h
    rfl
  | succ columns ih =>
    cases row with
    | nil => cases h
    | cons cell row =>
      rw [rowNodes, Option.ite_none_right_eq_some, Option.map_eq_some_iff] at h
      obtain ⟨-, rest, hRest, rfl⟩ := h
      simp [ih hRest]

/-- `next` returns true at a row that can be read, and caches its nodes. -/
theorem nextRow_of_rowNodes {result : QueryResult} {row : List Cell}
    {rows : List (Except Diagnostics (List Cell))} {nodes : List Node}
    (hRows : result.rows = .ok row :: rows)
    (hNodes : rowNodes backend.bindingNames.length row = some nodes) :
    ∃ result' : QueryResult, result'.rows = rows ∧ backend.nextRow result =
      (true, { backend with queryResult := some result', bindingCache := nodes.map some }) := by
  have hFetch : result.fetchRow = (true, { result with rows, current := row }) := by
    rw [QueryResult.fetchRow, hRows]
  have hSpec := cacheRow_spec { result with rows, current := row } 0 backend.bindingNames.length
  simp only [List.drop_zero, hNodes] at hSpec
  refine ⟨_, QueryResultIterator.cacheRow_rows { result with rows, current := row } 0
    backend.bindingNames.length, ?_⟩
  simp [nextRow, hFetch, hSpec]

/-- It returns false at any other, and at the end of the rows. -/
theorem rowNodes_of_nextRow {result : QueryResult} (h : (backend.nextRow result).1 = true) :
    ∃ row rows nodes, result.rows = .ok row :: rows ∧
      rowNodes backend.bindingNames.length row = some nodes := by
  rcases hRows : result.rows with _ | ⟨_ | row, rows⟩
  · simp [nextRow, QueryResult.fetchRow, hRows] at h
  · simp [nextRow, QueryResult.fetchRow, hRows] at h
  · refine ⟨row, rows, ?_⟩
    have hSpec := cacheRow_spec { result with rows, current := row } 0 backend.bindingNames.length
    cases hNodes : rowNodes backend.bindingNames.length row with
    | some nodes => exact ⟨nodes, rfl, rfl⟩
    | none =>
      simp only [List.drop_zero, hNodes] at hSpec
      simp [nextRow, QueryResult.fetchRow, hRows, hSpec] at h

theorem length_bindingCache_next (h : backend.Ready) :
    backend.next.2.bindingCache.length = backend.next.2.bindingNames.length := by
  unfold next
  split
  · exact h.length
  · unfold nextRow
    split
    · exact length_cacheRow _ _ _
    · simp
  · simp
  · split
    · exact h.length
    · exact h.length
  · exact h.length
  · exact h.length

theorem hidden_close (h : Hidden v backend) : Hidden v backend.close where
  ready := ⟨h.ready.length, fun _ _ hResult => nomatch hResult⟩
  notHolds hHolds := by
    refine h.notHolds ?_
    unfold Holds at hHolds ⊢
    cases hType : backend.resultType with
    | graphResult => simpa [close, hType] using hHolds
    | bindingResult => simp [close, hType] at hHolds
    | methodCallResult => simp [close, hType] at hHolds
    | askResult => simp [close, hType] at hHolds
    | unknownResult => simp [close, hType] at hHolds

/-- A result of rows is closed. -/
theorem hidden_of_closed (hType : backend.resultType = .bindingResult)
    (hLength : backend.bindingCache.length = backend.bindingNames.length) :
    Hidden v backend.close where
  ready := ⟨hLength, fun _ _ hResult => nomatch hResult⟩
  notHolds hHolds := by
    unfold Holds at hHolds
    simp [close, hType] at hHolds

/-- A row is cached that the result had next. -/
theorem hidden_of_row {result result' : QueryResult} {row : List Cell}
    {rows : List (Except Diagnostics (List Cell))} {nodes : List Node} (h : Hidden v backend)
    (hType : backend.resultType = .bindingResult) (hResult : backend.queryResult = some result)
    (hRows : result.rows = .ok row :: rows)
    (hNodes : rowNodes backend.bindingNames.length row = some nodes) (hRest : result'.rows = rows) :
    Hidden v { backend with queryResult := some result', bindingCache := nodes.map some } where
  ready :=
    ⟨by simpa using length_rowNodes hNodes, fun _ _ _ => .inr (by simp)⟩
  notHolds hHolds := by
    refine h.notHolds ?_
    unfold Holds at hHolds ⊢
    simp only [hType] at hHolds
    rw [hType]
    refine ⟨result, hResult, .inr ?_⟩
    rw [hRows, readableRows, hNodes]
    obtain ⟨result'', hResult', hMem | ⟨nodes', hMem, hv⟩⟩ := hHolds
    · exact ⟨nodes, List.mem_cons_self, by simpa using hMem⟩
    · cases hResult'
      rw [hRest] at hMem
      exact ⟨nodes', List.mem_cons_of_mem _ hMem, hv⟩

theorem hidden_next (h : Hidden v backend) : Hidden v (QueryResultIterator.next backend).2 := by
  have hLength := length_bindingCache_next h.ready
  have hKept : Hidden v backend.next.2 → Hidden v (QueryResultIterator.next backend).2 := by
    intro hNext
    unfold QueryResultIterator.next
    split
    · exact hNext
    · exact hidden_close hNext
  cases hType : backend.resultType with
  | graphResult =>
    refine hKept ⟨⟨hLength, ?_⟩, ?_⟩
    · simp [next, hType, isBinding]
    · intro hHolds
      refine h.notHolds ?_
      unfold Holds at hHolds ⊢
      simp only [next, hType] at hHolds ⊢
      obtain ⟨s, hs, hv⟩ := hHolds
      refine ⟨s, ?_, hv⟩
      split at hs
      · exact hs
      · exact List.mem_of_mem_tail hs
  | bindingResult =>
    cases hResult : backend.queryResult with
    | none =>
      have hNext : backend.next = (false, { backend with
          bindingCache := backend.bindingNames.map fun _ => none }) := by
        simp [next, hType, hResult]
      rw [QueryResultIterator.next, hNext, if_neg Bool.false_ne_true]
      exact hidden_of_closed hType (by simp)
    | some result =>
      have hNext : backend.next = backend.nextRow result := by simp [next, hType, hResult]
      rw [QueryResultIterator.next]
      by_cases hTrue : backend.next.1 = true
      · rw [if_pos hTrue]
        obtain ⟨row, rows, nodes, hRows, hNodes⟩ := rowNodes_of_nextRow (hNext ▸ hTrue)
        obtain ⟨result', hRest, hRow⟩ := nextRow_of_rowNodes hRows hNodes
        rw [hNext, hRow]
        exact hidden_of_row h hType hResult hRows hNodes hRest
      · rw [if_neg hTrue]
        refine hidden_of_closed ?_ hLength
        simp only [hNext, nextRow]
        split <;> exact hType
  | methodCallResult =>
    refine hKept ?_
    cases hIterated : backend.methodCallResultIterated with
    | true =>
      rw [show backend.next.2 = backend by simp [next, hType, hIterated]]
      exact h
    | false =>
      rw [show backend.next.2 = { backend with methodCallResultIterated := true } by
        simp [next, hType, hIterated]]
      exact ⟨⟨h.ready.length, h.ready.cached⟩, h.notHolds⟩
  | askResult => exact hKept (by simpa [next, hType] using h)
  | unknownResult => exact hKept (by simpa [next, hType] using h)

end QueryResultIteratorBackend

open QueryResultIteratorBackend

variable {backend : QueryResultIteratorBackend} {v : Node} {template : Statement}

/-- No access reads a hidden node. -/
theorem hidden_perform (hv : v ≠ .empty) (hPartial : v ∉ template.nodes)
    (h : Hidden v backend) (access : Access) :
    v ∉ (access.perform template backend).1 ∧
      Hidden v (access.perform template backend).2 := by
  cases access with
  | next => exact ⟨List.not_mem_nil, hidden_next h⟩
  | close => exact ⟨List.not_mem_nil, hidden_close h⟩
  | binding name =>
    obtain ⟨hValue, h⟩ := hidden_binding hv h name
    exact ⟨by simpa [Access.perform] using Ne.symm hValue, h⟩
  | bindingAt offset =>
    obtain ⟨hValue, h⟩ := hidden_bindingAt hv h offset
    exact ⟨by simpa [Access.perform] using Ne.symm hValue, h⟩
  | currentBindings => exact hidden_current hv h
  | currentStatement => exact hidden_currentStatement hv h
  | listed => exact hidden_constructStatement hv h hPartial _

theorem notMem_reads (hv : v ≠ .empty) (hPartial : v ∉ template.nodes) (h : Hidden v backend)
    (accesses : List Access) : v ∉ reads template accesses backend := by
  induction accesses generalizing backend with
  | nil => exact List.not_mem_nil
  | cons access accesses ih =>
    obtain ⟨hRead, hNext⟩ := hidden_perform hv hPartial h access
    exact fun hMem => (List.mem_append.mp hMem).elim hRead (ih hNext)

/-! ### Every value can be read -/

/-- What is read once the iterator has gone on is read. -/
theorem exists_reads_next {next : QueryResultIteratorBackend} (hNext : (QueryResultIterator.next backend).2 = next)
    (h : ∃ accesses, v ∈ reads template accesses next) : ∃ accesses, v ∈ reads template accesses backend := by
  obtain ⟨accesses, hMem⟩ := h
  refine ⟨.next :: accesses, ?_⟩
  rw [reads, Access.perform, hNext]
  exact hMem

/-- A node in the current row is read by its column. -/
theorem exists_reads_of_cached {result : QueryResult} (hReady : backend.Ready)
    (hResult : backend.queryResult = some result) (hBinding : backend.isBinding = true)
    (h : some v ∈ backend.bindingCache) : ∃ accesses, v ∈ reads template accesses backend := by
  obtain ⟨i, hi, hEq⟩ := List.mem_iff_getElem.mp h
  have hRead := bindingAt_cached hResult hBinding (hReady.length ▸ hi)
    (List.getElem?_eq_some_iff.mpr ⟨hi, hEq⟩)
  exact ⟨[.bindingAt i], by simp [reads, Access.perform, hRead]⟩

/-- A node in any row is read once the iterator is there. -/
theorem exists_reads_of_row {result : QueryResult} {nodes : List Node}
    (hType : backend.resultType = .bindingResult) (hResult : backend.queryResult = some result)
    (hNodes : nodes ∈ readableRows backend.bindingNames.length result.rows) (h : v ∈ nodes) :
    ∃ accesses, v ∈ reads template accesses backend := by
  induction hRows : result.rows generalizing backend result with
  | nil => simp [hRows, readableRows] at hNodes
  | cons fetched rows ih =>
    rw [hRows] at hNodes
    cases fetched with
    | error records => simp [readableRows] at hNodes
    | ok row =>
      cases hFirst : rowNodes backend.bindingNames.length row with
      | none => simp [readableRows, hFirst] at hNodes
      | some first =>
        obtain ⟨result', hRest, hRow⟩ := nextRow_of_rowNodes hRows hFirst
        have hNext : (QueryResultIterator.next backend).2 = { backend with
            queryResult := some result', bindingCache := first.map some } := by
          simp [QueryResultIterator.next, next, hType, hResult, hRow]
        simp only [readableRows, hFirst, List.mem_cons] at hNodes
        refine exists_reads_next hNext ?_
        rcases hNodes with rfl | hNodes
        · refine exists_reads_of_cached ⟨by simpa using length_rowNodes hFirst, fun _ _ _ => ?_⟩
            rfl (isBinding_iff.mpr (.inl hType)) (List.mem_map_of_mem h)
          exact .inr (by simp)
        · exact ih hType rfl (by rw [hRest]; exact hNodes) hRest

/-- A node of a later statement of a graph is read once the iterator is there. -/
theorem exists_reads_of_later {s : Statement} (hType : backend.resultType = .graphResult)
    (hFirst : backend.graphFirst = false) (hs : s ∈ backend.graphStatements) (h : v ∈ s.nodes) :
    ∃ accesses, v ∈ reads template accesses backend := by
  induction hStatements : backend.graphStatements generalizing backend with
  | nil => simp [hStatements] at hs
  | cons t rest ih =>
    rw [hStatements] at hs
    rcases List.mem_cons.mp hs with rfl | hs
    · exact ⟨[.currentStatement], by
        simp [reads, Access.perform, currentStatement, hType, hStatements, h]⟩
    · have hNext : (QueryResultIterator.next backend).2 =
          { backend with graphStatements := rest, graphFirst := false } := by
        have hMore : rest ≠ [] := List.ne_nil_of_mem hs
        simp [QueryResultIterator.next, next, hType, hFirst, hStatements, hMore]
      exact exists_reads_next hNext (ih hType rfl hs rfl)

theorem exists_reads_of_statement {s : Statement} (hType : backend.resultType = .graphResult)
    (hs : s ∈ backend.graphStatements) (h : v ∈ s.nodes) :
    ∃ accesses, v ∈ reads template accesses backend := by
  cases hFirst : backend.graphFirst with
  | false => exact exists_reads_of_later hType hFirst hs h
  | true =>
    have hNext : (QueryResultIterator.next backend).2 =
        { backend with graphFirst := false } := by
      have hSome : backend.graphStatements ≠ [] := List.ne_nil_of_mem hs
      simp [QueryResultIterator.next, next, hType, hFirst, hSome]
    exact exists_reads_next hNext (exists_reads_of_later hType rfl hs h)

/-- A node of the template that a listing keeps is read at once. -/
theorem exists_reads_of_partial (hv : v ≠ .empty) (h : v ∈ template.nodes) :
    ∃ accesses, v ∈ reads template accesses backend := by
  have hValid : v.isValid = true := by
    cases v with
    | empty => exact absurd rfl hv
    | _ => rfl
  have hKept : ∀ backend name, name = ([] : QString) →
      (QueryResultIterator.constructNode backend v name).1 = v := by
    rintro backend _ rfl
    rfl
  refine ⟨[.listed], ?_⟩
  simp only [reads, Access.perform, List.append_nil, QueryResultIterator.constructStatement,
    Statement.nodes, List.mem_cons, List.not_mem_nil, or_false] at h ⊢
  rcases h with h | h | h | h
  · exact .inl (by rw [← h, hKept _ _ (by simp [VirtuosoModel.listBindings, ← h, hValid])])
  · exact .inr (.inl (by
      rw [← h, hKept _ _ (by simp [VirtuosoModel.listBindings, ← h, hValid])]))
  · exact .inr (.inr (.inl (by
      rw [← h, hKept _ _ (by simp [VirtuosoModel.listBindings, ← h, hValid])])))
  · exact .inr (.inr (.inr (by
      rw [← h, hKept _ _ (by simp [VirtuosoModel.listBindings, ← h, hValid])])))

/-- A client that may do anything can read a node if and only if the result has it, or the client asked
for it. -/
theorem exists_reads_iff (hReady : backend.Ready) (hv : v ≠ .empty) :
    (∃ accesses, v ∈ reads template accesses backend) ↔
      backend.Holds v ∨ v ∈ template.nodes := by
  constructor
  · rintro ⟨accesses, hRead⟩
    by_contra hNot
    obtain ⟨hNotHolds, hPartial⟩ := not_or.mp hNot
    exact notMem_reads hv hPartial ⟨hReady, hNotHolds⟩ accesses hRead
  · rintro (hHolds | hPartial)
    · unfold Holds at hHolds
      cases hType : backend.resultType with
      | graphResult =>
        rw [hType] at hHolds
        obtain ⟨s, hs, h⟩ := hHolds
        exact exists_reads_of_statement hType hs h
      | bindingResult =>
        rw [hType] at hHolds
        obtain ⟨result, hResult, hCached | ⟨nodes, hNodes, h⟩⟩ := hHolds
        · exact exists_reads_of_cached hReady hResult (isBinding_iff.mpr (.inl hType)) hCached
        · exact exists_reads_of_row hType hResult hNodes h
      | methodCallResult =>
        rw [hType] at hHolds
        obtain ⟨result, hResult⟩ := Option.isSome_iff_exists.mp hHolds.1
        exact exists_reads_of_cached hReady hResult (isBinding_iff.mpr (.inr hType)) hHolds.2
      | askResult => simp [hType] at hHolds
      | unknownResult => simp [hType] at hHolds
    · exact exists_reads_of_partial hv hPartial

/-! ### Results -/

theorem ready_of_not_isBinding
    (hLength : backend.bindingCache.length = backend.bindingNames.length)
    (h : backend.isBinding = false) : backend.Ready :=
  ⟨hLength, fun hBinding => absurd (h ▸ hBinding) Bool.false_ne_true⟩

/-- An iterator that was not made for any result. -/
theorem unknown_spec (hNames : backend.bindingNames.length = 1)
    (hCache : backend.bindingCache = [none]) (hType : backend.resultType = .unknownResult) :
    backend.Ready ∧ (backend.Holds v ↔ v ∈ ([] : List Node)) := by
  refine ⟨ready_of_not_isBinding ?_ (by simp [isBinding, hType]), by simp [Holds, hType]⟩
  rw [hNames, hCache]
  rfl

theorem ofCallData_spec (parser : TurtleParser) (node : Node) (result : QueryResult)
    (hNames : backend.bindingNames.length = 1) (hCache : backend.bindingCache = [none])
    (hType : backend.resultType = .unknownResult) (hStatements : backend.graphStatements = []) :
    (ofCallData parser backend node result).Ready ∧
      ((ofCallData parser backend node result).Holds v ↔
        v ∈ if result.lastError.code ≠ 0 then []
          else if result.isBlob 1 then
            (parser.map fun parseString =>
              (parseString node.toString).1.flatMap Statement.nodes).getD []
          else [node]) := by
  have hLength : backend.bindingCache.length = backend.bindingNames.length := by
    rw [hNames, hCache]
    rfl
  unfold ofCallData
  split
  · exact unknown_spec hNames hCache hType
  · split
    · cases parser with
      | none => exact ⟨ready_of_not_isBinding hLength rfl, by simp [Holds, hStatements]⟩
      | some parseString => exact ⟨ready_of_not_isBinding hLength rfl, by simp [Holds]⟩
    · refine ⟨⟨by simp [hNames], fun _ _ _ => .inr (by simp)⟩, by simp [Holds]⟩

/-- The iterator over the result of a call is ready, and holds its values. -/
theorem ofCall_spec {parser : TurtleParser} {resultSet : ResultSet}
    (hNames : backend.bindingNames.length = 1) (hCache : backend.bindingCache = [none])
    (hType : backend.resultType = .unknownResult) (hStatements : backend.graphStatements = []) :
    (ofCall parser backend (.ofResultSet resultSet)).Ready ∧
      ((ofCall parser backend (.ofResultSet resultSet)).Holds v ↔
        v ∈ callValues parser resultSet) := by
  unfold ofCall callValues
  rcases hRows : resultSet.rows with _ | ⟨records | row, rows⟩
  · simp only [QueryResult.fetchRow, QueryResult.ofResultSet, hRows]
    exact unknown_spec hNames hCache hType
  · simp only [QueryResult.fetchRow, QueryResult.ofResultSet, hRows]
    exact unknown_spec hNames hCache hType
  · simp only [QueryResult.fetchRow, QueryResult.ofResultSet, hRows, if_true]
    cases row with
    | nil =>
      have hSpec := ofCallData_spec (v := v) parser
        (QueryResult.getData ⟨resultSet.columns, rows, resultSet.noData, [], .none⟩ 1).1
        (QueryResult.getData ⟨resultSet.columns, rows, resultSet.noData, [], .none⟩ 1).2
        hNames hCache hType hStatements
      rwa [if_pos (QueryResult.code_getData_of_drop rfl)] at hSpec
    | cons cell row =>
      rw [QueryResult.getData_of_drop (i := 0) rfl]
      exact ofCallData_spec parser _ _ hNames hCache hType hStatements

omit [Qt] in
theorem length_of_isCall {names : List QString} (h : isCall names = true) : names.length = 1 := by
  simp only [isCall, Bool.or_eq_true, decide_eq_true_eq] at h
  rcases h with rfl | rfl <;> rfl

/-- The iterator over a result is ready, and holds the values of the result. -/
theorem ofResult_spec (parser : TurtleParser) (supportEmptyGraphs : Bool) (resultSet : ResultSet)
    (v : Node) :
    (ofResult parser supportEmptyGraphs resultSet).Ready ∧
      ((ofResult parser supportEmptyGraphs resultSet).Holds v ↔ v ∈ values parser resultSet) := by
  have hNames : (QueryResult.ofResultSet resultSet).resultColumns =
      resultSet.columns.map Column.name := rfl
  unfold ofResult values
  simp only [hNames]
  by_cases hAsk : resultSet.columns.map Column.name = ["__ASK_RETVAL".toList]
  · rw [if_pos hAsk, if_pos hAsk]
    split
    · exact ⟨ready_of_not_isBinding (by simp) rfl, by simp [Holds]⟩
    · exact ⟨ready_of_not_isBinding (by simp) rfl, by simp [Holds]⟩
  · rw [if_neg hAsk, if_neg hAsk]
    by_cases hCall : isCall (resultSet.columns.map Column.name) = true
    · rw [if_pos hCall, if_pos hCall]
      have hLength := length_of_isCall hCall
      refine ofCall_spec hLength ?_ rfl rfl
      obtain ⟨name, hNames⟩ := List.length_eq_one_iff.mp hLength
      simp [hNames]
    · rw [if_neg hCall, if_neg hCall]
      refine ⟨⟨by simp, fun _ _ hResult => .inl ?_⟩, ?_⟩
      · cases hResult
        rfl
      · simp [Holds, QueryResult.ofResultSet]

/-- A column of a listing is not the only one of an `ASK` query or of a call. -/
theorem values_of_bindingIndex {parser : TurtleParser} {resultSet : ResultSet} {i : Nat}
    (h : bindingIndex (resultSet.columns.map Column.name) ['g'] = some i) :
    values parser resultSet = (readableRows resultSet.columns.length resultSet.rows).flatten := by
  have hAsk : resultSet.columns.map Column.name ≠ ["__ASK_RETVAL".toList] := by
    intro hNames
    rw [hNames, show bindingIndex ["__ASK_RETVAL".toList] ['g'] = none by decide] at h
    cases h
  have hCall : isCall (resultSet.columns.map Column.name) ≠ true := by
    intro hNames
    simp only [isCall, Bool.or_eq_true, decide_eq_true_eq] at hNames
    rcases hNames with hNames | hNames
    · rw [hNames, show bindingIndex ["callret-0".toList] ['g'] = none by decide] at h
      cases h
    · rw [hNames, show bindingIndex ["fmtaggret-".toList] ['g'] = none by decide] at h
      cases h
  simp only [values]
  rw [if_neg hAsk, if_neg hCall, List.length_map]

/-- The resource that stands for the default graph is invisible in a result that is listed for a
pattern: a row of that graph is listed without a context, and the resource is never read. -/
structure Invisible (parser : TurtleParser) (resultSet : ResultSet) (template : Statement) :
    Prop where
  listed : ∀ (k : Nat) (nodes : List Node) (i : Nat) (statement : Statement),
    (readableRows resultSet.columns.length resultSet.rows)[k]? = some nodes →
    bindingIndex (resultSet.columns.map Column.name) ['g'] = some i →
    nodes[i]? = some defaultGraphNode →
    (QueryResultIterator.allStatements template (VirtuosoModel.listBindings template)
      (ofResult parser true resultSet))[k]? = some statement →
    statement.context = .empty
  read : ∀ accesses, defaultGraphNode ∉ reads template accesses (ofResult parser true resultSet)

/-- A statement without a context is added to the default graph. The default graph is invisible if and
only if the result does not have its resource, and the client did not ask for it. -/
theorem defaultGraph_invisible_iff :
    (∀ statement : Statement,
      (paramNodes { statement with context := .empty }).head? = some defaultGraphNode) ∧
    (∀ (parser : TurtleParser) (resultSet : ResultSet) (template : Statement),
      Invisible parser resultSet template ↔
        defaultGraphNode ∉ values parser resultSet ∧ defaultGraphNode ∉ template.nodes) := by
  refine ⟨fun statement => rfl, fun parser resultSet template => ?_⟩
  obtain ⟨hReady, hHolds⟩ := ofResult_spec parser true resultSet defaultGraphNode
  have hReads : (∃ accesses, defaultGraphNode ∈ reads template accesses _) ↔ _ :=
    exists_reads_iff hReady (nofun : defaultGraphNode ≠ .empty)
  rw [hHolds, ← not_iff_not, not_exists, not_or] at hReads
  constructor
  · exact fun h => hReads.mp h.read
  · intro h
    refine ⟨fun k nodes i statement hRow hName hNode _ => ?_, hReads.mpr h⟩
    -- there is no such row
    refine absurd ?_ h.1
    rw [values_of_bindingIndex hName]
    exact List.mem_flatten.mpr
      ⟨nodes, List.mem_of_getElem? hRow, List.mem_of_getElem? hNode⟩

end Qt

section Example

local instance defaultGraphQt : Qt := asciiQt

/-- The cell of an IRI. -/
def iriCell (uri : QUrl) : Cell :=
  ⟨.ok uri.toEncoded, .ok (), .ok 182, .ok 1, none, .error [], .error []⟩

/-- What the server returns for a listing of a statement that is in the default graph. -/
def defaultGraphResult : ResultSet :=
  ⟨[⟨['g'], 12⟩], [.ok [iriCell defaultGraph]], []⟩

/-- The statement is listed in the internal graph, which is read by name, by index and as the current
bindings too. -/
theorem read_defaultGraph :
    let node := Node.ofUri (.ofString "http://soprano.org/a" (by decide))
    let s : Statement := ⟨node, node, node, .empty⟩
    let backend := QueryResultIteratorBackend.ofResult none true defaultGraphResult
    QueryResultIterator.allStatements s (VirtuosoModel.listBindings s) backend =
      [{ s with context := defaultGraphNode }] ∧
    reads s [.next, .binding ['g'], .bindingAt 0, .currentBindings] backend =
      [defaultGraphNode, defaultGraphNode, defaultGraphNode] ∧
    (paramNodes s).head? = some defaultGraphNode := by
  decide

end Example

end Virtuoso

end Soprano
