import Soprano.Virtuoso.VirtuosoModel

/-! How a failed SQL execution reaches the client of an operation. -/

namespace Soprano

namespace Virtuoso

open ODBC VirtuosoModel

section Qt

variable [Qt] {S : Type} {driver : Driver S} {parser : TurtleParser} {model : VirtuosoModel S}

/-- The execution failed, or there was no connection for it. -/
def Execution.failed : Execution → Bool
  | unconnected => true
  | query succeeds => !succeeds
  | command succeeds => !succeeds

/-- The mutating operations. -/
inductive Operation where
  | addStatement (statement : Statement)
  | removeStatement (statement : Statement)
  | removeAllStatements (statement : Statement)

def Operation.isRemoval : Operation → Bool
  | addStatement _ => false
  | _ => true

def Operation.run (driver : Driver S) (parser : TurtleParser) (model : VirtuosoModel S) :
    Operation → Outcome S
  | addStatement statement => model.addStatement driver statement
  | removeStatement statement => model.removeStatement driver statement
  | removeAllStatements statement => model.removeAllStatements driver parser statement

/-- No execution of the operation failed. -/
def AllSucceed (outcome : Outcome S) : Prop := ∀ e ∈ outcome.executions, e.failed = false

/-- A failed execution is reported: by an error code and the last error, and without signals. -/
def Reports (outcome : Outcome S) : Prop :=
  ¬AllSucceed outcome →
    outcome.code ≠ .errorNone ∧ outcome.model.lastError.code ≠ 0 ∧ outcome.signals = []

/-! ### Connections -/

/-- An execution clears the error of its connection, or it fails and leaves an unknown error. -/
theorem execute_spec (conn : Connection S) (request : QString) (params : List Node) :
    (conn.Succeeds driver request params ∧
      (conn.execute driver request params).2.lastError = .none) ∨
    (¬conn.Succeeds driver request params ∧
      (conn.execute driver request params).2.lastError.code = 0x1000) := by
  unfold Connection.Succeeds Connection.execute
  rcases driver.allocHandle conn.state with ⟨records | _, state⟩
  · simp [code_convertSqlError]
  · simp only
    rcases driver.execDirect _ _ state with ⟨records | result, state⟩
    · simp [code_convertSqlError]
    · simp

/-- The thread has a connection. -/
def Connected (model : VirtuosoModel S) : Prop :=
  model.connectionPool.openConnection.isSome = true

theorem connection_of_open {pool : ConnectionPool S} (h : pool.openConnection.isSome = true) :
    ∃ conn, pool.connection driver = (some conn, pool) := by
  obtain ⟨error, hError⟩ := Option.isSome_iff_exists.mp h
  exact ⟨⟨pool.state, error⟩, by rw [ConnectionPool.connection, hError]⟩

/-! ### Removals -/

/-- What a removal leaves that has a connection: `silent` tells that the model emits no signals. -/
structure Removed (silent : Bool) (outcome : Outcome S) : Prop where
  reported : ¬AllSucceed outcome →
    outcome.code ≠ .errorNone ∧ outcome.model.lastError.code ≠ 0 ∧
      (silent = false → outcome.signals ≠ [])
  command : ∀ e ∈ outcome.executions, e.failed = true → e = .command false
  silence : silent = true → outcome.signals = []
  noStatementSignals : outcome.model.noStatementSignals = silent
  connected : Connected outcome.model

/-- What an operation leaves whose failure is not noticed: it has no connection, or its query fails. -/
structure Unnoticed (outcome : Outcome S) : Prop where
  code : outcome.code = .errorNone
  signals : outcome.signals = []
  execution : ∃ e ∈ outcome.executions, e.failed = true ∧ e ≠ .command false

/-- An operation that returns no error reports no failure. -/
theorem reports_iff_of_errorNone {outcome : Outcome S} (h : outcome.code = .errorNone) :
    Reports outcome ↔ AllSucceed outcome :=
  ⟨fun hReports => by_contra fun hFailed => (hReports hFailed).1 h,
    fun hSucceed hFailed => absurd hSucceed hFailed⟩

theorem Removed.reports_iff {silent : Bool} {outcome : Outcome S} (h : Removed silent outcome) :
    Reports outcome ↔ AllSucceed outcome ∨ silent = true := by
  constructor
  · intro hReports
    by_contra hNot
    obtain ⟨hFailed, hSilent⟩ := not_or.mp hNot
    exact (h.reported hFailed).2.2 (Bool.not_eq_true _ ▸ hSilent) (hReports hFailed).2.2
  · rintro (hSucceed | hSilent) hFailed
    · exact absurd hSucceed hFailed
    · obtain ⟨hCode, hError, -⟩ := h.reported hFailed
      exact ⟨hCode, hError, h.silence hSilent⟩

theorem allSucceed_singleton {e : Execution} {outcome : Outcome S}
    (h : outcome.executions = [e]) : AllSucceed outcome ↔ e.failed = false := by
  simp [AllSucceed, h]

/-- A refusal does not execute anything. -/
theorem removed_reject (message : String) (h : Connected model) :
    Removed model.noStatementSignals (model.reject message [] []) where
  reported hFailed := absurd (fun _ he => absurd he List.not_mem_nil) hFailed
  command _ he := absurd he List.not_mem_nil
  silence _ := rfl
  noStatementSignals := rfl
  connected := h

theorem unnoticed_executeRemoval {pool : ConnectionPool S} (query : QString)
    (signals : List Signal) (h : model.connectionPool.connection driver = (none, pool)) :
    Unnoticed (model.executeRemoval driver query signals) := by
  unfold executeRemoval
  rw [h]
  exact ⟨rfl, rfl, .unconnected, List.mem_singleton_self _, rfl, nofun⟩

theorem fail_of_unknown (model : VirtuosoModel S) {error : Error} (executions : List Execution)
    (h : error.code = 0x1000) :
    (model.fail error executions).code = .errorUnknown ∧
      (model.fail error executions).model.lastError = error := by
  have hLast : (model.setError error).lastError = error := by simp [setError, h]
  refine ⟨?_, hLast⟩
  simp only [fail, hLast, h]
  rfl

/-- A removal with a connection returns the connection's error, but `executeCommand` does not let it tell
whether to emit the signals. -/
theorem executeRemoval_connected {conn : Connection S} {pool : ConnectionPool S} (query : QString)
    (signals : List Signal) (h : model.connectionPool.connection driver = (some conn, pool)) :
    model.executeRemoval driver query signals =
      { { model with connectionPool :=
            pool.update (conn.execute driver (s_queryPrefix ++ query) []).2 }.fail
          (conn.execute driver (s_queryPrefix ++ query) []).2.lastError
          [.command (decide (conn.Succeeds driver (s_queryPrefix ++ query) []))] with
        signals := if model.noStatementSignals then [] else signals } := by
  unfold executeRemoval
  rw [h]
  cases model.noStatementSignals with
  | true => simp [Connection.executeCommand, fail]
  | false => simp [Connection.executeCommand]

theorem removed_executeRemoval {conn : Connection S} {pool : ConnectionPool S} (query : QString)
    {signals : List Signal} (hSignals : signals ≠ [])
    (h : model.connectionPool.connection driver = (some conn, pool)) :
    Removed model.noStatementSignals (model.executeRemoval driver query signals) := by
  rw [executeRemoval_connected query signals h]
  generalize s_queryPrefix ++ query = command
  refine ⟨fun hFailed => ?_, fun e he hFailed => ?_, fun hSilent => if_pos hSilent, rfl, rfl⟩
  · have hFails : ¬conn.Succeeds driver command [] := fun hSucceeds =>
      hFailed ((allSucceed_singleton rfl).mpr (by simp [Execution.failed, hSucceeds]))
    have hError := ((execute_spec conn command []).resolve_left fun hBoth => hFails hBoth.1).2
    obtain ⟨hCode, hLast⟩ := fail_of_unknown
      { model with connectionPool := pool.update (conn.execute driver command []).2 }
      [.command (decide (conn.Succeeds driver command []))] hError
    refine ⟨by simp [hCode], by simp [hLast, hError], fun hSilent => ?_⟩
    simpa [hSilent] using hSignals
  · obtain rfl := List.mem_singleton.mp he
    simpa [Execution.failed] using hFailed

/-- A refusal after the signals were emitted. -/
theorem Removed.reject {silent : Bool} {outcome : Outcome S} (h : Removed silent outcome)
    (hSignals : outcome.signals ≠ []) (message : String) :
    Removed silent (outcome.model.reject message outcome.signals outcome.executions) where
  reported _ := ⟨nofun, nofun, fun _ => hSignals⟩
  command := h.command
  silence hSilent := absurd (h.silence hSilent) hSignals
  noStatementSignals := h.noStatementSignals
  connected := h.connected

theorem removed_executeRemoveAll {conn : Connection S} {pool : ConnectionPool S} (query : QString)
    (statement : Statement) (h : model.connectionPool.connection driver = (some conn, pool)) :
    Removed model.noStatementSignals (model.executeRemoveAll driver query statement) := by
  unfold executeRemoveAll
  split
  · split
    · exact removed_executeRemoval query (List.cons_ne_nil _ _) h
    · have hRemoved := removed_executeRemoval query
        (List.cons_ne_nil Signal.statementsRemoved []) h
      simp only
      split
      · exact hRemoved
      · rename_i hSignals
        exact hRemoved.reject hSignals _
  · exact removed_executeRemoval query (List.cons_ne_nil _ _) h

theorem unnoticed_executeRemoveAll {pool : ConnectionPool S} (query : QString)
    (statement : Statement) (h : model.connectionPool.connection driver = (none, pool)) :
    Unnoticed (model.executeRemoveAll driver query statement) := by
  unfold executeRemoveAll
  split
  · split
    · exact unnoticed_executeRemoval query _ h
    · have hUnnoticed := unnoticed_executeRemoval query [.statementsRemoved] h
      simp only
      rw [if_pos hUnnoticed.signals]
      exact hUnnoticed
  · exact unnoticed_executeRemoval query _ h

/-- What becomes of a removal: it is refused before any execution, or it has a connection, or nobody
notices that it fails. -/
inductive RemovalResult (silent : Bool) (outcome : Outcome S) : Prop
  | refused (h : outcome.executions = [])
  | removed (h : Removed silent outcome)
  | unnoticed (h : Unnoticed outcome)

theorem result_executeRemoveAll (model : VirtuosoModel S) (query : QString)
    (statement : Statement) :
    RemovalResult model.noStatementSignals (model.executeRemoveAll driver query statement) := by
  rcases h : model.connectionPool.connection driver with ⟨_ | conn, pool⟩
  · exact .unnoticed (unnoticed_executeRemoveAll query statement h)
  · exact .removed (removed_executeRemoveAll query statement h)

theorem result_executeRemoval (model : VirtuosoModel S) (query : QString) {signals : List Signal}
    (hSignals : signals ≠ []) :
    RemovalResult model.noStatementSignals (model.executeRemoval driver query signals) := by
  rcases h : model.connectionPool.connection driver with ⟨_ | conn, pool⟩
  · exact .unnoticed (unnoticed_executeRemoval query signals h)
  · exact .removed (removed_executeRemoval query hSignals h)

theorem result_removeStatement (model : VirtuosoModel S) (statement : Statement) :
    RemovalResult model.noStatementSignals (model.removeStatement driver statement) := by
  unfold removeStatement
  split
  · exact .refused rfl
  · split
    · exact .refused rfl
    · split
      · exact .refused rfl
      · exact result_executeRemoval (model.pattern (withDefaultGraph statement) true false).2 _
          (List.cons_ne_nil _ _)

theorem result_removeFromContext (model : VirtuosoModel S) (statement : Statement) :
    RemovalResult model.noStatementSignals (removeFromContext driver model statement) := by
  unfold removeFromContext
  let context := model.contextToN3 statement.context
  split
  · exact .refused rfl
  · split
    · exact result_executeRemoveAll context.2 _ statement
    · exact result_executeRemoveAll
        ((context.2.pattern statement false false).2.pattern statement true false).2 _ statement

theorem removed_removeFromContext (h : Connected model) (statement : Statement) :
    Removed model.noStatementSignals (removeFromContext driver model statement) := by
  let context := model.contextToN3 statement.context
  have hRemoved : ∀ (m : VirtuosoModel S) (query : QString), Connected m →
      Removed m.noStatementSignals (m.executeRemoveAll driver query statement) := by
    intro m query hConnected
    obtain ⟨conn, hConn⟩ := connection_of_open hConnected
    exact removed_executeRemoveAll query statement hConn
  unfold removeFromContext
  split
  · exact removed_reject _ h
  · split
    · exact hRemoved context.2 _ h
    · exact hRemoved
        ((context.2.pattern statement false false).2.pattern statement true false).2 _ h

theorem Removed.append {silent : Bool} {outcome rest : Outcome S} (h : Removed silent outcome)
    (hCode : outcome.code = .errorNone) (hRest : Removed silent rest) :
    Removed silent ⟨rest.code, outcome.signals ++ rest.signals,
      outcome.executions ++ rest.executions, rest.model⟩ where
  reported hFailed := by
    have hSucceed : AllSucceed outcome := by_contra fun hNot => (h.reported hNot).1 hCode
    have hFailedRest : ¬AllSucceed rest := fun hSucceedRest =>
      hFailed fun e he => (List.mem_append.mp he).elim (hSucceed e) (hSucceedRest e)
    obtain ⟨hCodeRest, hError, hSignals⟩ := hRest.reported hFailedRest
    exact ⟨hCodeRest, hError, fun hSilent => by simp [hSignals hSilent]⟩
  command e he := (List.mem_append.mp he).elim (h.command e) (hRest.command e)
  silence hSilent := by simp [h.silence hSilent, hRest.silence hSilent]
  noStatementSignals := hRest.noStatementSignals
  connected := hRest.connected

theorem removed_removeFromContexts (statement : Statement) (nodes : List Node)
    (h : Connected model) :
    Removed model.noStatementSignals (removeFromContexts driver statement nodes model) := by
  induction nodes generalizing model with
  | nil =>
    exact ⟨fun hFailed => absurd (fun _ he => absurd he List.not_mem_nil) hFailed,
      fun _ he => absurd he List.not_mem_nil, fun _ => rfl, rfl, h⟩
  | cons node nodes ih =>
    unfold removeFromContexts
    split
    · exact removed_reject _ h
    · simp only
      generalize (if node.isValid = true then node else defaultGraphNode) = context
      have hRemoved : Removed model.noStatementSignals
          (removeFromContext driver model { statement with context }) :=
        removed_removeFromContext h _
      split
      · exact hRemoved
      · rename_i hCode
        have hRest := ih hRemoved.connected
        rw [hRemoved.noStatementSignals] at hRest
        exact hRemoved.append (not_not.mp hCode) hRest

/-- A query that is executed leaves a connection behind, and any other has no result. -/
theorem sqlQuery_spec (driver : Driver S) (parser : TurtleParser) (model : VirtuosoModel S)
    (query : QString) :
    ((model.sqlQuery driver parser query).2.1 = .query true ∧
      Connected (model.sqlQuery driver parser query).2.2 ∧
      (model.sqlQuery driver parser query).2.2.noStatementSignals = model.noStatementSignals) ∨
    ((model.sqlQuery driver parser query).1 = none ∧
      (model.sqlQuery driver parser query).2.1.failed = true ∧
      (model.sqlQuery driver parser query).2.1 ≠ .command false) := by
  unfold sqlQuery
  rcases model.connectionPool.connection driver with ⟨_ | conn, pool⟩
  · exact .inr ⟨rfl, rfl, nofun⟩
  · simp only
    rcases conn.execute driver query [] with ⟨_ | result, conn⟩
    · exact .inr ⟨rfl, rfl, nofun⟩
    · exact .inl ⟨rfl, rfl, rfl⟩

theorem Removed.query {silent : Bool} {outcome : Outcome S} (h : Removed silent outcome) :
    Removed silent { outcome with executions := .query true :: outcome.executions } where
  reported hFailed := h.reported fun hSucceed => hFailed fun e he => by
    rcases List.mem_cons.mp he with rfl | he
    · rfl
    · exact hSucceed e he
  command e he hFailed := by
    rcases List.mem_cons.mp he with rfl | he
    · cases hFailed
    · exact h.command e he hFailed
  silence := h.silence
  noStatementSignals := h.noStatementSignals
  connected := h.connected

theorem result_removeAllStatements (model : VirtuosoModel S) (statement : Statement) :
    RemovalResult model.noStatementSignals
      (model.removeAllStatements driver parser statement) := by
  unfold removeAllStatements
  split
  · exact result_removeFromContext model statement
  · simp only
    split
    · exact result_executeRemoveAll (model.pattern statement true false).2 _ statement
    · generalize _ ++ (model.pattern statement true false).1 ++ _ ++ _ ++ _ = query
      have hSpec := sqlQuery_spec driver parser (model.pattern statement true false).2
        (s_queryPrefix ++ query)
      unfold sparqlQuery
      generalize sqlQuery driver parser (model.pattern statement true false).2
        (s_queryPrefix ++ query) = result at hSpec ⊢
      rcases hSpec with ⟨hQuery, hConnected, hSilent⟩ | ⟨hResult, hFailed, hNe⟩
      · have hRemoved : Removed model.noStatementSignals (removeFromContexts driver statement
            ((result.1.map (QueryResultIterator.allNodes · 0)).getD []) result.2.2) :=
          hSilent ▸ removed_removeFromContexts statement _ hConnected
        rw [hQuery]
        exact .removed hRemoved.query
      · rw [hResult]
        exact .unnoticed ⟨rfl, rfl, result.2.1, List.mem_singleton_self _, hFailed, hNe⟩

/-- An operation reports its failed executions if and only if none fails, or only the command of a
removal whose signals are switched off does. -/
theorem RemovalResult.reports_iff {silent : Bool} {outcome : Outcome S}
    (h : RemovalResult silent outcome) : Reports outcome ↔ AllSucceed outcome ∨
      (silent = true ∧ ∀ e ∈ outcome.executions, e.failed = true → e = .command false) := by
  cases h with
  | refused h =>
    have hSucceed : AllSucceed outcome := by simp [AllSucceed, h]
    exact ⟨fun _ => .inl hSucceed, fun _ hFailed => absurd hSucceed hFailed⟩
  | removed h =>
    rw [h.reports_iff]
    exact or_congr_right ⟨fun hSilent => ⟨hSilent, h.command⟩, fun hBoth => hBoth.1⟩
  | unnoticed h =>
    obtain ⟨e, he, hFailed, hNe⟩ := h.execution
    rw [reports_iff_of_errorNone h.code]
    exact ⟨.inl, fun hEither => hEither.resolve_right fun hBoth => hNe (hBoth.2 e he hFailed)⟩

/-! ### Additions -/

theorem reports_addStatement_iff (model : VirtuosoModel S) (statement : Statement) :
    Reports (model.addStatement driver statement) ↔
      AllSucceed (model.addStatement driver statement) := by
  have hRefused : ∀ message, Reports (model.reject message [] []) ↔
      AllSucceed (model.reject message [] []) := by
    intro message
    have hSucceed : AllSucceed (model.reject message [] []) := fun _ he =>
      absurd he List.not_mem_nil
    exact ⟨fun _ => hSucceed, fun _ hFailed => absurd hSucceed hFailed⟩
  unfold addStatement
  split
  · exact hRefused _
  · split
    · exact hRefused _
    · rcases model.connectionPool.connection driver with ⟨_ | conn, pool⟩
      · exact reports_iff_of_errorNone rfl
      · exact reports_iff_of_errorNone rfl

/-- `executeCommand` tells success from failure only where it succeeds. An operation reports its failed
executions if and only if none fails, or it is a removal that emits no signals and only its own command
fails. -/
theorem executeCommand_reports_iff :
    (∀ (S : Type) (driver : Driver S) (conn : Connection S) (command : QString)
      (params : List Node),
      ((conn.executeCommand driver command params).1 = .errorNone ↔
        conn.Succeeds driver command params) ↔ conn.Succeeds driver command params) ∧
    (∀ (S : Type) (driver : Driver S) (parser : TurtleParser) (model : VirtuosoModel S)
      (operation : Operation),
      Reports (operation.run driver parser model) ↔
        AllSucceed (operation.run driver parser model) ∨
        (operation.isRemoval = true ∧ model.noStatementSignals = true ∧
          ∀ e ∈ (operation.run driver parser model).executions,
            e.failed = true → e = .command false)) := by
  refine ⟨fun S driver conn command params => ?_, fun S driver parser model operation => ?_⟩
  · exact ⟨fun hBoth => hBoth.mp rfl, fun hSucceeds => ⟨fun _ => hSucceeds, fun _ => rfl⟩⟩
  · cases operation with
    | addStatement statement =>
      rw [show Operation.isRemoval (.addStatement statement) = false from rfl]
      simp only [Bool.false_eq_true, false_and, or_false]
      exact reports_addStatement_iff model statement
    | removeStatement statement =>
      rw [show Operation.isRemoval (.removeStatement statement) = true from rfl]
      simp only [true_and]
      exact (result_removeStatement model statement).reports_iff
    | removeAllStatements statement =>
      rw [show Operation.isRemoval (.removeAllStatements statement) = true from rfl]
      simp only [true_and]
      exact (result_removeAllStatements model statement).reports_iff

end Qt

section Example

local instance errorsQt : Qt := asciiQt

/-- A server that refuses every statement. -/
def refusingDriver : Driver Unit where
  connect _ state := (.ok (), state)
  allocHandle state := (.ok (), state)
  execDirect _ _ state := (.error ["Read-only database".toList], state)

/-- A model on a server, before its first operation. -/
def openedModel {S : Type} (state : S) : VirtuosoModel S :=
  ⟨⟨[], [], state, none, .none⟩, "6.1.6".toList, false, true, true, [], .none⟩

/-- The statement that the example changes. -/
def exampleStatement : Statement :=
  let node := Node.ofUri (.ofString "http://soprano.org/a" (by decide))
  ⟨node, node, node, node⟩

/-- The server refuses the insertion and the removal: the first returns no error, and both emit their
signals. -/
theorem addStatement_refusingDriver :
    let model := openedModel ()
    let connection : Connection Unit := ⟨(), .none⟩
    let added := model.addStatement refusingDriver exampleStatement
    let removed := model.removeStatement refusingDriver exampleStatement
    (connection.executeCommand refusingDriver [] []).1 = .errorNone ∧
    ¬connection.Succeeds refusingDriver [] [] ∧
    added.executions = [.command false] ∧ added.code = .errorNone ∧
    added.model.lastError = .none ∧
    added.signals = [.statementAdded exampleStatement, .statementsAdded] ∧
    removed.executions = [.command false] ∧ removed.code = .errorUnknown ∧
    removed.signals = [.statementRemoved exampleStatement, .statementsRemoved] := by
  decide

end Example

end Virtuoso

end Soprano
