import Soprano.Error
import Soprano.Library.Runs

/-! `AsyncQuery`: a worker thread iterates the results of a query. It hands out one at a time: it posts
a call of the client's slot and waits until the client calls `next`. The critical sections of the
client are single steps but for that of `close`; those of the worker are not, since the client can be
called before the worker waits. -/

namespace Soprano.Util.AsyncQuery

inductive ResultType
  | unknownResult
  | graphResult
  | bindingResult
  | booleanResult
  deriving DecidableEq

/-- What `executeQuery` of the model returns: each result has a statement and bindings, of which
`currentStatement` and `currentBindings` are those of the last `next`. The errors are those behind
the last call. -/
structure Query (T B : Type) where
  isValid : Bool
  isGraph : Bool
  isBinding : Bool
  boolValue : Bool
  bindingNames : List QString
  results : List (T × B)
  modelError : Error
  iteratorError : Error

/-- Where the worker is in `run`. -/
inductive Worker (T B : Type)
  | start
  /-- at the condition of the loop -/
  | loop
  /-- before `it.next()` -/
  | next
  /-- before the second test of `m_closed`, with the result that `it` stands at -/
  | test (row : T × B)
  /-- before `m_mutex.lock()` -/
  | lock (row : T × B)
  /-- with the mutex, before the result is cached -/
  | cache (row : T × B)
  /-- with the mutex, before the client is informed -/
  | emit
  /-- with the mutex, before `m_nextWaiter.wait` -/
  | wait
  /-- in `m_nextWaiter.wait` -/
  | waiting
  /-- woken, without the mutex -/
  | woken
  /-- behind the loop -/
  | stop
  /-- behind `run`, before the thread has told that it finished -/
  | finish
  | done

/-- The calls that are queued for the client's thread. -/
inductive Event
  | emitNextReady
  | finished
  deriving DecidableEq

/-- `closing` is whether a `close` has the mutex and is yet to wake the worker; `handler` whether the
client is in its slot for `nextReady`, and there behind its call of `next`. The rest is what
happened: the signals, and what was read in which slot before `next`. -/
structure State (T B : Type) where
  remaining : List (T × B)
  m_type : ResultType
  m_boolValue : Bool
  m_closed : Bool
  m_currentStatement : Option T
  m_currentBindings : Option B
  m_bindingNames : List QString
  m_lastError : Error
  worker : Worker T B
  closing : Bool
  events : List Event
  handler : Option Bool
  nextReady : Nat
  received : List (Nat × Option (T ⊕ B))
  finished : Bool
  error : Error

variable {T B : Type}

def init (query : Query T B) : State T B :=
  ⟨query.results, .unknownResult, false, false, none, none, [], .none, .start, false, [], none, 0, [],
    false, .none⟩

namespace Worker

/-- The worker has the mutex. -/
def holds : Worker T B → Bool
  | .cache _ | .emit | .wait => true
  | _ => false

/-- `QThread::isRunning` -/
def isRunning : Worker T B → Bool
  | .finish | .done => false
  | _ => true

/-- `m_nextWaiter.wakeAll()` -/
def wake : Worker T B → Worker T B
  | .waiting => .woken
  | worker => worker

end Worker

namespace State

/-- Somebody has `m_mutex`. -/
def locked (s : State T B) : Bool := s.closing || s.worker.holds

/-- What the client reads: `currentStatement`, or `currentBindings` and its values. -/
def current (s : State T B) : Option (T ⊕ B) :=
  match s.m_type with
  | .graphResult => s.m_currentStatement.map .inl
  | .bindingResult => s.m_currentBindings.map .inr
  | _ => none

/-- One step of `run`; none where it waits. -/
def run (query : Query T B) (s : State T B) : Option (State T B) :=
  match s.worker with
  | .start =>
    if query.isValid then
      if query.isGraph then some { s with m_type := .graphResult, worker := .loop }
      else if query.isBinding then some { s with m_type := .bindingResult, worker := .loop }
      else some { s with m_type := .booleanResult, m_boolValue := query.boolValue, worker := .stop }
    else some { s with worker := .stop }
  | .loop => some { s with worker := if s.m_closed then .stop else .next }
  | .next =>
    match s.remaining with
    | [] => some { s with worker := .stop }
    | row :: rest => some { s with remaining := rest, worker := .test row }
  | .test row => some { s with worker := if s.m_closed then .stop else .lock row }
  | .lock row => if s.locked then none else some { s with worker := .cache row }
  | .cache row =>
    if s.m_type = .graphResult then some { s with m_currentStatement := some row.1, worker := .emit }
    else
      some { s with
        m_currentBindings := some row.2
        m_bindingNames := if s.m_bindingNames.isEmpty then query.bindingNames else s.m_bindingNames
        worker := .emit }
  | .emit => some { s with events := s.events ++ [.emitNextReady], worker := .wait }
  | .wait => some { s with worker := .waiting }
  | .waiting => none
  | .woken => if s.locked then none else some { s with worker := .loop }
  | .stop =>
    some { s with
      m_lastError := if query.modelError.code = 0 then query.iteratorError else query.modelError
      worker := .finish }
  | .finish => some { s with events := s.events ++ [.finished], worker := .done }
  | .done => none

/-- The event loop of the client calls `_s_emitNextReady` or `_s_finished`, behind which the object is
deleted. -/
def deliver (s : State T B) : Option (State T B) :=
  if s.handler = none ∧ s.finished = false then
    match s.events with
    | [] => none
    | .emitNextReady :: events =>
      some { s with events := events, handler := some false, nextReady := s.nextReady + 1 }
    | .finished :: events => some { s with events := events, finished := true, error := s.m_lastError }
  else none

/-- `AsyncQuery::next` -/
def next (s : State T B) : Option (State T B) :=
  if s.worker.isRunning then
    if s.locked then none
    else some { s with worker := s.worker.wake, handler := s.handler.map fun _ => true }
  else some { s with handler := s.handler.map fun _ => true }

/-- The client reads the current result in its slot. -/
def read (s : State T B) : Option (State T B) :=
  if s.handler = some false ∧ s.locked = false then
    some { s with received := s.received ++ [(s.nextReady, s.current)] }
  else none

/-- The client's slot returns. -/
def leave (s : State T B) : Option (State T B) :=
  if s.handler = none then none else some { s with handler := none }

/-- `AsyncQuery::close`, up to the call of `wakeAll` -/
def close (s : State T B) : Option (State T B) :=
  if s.locked then none else some { s with m_closed := true, closing := true }

/-- The end of `AsyncQuery::close` -/
def wakeClosed (s : State T B) : Option (State T B) :=
  if s.closing then some { s with worker := s.worker.wake, closing := false } else none

end State

inductive Action
  | run
  | deliver
  | read
  | next
  | leave
  | close
  | wakeClosed

/-- A step; none where the thread waits for the mutex, or has nothing to do. -/
def step (query : Query T B) (s : State T B) : Action → Option (State T B)
  | .run => s.run query
  | .deliver => s.deliver
  | .read => s.read
  | .next => s.next
  | .leave => s.leave
  | .close => s.close
  | .wakeClosed => s.wakeClosed

/-- The client calls `next` once in each slot, and does not close the query. -/
def Action.Answers (s : State T B) : Action → Prop
  | .run | .deliver | .read => True
  | .next => s.handler = some false
  | .leave => s.handler = some true
  | .close | .wakeClosed => False

/-- The query has results that are handed out. -/
def Query.HasRows (q : Query T B) : Prop := q.isValid = true ∧ (q.isGraph = true ∨ q.isBinding = true)

/-- The type of a query that has results. -/
def Query.kind (q : Query T B) : ResultType := if q.isGraph then .graphResult else .bindingResult

/-- What the client is to read of a result. -/
def Query.shown (q : Query T B) (row : T × B) : T ⊕ B := if q.isGraph then .inl row.1 else .inr row.2

namespace State

/-- The results that the worker has posted. -/
def posted (s : State T B) : Nat := s.nextReady + s.events.count .emitNextReady

/-- Nothing is left for the client to answer. -/
def Quiet (s : State T B) : Prop := s.finished = false ∧ s.events = [] ∧ s.handler ≠ some false

/-- The client has one result to answer. -/
def Asked (s : State T B) : Prop :=
  s.finished = false ∧
    (s.events = [.emitNextReady] ∧ s.handler ≠ some false ∨ s.events = [] ∧ s.handler = some false)

/-- The result that was posted last can be read. -/
def Shows (q : Query T B) (s : State T B) : Prop :=
  ∃ row, 0 < s.posted ∧ q.results[s.posted - 1]? = some row ∧ s.current = some (q.shown row)

/-- What holds where the worker is. -/
def Located (q : Query T B) (s : State T B) : Worker T B → Prop
  | .start | .loop | .next | .woken => q.results.drop s.posted = s.remaining ∧ s.Quiet
  | .test row | .lock row | .cache row => q.results.drop s.posted = row :: s.remaining ∧ s.Quiet
  | .emit => ∃ row, q.results.drop s.posted = row :: s.remaining ∧ s.current = some (q.shown row) ∧ s.Quiet
  | .wait | .waiting => q.results.drop s.posted = s.remaining ∧ s.Shows q ∧ s.Asked
  | .stop | .finish => s.posted = q.results.length ∧ s.Quiet
  | .done => s.posted = q.results.length ∧ s.handler ≠ some false ∧
      (s.finished = false ∧ s.events = [.finished] ∨ s.finished = true ∧ s.events = [])

end State

structure Invariant (q : Query T B) (s : State T B) : Prop where
  opened : s.m_closed = false ∧ s.closing = false
  typed : s.worker = .start ∨ s.m_type = q.kind
  bound : s.posted ≤ q.results.length
  located : s.Located q s.worker
  received : ∀ r ∈ s.received, ∃ row, 0 < r.1 ∧ q.results[r.1 - 1]? = some row ∧ r.2 = some (q.shown row)

variable {q : Query T B} {s t : State T B}

theorem invariant_init (q : Query T B) : Invariant q (init q) where
  opened := ⟨rfl, rfl⟩
  typed := .inl rfl
  bound := Nat.zero_le _
  located := ⟨rfl, rfl, rfl, nofun⟩
  received := nofun

namespace Invariant

theorem locked_eq (h : Invariant q s) : s.locked = s.worker.holds := by
  rw [State.locked, h.opened.2, Bool.false_or]

/-- The worker's steps. -/
theorem run (hq : q.HasRows) (h : Invariant q s) (hRun : s.run q = some t) : Invariant q t := by
  obtain ⟨⟨hClosed, hClosing⟩, hTyped, hBound, hLocated, hReceived⟩ := h
  cases hWorker : s.worker with
  | start =>
    rw [hWorker] at hLocated
    simp only [State.run, hWorker, hq.1, if_true] at hRun
    by_cases hGraph : q.isGraph = true
    · rw [if_pos hGraph] at hRun
      cases hRun
      exact ⟨⟨hClosed, hClosing⟩, .inr (by rw [Query.kind, if_pos hGraph]), hBound, hLocated, hReceived⟩
    · rw [if_neg hGraph, if_pos (hq.2.resolve_left hGraph)] at hRun
      cases hRun
      exact ⟨⟨hClosed, hClosing⟩, .inr (by rw [Query.kind, if_neg hGraph]), hBound, hLocated, hReceived⟩
  | loop =>
    rw [hWorker] at hLocated
    simp only [State.run, hWorker, hClosed, Bool.false_eq_true, if_false] at hRun
    cases hRun
    exact ⟨⟨rfl, hClosing⟩, .inr (hTyped.resolve_left (by simp [hWorker])), hBound, hLocated, hReceived⟩
  | next =>
    rw [hWorker] at hLocated
    have hType := hTyped.resolve_left (by simp [hWorker])
    simp only [State.run, hWorker] at hRun
    cases hRemaining : s.remaining with
    | nil =>
      simp only [hRemaining] at hRun
      cases hRun
      have hEnd : q.results.length ≤ s.posted :=
        List.drop_eq_nil_iff.mp (hLocated.1.trans hRemaining)
      exact ⟨⟨hClosed, hClosing⟩, .inr hType, hBound, ⟨Nat.le_antisymm hBound hEnd, hLocated.2⟩, hReceived⟩
    | cons row rest =>
      simp only [hRemaining] at hRun
      cases hRun
      exact ⟨⟨hClosed, hClosing⟩, .inr hType, hBound,
        ⟨hLocated.1.trans hRemaining, hLocated.2⟩, hReceived⟩
  | test row =>
    rw [hWorker] at hLocated
    simp only [State.run, hWorker, hClosed, Bool.false_eq_true, if_false] at hRun
    cases hRun
    exact ⟨⟨rfl, hClosing⟩, .inr (hTyped.resolve_left (by simp [hWorker])), hBound, hLocated, hReceived⟩
  | lock row =>
    rw [hWorker] at hLocated
    simp only [State.run, hWorker, Option.ite_none_left_eq_some] at hRun
    cases hRun.2
    exact ⟨⟨hClosed, hClosing⟩, .inr (hTyped.resolve_left (by simp [hWorker])), hBound, hLocated, hReceived⟩
  | cache row =>
    rw [hWorker] at hLocated
    have hType := hTyped.resolve_left (by simp [hWorker])
    simp only [State.run, hWorker, hType, Query.kind] at hRun
    by_cases hGraph : q.isGraph = true
    · simp only [hGraph, if_true] at hRun
      cases hRun
      refine ⟨⟨hClosed, hClosing⟩, .inr (by simp [Query.kind, hGraph]), hBound,
        ⟨row, hLocated.1, ?_, hLocated.2⟩, hReceived⟩
      simp [State.current, Query.shown, hGraph]
    · simp only [hGraph] at hRun
      cases hRun
      refine ⟨⟨hClosed, hClosing⟩, .inr (by simp [Query.kind, hGraph]), hBound,
        ⟨row, hLocated.1, ?_, hLocated.2⟩, hReceived⟩
      simp [State.current, Query.shown, hGraph]
  | emit =>
    rw [hWorker] at hLocated
    obtain ⟨row, hDrop, hCurrent, hOpen, hEvents, hHandler⟩ := hLocated
    simp only [State.run, hWorker] at hRun
    cases hRun
    have hPosted : ({ s with events := s.events ++ [.emitNextReady], worker := .wait } : State T B).posted =
        s.posted + 1 := by
      simp [State.posted, List.count_append, Nat.add_assoc]
    have hLt : s.posted < q.results.length := by
      by_contra hNot
      rw [List.drop_eq_nil_iff.mpr (Nat.le_of_not_lt hNot)] at hDrop
      cases hDrop
    refine ⟨⟨hClosed, hClosing⟩, .inr (hTyped.resolve_left (by simp [hWorker])), by rw [hPosted]; exact hLt,
      ⟨?_, ⟨row, by rw [hPosted]; exact Nat.succ_pos _, ?_, hCurrent⟩, hOpen, .inl ⟨by simp [hEvents], hHandler⟩⟩,
      hReceived⟩
    · rw [hPosted, ← List.drop_drop, hDrop]
      rfl
    · rw [hPosted, Nat.add_sub_cancel, ← List.head?_drop, hDrop]
      rfl
  | wait =>
    rw [hWorker] at hLocated
    simp only [State.run, hWorker] at hRun
    cases hRun
    exact ⟨⟨hClosed, hClosing⟩, .inr (hTyped.resolve_left (by simp [hWorker])), hBound, hLocated, hReceived⟩
  | waiting => simp [State.run, hWorker] at hRun
  | woken =>
    rw [hWorker] at hLocated
    simp only [State.run, hWorker, Option.ite_none_left_eq_some] at hRun
    cases hRun.2
    exact ⟨⟨hClosed, hClosing⟩, .inr (hTyped.resolve_left (by simp [hWorker])), hBound, hLocated, hReceived⟩
  | stop =>
    rw [hWorker] at hLocated
    simp only [State.run, hWorker] at hRun
    cases hRun
    exact ⟨⟨hClosed, hClosing⟩, .inr (hTyped.resolve_left (by simp [hWorker])), hBound, hLocated, hReceived⟩
  | finish =>
    rw [hWorker] at hLocated
    obtain ⟨hAll, hOpen, hEvents, hHandler⟩ := hLocated
    simp only [State.run, hWorker] at hRun
    cases hRun
    have hPosted : ({ s with events := s.events ++ [.finished], worker := .done } : State T B).posted =
        s.posted := by
      simp [State.posted, List.count_append]
    exact ⟨⟨hClosed, hClosing⟩, .inr (hTyped.resolve_left (by simp [hWorker])), by rw [hPosted]; exact hBound,
      ⟨hPosted.trans hAll, hHandler, .inl ⟨hOpen, by simp [hEvents]⟩⟩, hReceived⟩
  | done => simp [State.run, hWorker] at hRun

/-- The one call that can be queued, and where the worker is then. -/
theorem event {w : Worker T B} {event : Event} {events : List Event} (h : s.Located q w)
    (hEvents : s.events = event :: events) :
    events = [] ∧ (event = .emitNextReady ∧ (w = .wait ∨ w = .waiting) ∨ event = .finished ∧ w = .done) := by
  have hQuiet : ¬ s.Quiet := fun hQuiet => List.cons_ne_nil _ _ (hEvents.symm.trans hQuiet.2.1)
  have hAsked : s.Asked → events = [] ∧ event = .emitNextReady := by
    rintro ⟨-, ⟨hOne, -⟩ | ⟨hNone, -⟩⟩
    · exact And.symm (List.cons.inj (hEvents.symm.trans hOne))
    · exact absurd (hEvents.symm.trans hNone) (List.cons_ne_nil _ _)
  cases w with
  | wait | waiting =>
    obtain ⟨hRest, hEvent⟩ := hAsked h.2.2
    exact ⟨hRest, .inl ⟨hEvent, by simp⟩⟩
  | emit =>
    obtain ⟨-, -, -, h⟩ := h
    exact absurd h hQuiet
  | done =>
    rcases h.2.2 with ⟨-, hOne⟩ | ⟨-, hNone⟩
    · obtain ⟨hEvent, hRest⟩ := List.cons.inj (hEvents.symm.trans hOne)
      exact ⟨hRest, .inr ⟨hEvent, rfl⟩⟩
    · exact absurd (hEvents.symm.trans hNone) (List.cons_ne_nil _ _)
  | _ => exact absurd h.2 hQuiet

/-- The event loop hands out the one call that is queued. -/
theorem deliver (h : Invariant q s) (hDeliver : s.deliver = some t) : Invariant q t := by
  obtain ⟨hOpened, hTyped, hBound, hLocated, hReceived⟩ := h
  simp only [State.deliver, Option.ite_none_right_eq_some] at hDeliver
  obtain ⟨⟨hIdle, hOpen⟩, hDeliver⟩ := hDeliver
  cases hEvents : s.events with
  | nil => simp [hEvents] at hDeliver
  | cons event events =>
    obtain ⟨rfl, ⟨rfl, hWorker⟩ | ⟨rfl, hWorker⟩⟩ := Invariant.event hLocated hEvents
    · simp only [hEvents] at hDeliver
      obtain rfl := Option.some.inj hDeliver
      have hPosted : ({ s with
          events := [], handler := some false, nextReady := s.nextReady + 1 } : State T B).posted =
          s.posted := by
        simp [State.posted, hEvents]
      have hAsked : ∀ w : Worker T B, w = .wait ∨ w = .waiting → s.Located q w →
          State.Located q { s with
            events := [], handler := some false, nextReady := s.nextReady + 1 } w := by
        rintro w (rfl | rfl) ⟨hDrop, ⟨row, hPos, hRow, hCurrent⟩, -, -⟩
        · exact ⟨by rw [hPosted]; exact hDrop, ⟨row, by rw [hPosted]; exact hPos,
            by rw [hPosted]; exact hRow, hCurrent⟩, hOpen, .inr ⟨rfl, rfl⟩⟩
        · exact ⟨by rw [hPosted]; exact hDrop, ⟨row, by rw [hPosted]; exact hPos,
            by rw [hPosted]; exact hRow, hCurrent⟩, hOpen, .inr ⟨rfl, rfl⟩⟩
      exact ⟨hOpened, hTyped, by rw [hPosted]; exact hBound, hAsked s.worker hWorker hLocated, hReceived⟩
    · simp only [hEvents] at hDeliver
      obtain rfl := Option.some.inj hDeliver
      have hPosted : ({ s with events := [], finished := true, error := s.m_lastError } : State T B).posted =
          s.posted := by
        simp [State.posted, hEvents]
      have hEnd : ∀ w : Worker T B, w = .done → s.Located q w →
          State.Located q { s with events := [], finished := true, error := s.m_lastError } w := by
        rintro w rfl ⟨hAll, hHandler, -⟩
        exact ⟨hPosted.trans hAll, hHandler, .inr ⟨rfl, rfl⟩⟩
      exact ⟨hOpened, hTyped, by rw [hPosted]; exact hBound, hEnd s.worker hWorker hLocated, hReceived⟩

/-- Where the client has still to answer, the worker waits, or is about to. -/
theorem asked {w : Worker T B} (h : s.Located q w) (hHandler : s.handler = some false) :
    w = .wait ∨ w = .waiting := by
  have hQuiet : ¬ s.Quiet := fun hQuiet => hQuiet.2.2 hHandler
  cases w with
  | wait | waiting => simp
  | emit =>
    obtain ⟨-, -, -, h⟩ := h
    exact absurd h hQuiet
  | done => exact absurd hHandler h.2.1
  | _ => exact absurd h.2 hQuiet

/-- A client that is behind its answer can leave its slot. -/
theorem leaveSlot {w : Worker T B} (h : s.Located q w) (hHandler : s.handler ≠ some false) :
    State.Located q { s with handler := none } w := by
  have hQuiet : s.Quiet → State.Quiet { s with handler := none } := fun h => ⟨h.1, h.2.1, nofun⟩
  cases w with
  | wait | waiting =>
    obtain ⟨hDrop, hShows, hOpen, ⟨hEvents, -⟩ | ⟨-, hAsked⟩⟩ := h
    · exact ⟨hDrop, hShows, hOpen, .inl ⟨hEvents, nofun⟩⟩
    · exact absurd hAsked hHandler
  | emit =>
    obtain ⟨row, hDrop, hCurrent, h⟩ := h
    exact ⟨row, hDrop, hCurrent, hQuiet h⟩
  | done => exact ⟨h.1, nofun, h.2.2⟩
  | _ => exact ⟨h.1, hQuiet h.2⟩

/-- The client's answer wakes the worker, which waits. -/
theorem next (h : Invariant q s) (hHandler : s.handler = some false) (hNext : s.next = some t) :
    Invariant q t := by
  have hLocked := h.locked_eq
  obtain ⟨hOpened, hTyped, hBound, hLocated, hReceived⟩ := h
  rcases asked hLocated hHandler with hWorker | hWorker
  · rw [hWorker] at hLocked
    simp [State.next, hWorker, Worker.isRunning, hLocked, Worker.holds] at hNext
  · rw [hWorker] at hLocated hLocked
    simp only [State.next, hWorker, Worker.isRunning, hLocked, Worker.holds, hHandler] at hNext
    obtain rfl := Option.some.inj hNext
    obtain ⟨hDrop, -, hOpen, ⟨-, hNot⟩ | ⟨hEvents, -⟩⟩ := hLocated
    · exact absurd hHandler hNot
    · exact ⟨hOpened, .inr (hTyped.resolve_left (by simp [hWorker])), hBound,
        ⟨hDrop, hOpen, hEvents, nofun⟩, hReceived⟩

theorem read (h : Invariant q s) (hRead : s.read = some t) : Invariant q t := by
  obtain ⟨hOpened, hTyped, hBound, hLocated, hReceived⟩ := h
  simp only [State.read, Option.ite_none_right_eq_some, Option.some.injEq] at hRead
  obtain ⟨⟨hHandler, -⟩, rfl⟩ := hRead
  have hShows : s.Shows q ∧ s.events = [] := by
    have hAsked : s.Asked → s.events = [] := by
      rintro ⟨-, ⟨-, hNot⟩ | ⟨hEvents, -⟩⟩
      · exact absurd hHandler hNot
      · exact hEvents
    rcases asked hLocated hHandler with hWorker | hWorker
    · rw [hWorker] at hLocated
      exact ⟨hLocated.2.1, hAsked hLocated.2.2⟩
    · rw [hWorker] at hLocated
      exact ⟨hLocated.2.1, hAsked hLocated.2.2⟩
  obtain ⟨⟨row, hPos, hRow, hCurrent⟩, hEvents⟩ := hShows
  have hPosted : s.posted = s.nextReady := by simp [State.posted, hEvents]
  have hSame : ∀ w : Worker T B, s.Located q w →
      State.Located q { s with received := s.received ++ [(s.nextReady, s.current)] } w := by
    intro w h
    cases w <;> exact h
  refine ⟨hOpened, hTyped, hBound, hSame _ hLocated, fun r hr => ?_⟩
  rcases List.mem_append.mp hr with hOld | hNew
  · exact hReceived r hOld
  · obtain rfl := List.mem_singleton.mp hNew
    rw [hPosted] at hPos hRow
    exact ⟨row, hPos, hRow, hCurrent⟩

theorem step (hq : q.HasRows) (h : Invariant q s) {a : Action} (hMeets : a.Answers s)
    (hStep : AsyncQuery.step q s a = some t) : Invariant q t := by
  cases a with
  | run => exact h.run hq hStep
  | deliver => exact h.deliver hStep
  | read => exact h.read hStep
  | next => exact h.next hMeets hStep
  | leave =>
    have hHandler : s.handler = some true := hMeets
    simp only [AsyncQuery.step, State.leave, hHandler] at hStep
    obtain rfl := Option.some.inj hStep
    exact ⟨h.opened, h.typed, h.bound, leaveSlot h.located (by simp [hHandler]), h.received⟩
  | close | wakeClosed => exact hMeets.elim

/-! ### Progress -/

end Invariant

namespace Worker

/-- What the worker still does before it waits or asks for the next result. -/
def measure : Worker T B → Nat
  | .start => 8
  | .loop => 7
  | .next => 6
  | .test _ => 20
  | .lock _ => 19
  | .cache _ => 18
  | .emit => 17
  | .wait => 12
  | .waiting => 11
  | .woken => 10
  | .stop => 5
  | .finish => 4
  | .done => 0

end Worker

namespace State

/-- Every step of the worker and of a client that answers decreases it, but for reading. -/
def measure (s : State T B) : Nat :=
  16 * s.remaining.length + s.worker.measure + 3 * s.events.length +
    match s.handler with
    | none => 0
    | some true => 1
    | some false => 2

end State

theorem measure_run (hRun : s.run q = some t) : t.measure < s.measure := by
  cases hWorker : s.worker with
  | start =>
    simp only [State.run, hWorker] at hRun
    split at hRun
    · split at hRun
      · cases hRun
        simp [State.measure, hWorker, Worker.measure]
      · split at hRun <;> cases hRun <;> simp [State.measure, hWorker, Worker.measure]
    · cases hRun
      simp [State.measure, hWorker, Worker.measure]
  | loop | test row =>
    simp only [State.run, hWorker] at hRun
    cases hRun
    simp only [State.measure, hWorker]
    split <;> simp [Worker.measure]
  | next =>
    simp only [State.run, hWorker] at hRun
    split at hRun
    · cases hRun
      simp [State.measure, hWorker, Worker.measure]
    · rename_i hRemaining
      cases hRun
      simp only [State.measure, hWorker, hRemaining, Worker.measure, List.length_cons]
      omega
  | lock row | woken =>
    simp only [State.run, hWorker, Option.ite_none_left_eq_some] at hRun
    cases hRun.2
    simp [State.measure, hWorker, Worker.measure]
  | cache row =>
    simp only [State.run, hWorker] at hRun
    split at hRun <;> cases hRun <;> simp [State.measure, hWorker, Worker.measure]
  | emit | finish =>
    simp only [State.run, hWorker] at hRun
    cases hRun
    simp only [State.measure, hWorker, Worker.measure, List.length_append, List.length_singleton]
    omega
  | wait | stop =>
    simp only [State.run, hWorker] at hRun
    cases hRun
    simp [State.measure, hWorker, Worker.measure]
  | waiting | done => simp [State.run, hWorker] at hRun

/-- A worker that neither waits nor is at its end can go on. -/
theorem exists_run_of_unlocked (hClosing : s.closing = false) (hWaiting : s.worker ≠ .waiting)
    (hDone : s.worker ≠ .done) : ∃ t, s.run q = some t := by
  cases hWorker : s.worker with
  | waiting => exact absurd hWorker hWaiting
  | done => exact absurd hWorker hDone
  | start =>
    simp only [State.run, hWorker]
    split
    · split
      · exact ⟨_, rfl⟩
      · split <;> exact ⟨_, rfl⟩
    · exact ⟨_, rfl⟩
  | next | cache row =>
    simp only [State.run, hWorker]
    split <;> exact ⟨_, rfl⟩
  | lock row | woken =>
    have hFree : s.locked = false := by rw [State.locked, hClosing, hWorker]; rfl
    simp [State.run, hWorker, hFree]
  | _ =>
    simp only [State.run, hWorker]
    exact ⟨_, rfl⟩

namespace Invariant

/-- Until the end is delivered, the worker or the client can make a step. -/
theorem progress (h : Invariant q s) (hOpen : s.finished = false) :
    ∃ (a : Action) (t : State T B),
      a.Answers s ∧ AsyncQuery.step q s a = some t ∧ t.measure < s.measure := by
  have hLocked := h.locked_eq
  -- a client that has answered leaves its slot, any other one takes the next call
  have hIdle : s.handler ≠ some false → s.events ≠ [] →
      ∃ (a : Action) (t : State T B),
        a.Answers s ∧ AsyncQuery.step q s a = some t ∧ t.measure < s.measure := by
    intro hHandler hEvents
    cases hSlot : s.handler with
    | none =>
      obtain ⟨event, events, hEvents⟩ := List.exists_cons_of_ne_nil hEvents
      refine ⟨.deliver, ?_⟩
      cases event with
      | emitNextReady =>
        refine ⟨_, trivial, by simp [AsyncQuery.step, State.deliver, hSlot, hOpen, hEvents]; rfl, ?_⟩
        simp only [State.measure, hSlot, hEvents, List.length_cons]
        omega
      | finished =>
        refine ⟨_, trivial, by simp [AsyncQuery.step, State.deliver, hSlot, hOpen, hEvents]; rfl, ?_⟩
        simp [State.measure, hSlot, hEvents]
    | some answered =>
      cases answered with
      | false => exact absurd hSlot hHandler
      | true =>
        refine ⟨.leave, _, hSlot, by simp [AsyncQuery.step, State.leave, hSlot]; rfl, ?_⟩
        simp [State.measure, hSlot]
  have hLocated := h.located
  by_cases hWaiting : s.worker = .waiting
  · rw [hWaiting] at hLocated hLocked
    obtain ⟨-, -, -, ⟨hEvents, hHandler⟩ | ⟨-, hHandler⟩⟩ := hLocated
    · exact hIdle hHandler (by simp [hEvents])
    · refine ⟨.next, _, hHandler,
        by simp [AsyncQuery.step, State.next, hWaiting, Worker.isRunning, hLocked, Worker.holds]; rfl, ?_⟩
      simp only [State.measure, hHandler, hWaiting, Worker.measure, Worker.wake]
      grind
  · by_cases hDone : s.worker = .done
    · rw [hDone] at hLocated
      obtain ⟨-, hHandler, ⟨-, hEvents⟩ | ⟨hFinished, -⟩⟩ := hLocated
      · exact hIdle hHandler (by simp [hEvents])
      · rw [hOpen] at hFinished
        cases hFinished
    · obtain ⟨t, hRun⟩ := exists_run_of_unlocked (q := q) h.opened.2 hWaiting hDone
      exact ⟨.run, t, trivial, hRun, measure_run hRun⟩

/-- The query can always be brought to its end. -/
theorem finishes (hq : q.HasRows) (h : Invariant q s) :
    ∃ (actions : List Action) (t : State T B),
      Runs.AllMeet (AsyncQuery.step q) (fun s a => a.Answers s) s actions ∧
        Runs.run (AsyncQuery.step q) s actions = some t ∧ t.finished = true := by
  induction hMeasure : s.measure using Nat.strongRecOn generalizing s with
  | _ n ih =>
    cases hOpen : s.finished with
    | true => exact ⟨[], s, trivial, rfl, hOpen⟩
    | false =>
      obtain ⟨a, t, hAnswers, hStep, hLess⟩ := h.progress hOpen
      obtain ⟨actions, u, hMeets, hRun, hFinished⟩ :=
        ih t.measure (hMeasure ▸ hLess) (h.step hq hAnswers hStep) rfl
      exact ⟨a :: actions, u, .cons hAnswers hStep hMeets, by rw [Runs.run_cons_of_step hStep]; exact hRun,
        hFinished⟩

/-- Where the end is delivered, all signals were. -/
theorem posted_of_finished (h : Invariant q s) (hFinished : s.finished = true) :
    s.nextReady = q.results.length ∧ s.events = [] := by
  have hLocated := h.located
  have hNot : ∀ {P : Prop}, s.finished = false → P := fun hOpen => by
    rw [hFinished] at hOpen
    cases hOpen
  cases hWorker : s.worker with
  | done =>
    rw [hWorker] at hLocated
    obtain ⟨hAll, -, ⟨hOpen, -⟩ | ⟨-, hEvents⟩⟩ := hLocated
    · exact hNot hOpen
    · simp only [State.posted, hEvents, List.count_nil, Nat.add_zero] at hAll
      exact ⟨hAll, hEvents⟩
  | wait | waiting =>
    rw [hWorker] at hLocated
    exact hNot hLocated.2.2.1
  | emit =>
    rw [hWorker] at hLocated
    obtain ⟨-, -, -, hOpen, -⟩ := hLocated
    exact hNot hOpen
  | _ =>
    rw [hWorker] at hLocated
    exact hNot hLocated.2.1

end Invariant

/-- A client that answers each signal once reads the results in their order, each in the slot of its
signal; there are as many signals as results when the query is finished, which it can always be, and
the worker waits only for an answer that is still to come. -/
theorem delivers_once (hq : q.HasRows) {actions : List Action}
    (hMeets : Runs.AllMeet (step q) (fun s a => a.Answers s) (init q) actions)
    (hRun : Runs.run (step q) (init q) actions = some s) :
    (∀ r ∈ s.received, ∃ row, 0 < r.1 ∧ q.results[r.1 - 1]? = some row ∧ r.2 = some (q.shown row)) ∧
    s.nextReady ≤ q.results.length ∧
    (s.finished = true → s.nextReady = q.results.length ∧ s.events = []) ∧
    (s.worker = .waiting → s.events = [.emitNextReady] ∨ s.handler = some false) ∧
    ∃ (later : List Action) (t : State T B),
      Runs.AllMeet (step q) (fun s a => a.Answers s) s later ∧
        Runs.run (step q) s later = some t ∧ t.finished = true := by
  have h : Invariant q s := Runs.invariant (fun h hMeets hStep => h.step hq hMeets hStep)
    (invariant_init q) hMeets hRun
  refine ⟨h.received, Nat.le_trans (Nat.le_add_right _ _) h.bound, h.posted_of_finished, fun hWaiting => ?_,
    h.finishes hq⟩
  have hLocated := h.located
  rw [hWaiting] at hLocated
  rcases hLocated.2.2.2 with ⟨hEvents, -⟩ | ⟨-, hHandler⟩
  · exact .inl hEvents
  · exact .inr hHandler

/-- A query for bindings with one result. -/
def oneBinding : Query Unit Nat := ⟨true, false, true, false, [], [((), 7)], .none, .none⟩

theorem delivers_once_binding :
    let actions := List.replicate 8 Action.run ++ [.deliver, .read, .next, .leave] ++
      List.replicate 5 .run ++ [.deliver]
    ∃ s, Runs.run (step oneBinding) (init oneBinding) actions = some s ∧ s.finished = true ∧
      s.received = [(1, some (.inr 7))] ∧ s.nextReady = 1 := by
  intro actions
  have hMeets : Runs.AllMeet (step oneBinding) (fun s a => a.Answers s) (init oneBinding) actions := by
    iterate 10
      refine .cons trivial rfl ?_
    refine .cons rfl rfl (.cons rfl rfl ?_)
    iterate 6
      refine .cons trivial rfl ?_
    trivial
  obtain ⟨-, -, hFinished, -⟩ := delivers_once ⟨rfl, .inr rfl⟩ hMeets rfl
  exact ⟨_, rfl, rfl, rfl, (hFinished rfl).1⟩

end Soprano.Util.AsyncQuery
