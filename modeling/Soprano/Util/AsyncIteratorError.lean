import Soprano.Error
import Soprano.Util.AsyncIteratorBackend

/-! The error of the underlying iterator on its way through an asynchronous one, in `MultiThreaded`
mode: `iterate` copies it into `m_error`, which the consumer reads behind each `getNext`. Nobody closes
the iterator but `Iterator::next` where `getNext` has returned false. -/

namespace Soprano.Util.AsyncIteratorError

open AsyncIteratorBackend (s_cacheSize)

/-- The class of the backend, with what `initWorkThread` has found. -/
inductive Backend
  | asyncIteratorBackend
  | asyncQueryResultIteratorBackend (m_isGraph m_isBinding : Bool)

/-- An element of the underlying iterator, and what `lastError` returns behind it. -/
structure Row (T S E : Type) where
  current : T
  currentStatement : S
  lastError : Option E

/-- What an iterator still returns, and its error where `next` returns false. -/
structure Underlying (T S E : Type) where
  rows : List (Row T S E)
  final : Option E

/-- Where the worker is in `iterate`. -/
inductive Worker (T S : Type)
  | start
  /-- at the condition of the loop, which is read without the mutex -/
  | loop
  /-- before the lock under which the cache is checked -/
  | check
  /-- in `m_iterateWc.wait` -/
  | waiting
  | woken
  /-- before `m_iterator.next()` -/
  | fetch
  /-- before the lock under which the element is put into the cache -/
  | enqueue (current : T) (currentStatement : S)
  /-- before the lock under which the consumer is woken -/
  | announce (haveNext : Bool)
  /-- before `m_iterator.close()` -/
  | close
  | done

/-- Where the consumer is in `Iterator::next`. -/
inductive Consumer
  | idle
  /-- in `m_nextWc.wait` -/
  | waiting
  | woken
  /-- before the backend's `lastError()` -/
  | lastError (hasNext : Bool)
  /-- before the backend's `close()` -/
  | close
deriving DecidableEq

/-- `iteratorError` is the error of `m_iterator` in the worker's thread, `lastError` that of the
consumer's iterator in the consumer's, and `hasNext` what the last `next` has returned. -/
structure State (T S E : Type) where
  m_iterator : Underlying T S E
  iteratorError : Option E
  m_atEnd : Bool
  m_error : Option E
  m_cache : List T
  m_current : Option T
  m_statementCache : List S
  m_currentStatement : Option S
  worker : Worker T S
  consumer : Consumer
  lastError : Option E
  hasNext : Option Bool

variable {T S E : Type}

def init (underlying : Underlying T S E) : State T S E :=
  ⟨underlying, none, false, none, [], none, [], none, .start, .idle, none, none⟩

namespace State

def cacheFillState (s : State T S E) : Backend → Nat
  | .asyncIteratorBackend => s.m_cache.length
  | .asyncQueryResultIteratorBackend isGraph isBinding =>
    if isGraph then s.m_statementCache.length
    else if isBinding then s.m_cache.length
    else 0

def enqueueCurrent (s : State T S E) (current : T) (currentStatement : S) : Backend → State T S E
  | .asyncIteratorBackend => { s with m_cache := s.m_cache ++ [current] }
  | .asyncQueryResultIteratorBackend isGraph isBinding =>
    if isGraph then { s with m_statementCache := s.m_statementCache ++ [currentStatement] }
    else if isBinding then { s with m_cache := s.m_cache ++ [current] }
    else s

def dequeueFirst (s : State T S E) : Backend → State T S E
  | .asyncIteratorBackend => { s with m_current := s.m_cache.head?, m_cache := s.m_cache.tail }
  | .asyncQueryResultIteratorBackend isGraph isBinding =>
    if isGraph then { s with
      m_currentStatement := s.m_statementCache.head?
      m_statementCache := s.m_statementCache.tail }
    else if isBinding then { s with m_current := s.m_cache.head?, m_cache := s.m_cache.tail }
    else s

/-- One step of `iterate`. -/
def iterate (backend : Backend) (s : State T S E) : State T S E :=
  match s.worker with
  | .start => { s with m_atEnd := false, worker := .loop }
  | .loop => { s with worker := if s.m_atEnd then .close else .check }
  | .check =>
    { s with worker := if s_cacheSize ≤ s.cacheFillState backend then .waiting else .fetch }
  | .waiting => s
  | .woken => { s with worker := .fetch }
  | .fetch =>
    match s.m_iterator.rows with
    | [] => { s with iteratorError := s.m_iterator.final, worker := .announce false }
    | row :: rest => { s with
        m_iterator := { s.m_iterator with rows := rest }
        iteratorError := row.lastError
        worker := .enqueue row.current row.currentStatement }
  | .enqueue current currentStatement =>
    let s := s.enqueueCurrent current currentStatement backend
    match s.iteratorError with
    | some error => { s with m_error := some error, worker := .announce false }
    | none =>
      { s with worker := if s_cacheSize ≤ s.cacheFillState backend then .announce true else .fetch }
  | .announce haveNext =>
    { s with
      m_atEnd := !haveNext
      worker := .loop
      consumer := if s.consumer = .waiting then .woken else s.consumer }
  | .close => { s with worker := .done }
  | .done => s

/-- The end of `getNext`, with the mutex. -/
def answer (backend : Backend) (s : State T S E) : State T S E :=
  match s.m_error with
  | some _ => { s with consumer := .lastError false }
  | none =>
    if s.cacheFillState backend ≠ 0 then { s.dequeueFirst backend with consumer := .lastError true }
    else { s with consumer := .lastError false }

def wakeWorker : Worker T S → Worker T S
  | .waiting => .woken
  | worker => worker

def getNext (backend : Backend) (s : State T S E) : State T S E :=
  if s.cacheFillState backend = 0 ∧ s.m_atEnd = false then
    { s with worker := wakeWorker s.worker, consumer := .waiting }
  else s.answer backend

def stopIterating (s : State T S E) : State T S E :=
  { s with m_atEnd := true, worker := wakeWorker s.worker }

/-- One step of `Iterator::next` on the backend. -/
def next (backend : Backend) (s : State T S E) : State T S E :=
  match s.consumer with
  | .idle => s.getNext backend
  | .waiting => s
  | .woken => s.answer backend
  | .lastError true => { s with lastError := s.m_error, hasNext := some true, consumer := .idle }
  | .lastError false => { s with lastError := s.m_error, consumer := .close }
  | .close => { s.stopIterating with hasNext := some false, consumer := .idle }

end State

/-- The worker or the consumer makes a step. -/
inductive Action
  | iterate
  | next

def step (backend : Backend) (s : State T S E) : Action → Option (State T S E)
  | .iterate => some (s.iterate backend)
  | .next => some (s.next backend)

/-- The consumer does not wait for a batch that is complete but not announced, unless there is no
error behind it. -/
def Action.Meets (backend : Backend) (s : State T S E) : Action → Prop
  | .next => s.consumer = .idle → s.worker = .announce true → s.cacheFillState backend = 0 →
      ∀ row ∈ s.m_iterator.rows, row.lastError = none
  | .iterate => True

instance (backend : Backend) (s : State T S E) : (a : Action) → Decidable (a.Meets backend s)
  | .next =>
    have (row : Row T S E) : Decidable (row.lastError = none) :=
      decidable_of_iff (row.lastError.isNone = true) Option.isNone_iff_eq_none
    have : Decidable (s.worker = .announce true) :=
      match s.worker with
      | .announce true => .isTrue rfl
      | .announce false => .isFalse nofun
      | .start | .loop | .check | .waiting | .woken | .fetch | .enqueue _ _ | .close | .done =>
        .isFalse nofun
    inferInstanceAs (Decidable (_ → _ → _ → _))
  | .iterate => .isTrue trivial

namespace Underlying

/-- The error that appears after an element. -/
def found (u : Underlying T S E) : Option E := u.rows.findSome? Row.lastError

/-- The error that the iterator ends with. -/
def error (u : Underlying T S E) : Option E := u.found.or u.final

/-- There is no error but one that appears after an element. -/
def Reported (u : Underlying T S E) : Prop :=
  u.final = none ∨ ∃ row ∈ u.rows, row.lastError ≠ none

theorem found_eq_none {u : Underlying T S E} : u.found = none ↔ ∀ row ∈ u.rows, row.lastError = none :=
  List.findSome?_eq_none_iff

theorem found_eq_error {u : Underlying T S E} : u.found = u.error ↔ u.Reported := by
  rw [error, Reported]
  cases hFound : u.found with
  | none =>
    have hNot : ¬ ∃ row ∈ u.rows, row.lastError ≠ none := fun ⟨row, hRow, hError⟩ =>
      hError (found_eq_none.mp hFound row hRow)
    rw [Option.none_or, or_iff_left hNot]
    exact eq_comm
  | some error =>
    have hSome : ∃ row ∈ u.rows, row.lastError ≠ none := by
      by_contra hNone
      push Not at hNone
      rw [found_eq_none.mpr hNone] at hFound
      cases hFound
    exact ⟨fun _ => .inr hSome, fun _ => rfl⟩

end Underlying

namespace State

/-- The error that the worker will still find after an element. -/
def pending (s : State T S E) : Option E :=
  match s.worker with
  | .enqueue _ _ => s.iteratorError.or s.m_iterator.found
  | _ => s.m_iterator.found

variable {backend : Backend} {s : State T S E}

theorem pending_eq (h : ∀ c cs, s.worker ≠ .enqueue c cs) : s.pending = s.m_iterator.found := by
  rw [pending]
  split
  · rename_i c cs hAt
    exact absurd hAt (h c cs)
  · rfl

variable (backend s) in
/-- `enqueueCurrent` changes the cache only. -/
theorem enqueueCurrent_frame (current : T) (currentStatement : S) :
    let t := s.enqueueCurrent current currentStatement backend
    t.m_iterator = s.m_iterator ∧ t.iteratorError = s.iteratorError ∧ t.m_error = s.m_error ∧
      t.m_atEnd = s.m_atEnd ∧ t.consumer = s.consumer ∧ t.lastError = s.lastError ∧
      t.hasNext = s.hasNext ∧ s.cacheFillState backend ≤ t.cacheFillState backend := by
  cases backend with
  | asyncIteratorBackend => simp [enqueueCurrent, cacheFillState]
  | asyncQueryResultIteratorBackend isGraph isBinding =>
    cases isGraph <;> cases isBinding <;> simp [enqueueCurrent, cacheFillState]

variable (backend s) in
theorem dequeueFirst_frame :
    let t := s.dequeueFirst backend
    t.m_iterator = s.m_iterator ∧ t.iteratorError = s.iteratorError ∧ t.m_error = s.m_error ∧
      t.m_atEnd = s.m_atEnd ∧ t.worker = s.worker ∧ t.lastError = s.lastError ∧
      t.hasNext = s.hasNext := by
  cases backend with
  | asyncIteratorBackend => exact ⟨rfl, rfl, rfl, rfl, rfl, rfl, rfl⟩
  | asyncQueryResultIteratorBackend isGraph isBinding =>
    cases isGraph <;> cases isBinding <;> exact ⟨rfl, rfl, rfl, rfl, rfl, rfl, rfl⟩

end State

open State

/-- The worker is behind its last batch. -/
def State.Last (s : State T S E) : Prop :=
  match s.worker with
  | .announce haveNext => haveNext = false
  | .loop => s.m_atEnd = true
  | .close | .done => True
  | _ => False

/-- The worker has found the error that appears after an element, or there is none. -/
def Settled (u : Underlying T S E) (s : State T S E) : Prop := s.m_error = u.found

/-- What holds at every point: `m_error` and what is still to be found make up the error after an
element, and `getNext` returns false only where it is settled. -/
structure Invariant (backend : Backend) (u : Underlying T S E) (s : State T S E) : Prop where
  account : s.m_error.or s.pending = u.found
  error : s.m_error ≠ none → s.Last
  last : s.worker = .announce false → Settled u s
  atEnd : s.m_atEnd = true → Settled u s
  waits : s.consumer = .waiting → s.worker = .announce true →
    s.cacheFillState backend ≠ 0 ∨ Settled u s
  woken : s.consumer = .woken → s.cacheFillState backend ≠ 0 ∨ Settled u s
  ends : s.consumer = .lastError false ∨ s.consumer = .close → Settled u s
  closes : s.consumer = .close → s.lastError = u.found
  returned : s.hasNext = some false → Settled u s ∧ s.lastError = u.found

variable {backend : Backend} {u : Underlying T S E} {s : State T S E}

variable (backend u) in
theorem invariant_init : Invariant backend u (init u) :=
  ⟨rfl, nofun, nofun, nofun, nofun, nofun, nofun, nofun, nofun⟩

theorem wakeWorker_of_ne {worker : Worker T S} (h : worker ≠ .waiting) : wakeWorker worker = worker := by
  cases worker <;> first | rfl | exact absurd rfl h

theorem answer_empty (hError : s.m_error = none) (hEmpty : s.cacheFillState backend = 0) :
    s.answer backend = { s with consumer := .lastError false } := by
  simp only [State.answer, hError, if_neg (not_not.mpr hEmpty)]

namespace Invariant

theorem settled_of_pending (h : Invariant backend u s) (hNone : s.pending = none) : Settled u s := by
  have := h.account
  rwa [hNone, Option.or_none] at this

theorem error_eq_none (h : Invariant backend u s) (hNot : ¬ s.Last) : s.m_error = none := by
  by_contra hError
  exact hNot (h.error hError)

/-- A step that only moves the worker between places where nothing has been taken from the iterator. -/
theorem move (h : Invariant backend u s) {worker : Worker T S} (hPending : s.pending = s.m_iterator.found)
    (hEnqueue : ∀ c cs, worker ≠ .enqueue c cs) (hAnnounce : ∀ b, worker ≠ .announce b)
    (hError : s.m_error ≠ none → State.Last { s with worker := worker }) :
    Invariant backend u { s with worker := worker } := by
  refine ⟨?_, hError, fun hAt => absurd hAt (hAnnounce _), h.atEnd,
    fun _ hAt => absurd hAt (hAnnounce _), h.woken, h.ends, h.closes, h.returned⟩
  rw [pending_eq hEnqueue]
  exact hPending ▸ h.account

theorem iterate_fetch (h : Invariant backend u s) (hWorker : s.worker = .fetch) :
    Invariant backend u (s.iterate backend) := by
  have hNone := h.error_eq_none (by simp [State.Last, hWorker])
  have hAccount := h.account
  rw [pending_eq (by simp [hWorker])] at hAccount
  cases hRows : s.m_iterator.rows with
  | nil =>
    have hStep : s.iterate backend =
        { s with iteratorError := s.m_iterator.final, worker := .announce false } := by
      simp only [State.iterate, hWorker, hRows]
    have hSettled : Settled u s := by
      rwa [Underlying.found, hRows, List.findSome?_nil, Option.or_none] at hAccount
    rw [hStep]
    exact ⟨hAccount, fun _ => rfl, fun _ => hSettled, h.atEnd, nofun, h.woken, h.ends, h.closes,
      h.returned⟩
  | cons row rest =>
    have hStep : s.iterate backend = { s with
        m_iterator := { s.m_iterator with rows := rest }
        iteratorError := row.lastError
        worker := .enqueue row.current row.currentStatement } := by
      simp only [State.iterate, hWorker, hRows]
    rw [hStep]
    refine ⟨?_, fun hSome => absurd hNone hSome, nofun, h.atEnd, nofun, h.woken, h.ends, h.closes,
      h.returned⟩
    rw [Underlying.found, hRows] at hAccount
    rw [← hAccount]
    cases hError : row.lastError <;>
      simp only [pending, Underlying.found, List.findSome?_cons, hError, Option.none_or, Option.some_or]

theorem iterate_enqueue (h : Invariant backend u s) {current : T} {currentStatement : S}
    (hWorker : s.worker = .enqueue current currentStatement) :
    Invariant backend u (s.iterate backend) := by
  have hNone := h.error_eq_none (by simp [State.Last, hWorker])
  obtain ⟨hAccount, -, -, hAtEnd, -, hWoken, hEnds, hCloses, hReturned⟩ := h
  rw [pending, hWorker, hNone, Option.none_or] at hAccount
  obtain ⟨hIterator, hIteratorError, hError, hAtEndFrame, hConsumer, hLastError, hHasNext, hFill⟩ :=
    enqueueCurrent_frame backend s current currentStatement
  have hIterate : s.iterate backend =
      let t := s.enqueueCurrent current currentStatement backend
      match s.iteratorError with
      | some error => { t with m_error := some error, worker := .announce false }
      | none => { t with
          worker := if s_cacheSize ≤ t.cacheFillState backend then .announce true else .fetch } := by
    simp only [State.iterate, hWorker, hIteratorError]
  rw [hIterate]
  generalize s.enqueueCurrent current currentStatement backend = t at *
  have hSettled : Settled u s → Settled u t := fun hBefore => hError.trans hBefore
  have hFilled : s.cacheFillState backend ≠ 0 → t.cacheFillState backend ≠ 0 := by omega
  have hWoken' : t.consumer = .woken → s.cacheFillState backend ≠ 0 ∨ Settled u s :=
    fun hAt => hWoken (hConsumer ▸ hAt)
  have hEnds' : t.consumer = .lastError false ∨ t.consumer = .close → Settled u s :=
    fun hAt => hEnds (hConsumer ▸ hAt)
  cases hFound : s.iteratorError with
  | some error =>
    rw [hFound, Option.some_or] at hAccount
    exact ⟨hAccount, fun _ => rfl, fun _ => hAccount, fun _ => hAccount, nofun,
      fun _ => .inr hAccount, fun _ => hAccount,
      fun hAt => hLastError.trans (hCloses (hConsumer.symm.trans hAt)),
      fun hAt => ⟨hAccount, hLastError.trans (hReturned (hHasNext.symm.trans hAt)).2⟩⟩
  | none =>
    rw [hFound, Option.none_or] at hAccount
    refine ⟨?_, fun hSome => absurd (hError.trans hNone) hSome, ?_,
      fun hAt => hSettled (hAtEnd (hAtEndFrame.symm.trans hAt)), fun _ hAt => .inl ?_,
      fun hAt => (hWoken' hAt).imp hFilled hSettled, fun hAt => hSettled (hEnds' hAt),
      fun hAt => hLastError.trans (hCloses (hConsumer.symm.trans hAt)),
      fun hAt => (hReturned (hHasNext.symm.trans hAt)).imp hSettled hLastError.trans⟩
    · rw [pending_eq (by intro c cs; dsimp only; split <;> nofun)]
      show t.m_error.or t.m_iterator.found = u.found
      rw [hError, hNone, hIterator]
      exact hAccount
    · intro hAt
      dsimp only at hAt
      split at hAt <;> cases hAt
    · dsimp only at hAt
      split at hAt
      · rename_i hFull
        exact Nat.ne_of_gt (Nat.lt_of_lt_of_le (by decide) hFull)
      · cases hAt

theorem iterate_announce (h : Invariant backend u s) {haveNext : Bool}
    (hWorker : s.worker = .announce haveNext) : Invariant backend u (s.iterate backend) := by
  have hAccount := h.account
  rw [pending_eq (by simp [hWorker])] at hAccount
  have hSettled : (!haveNext) = true → Settled u s := by
    intro hLast
    rw [Bool.not_eq_true', Bool.eq_false_iff] at hLast
    cases haveNext with
    | true => exact absurd rfl hLast
    | false => exact h.last hWorker
  have hStep : s.iterate backend = { s with
      m_atEnd := !haveNext
      worker := .loop
      consumer := if s.consumer = .waiting then .woken else s.consumer } := by
    simp only [State.iterate, hWorker]
  have hConsumer : ∀ c, c ≠ .woken →
      (if s.consumer = .waiting then Consumer.woken else s.consumer) = c → s.consumer = c := by
    intro c hNot hAt
    split at hAt
    · exact absurd hAt.symm hNot
    · exact hAt
  rw [hStep]
  refine ⟨hAccount, fun hSome => ?_, nofun, hSettled, nofun, fun hAt => ?_,
    fun hAt => h.ends (hAt.imp (hConsumer _ nofun) (hConsumer _ nofun)),
    fun hAt => h.closes (hConsumer _ nofun hAt), h.returned⟩
  · cases haveNext with
    | false => rfl
    | true =>
      exact absurd (h.error_eq_none (by simp [State.Last, hWorker])) hSome
  · by_cases hWaiting : s.consumer = .waiting
    · cases haveNext with
      | true => exact h.waits hWaiting hWorker
      | false => exact .inr (h.last hWorker)
    · dsimp only at hAt
      rw [if_neg hWaiting] at hAt
      exact h.woken hAt

theorem iterate (h : Invariant backend u s) : Invariant backend u (s.iterate backend) := by
  cases hWorker : s.worker with
  | start =>
    have hNone := h.error_eq_none (by simp [State.Last, hWorker])
    have hMoved : Invariant backend u { s with worker := .loop } :=
      h.move (pending_eq (by simp [hWorker])) nofun nofun fun hSome => absurd hNone hSome
    simp only [State.iterate, hWorker]
    exact ⟨hMoved.account, fun hSome => absurd hNone hSome, nofun, nofun, nofun, hMoved.woken, hMoved.ends,
      hMoved.closes, hMoved.returned⟩
  | loop =>
    have hStep : s.iterate backend = { s with worker := if s.m_atEnd then .close else .check } := by
      simp only [State.iterate, hWorker]
    have hLast : s.m_error ≠ none → s.m_atEnd = true := by
      intro hSome
      simpa only [State.Last, hWorker] using h.error hSome
    rw [hStep]
    by_cases hAtEnd : s.m_atEnd = true
    · rw [if_pos hAtEnd]
      exact h.move (pending_eq (by simp [hWorker])) nofun nofun fun _ => trivial
    · rw [if_neg hAtEnd]
      exact h.move (pending_eq (by simp [hWorker])) nofun nofun fun hSome => absurd (hLast hSome) hAtEnd
  | check =>
    have hNone := h.error_eq_none (by simp [State.Last, hWorker])
    simp only [State.iterate, hWorker]
    split <;>
      exact h.move (pending_eq (by simp [hWorker])) nofun nofun fun hSome => absurd hNone hSome
  | waiting => simpa only [State.iterate, hWorker] using h
  | woken =>
    have hNone := h.error_eq_none (by simp [State.Last, hWorker])
    simp only [State.iterate, hWorker]
    exact h.move (pending_eq (by simp [hWorker])) nofun nofun fun hSome => absurd hNone hSome
  | fetch => exact h.iterate_fetch hWorker
  | enqueue current currentStatement => exact h.iterate_enqueue hWorker
  | announce haveNext => exact h.iterate_announce hWorker
  | close =>
    simp only [State.iterate, hWorker]
    exact h.move (pending_eq (by simp [hWorker])) nofun nofun fun _ => trivial
  | done => simpa only [State.iterate, hWorker] using h

/-- `getNext` ends where it has an element or the error is settled. -/
theorem answer (h : Invariant backend u s) (hReady : s.cacheFillState backend ≠ 0 ∨ Settled u s) :
    Invariant backend u (s.answer backend) := by
  cases hError : s.m_error with
  | some error =>
    have hSettled : Settled u s := by
      have := h.account
      rw [hError, Option.some_or] at this
      exact hError.trans this
    have hStep : s.answer backend = { s with consumer := .lastError false } := by
      simp only [State.answer, hError]
    rw [hStep]
    exact ⟨h.account, h.error, h.last, h.atEnd, nofun, nofun, fun _ => hSettled, nofun, h.returned⟩
  | none =>
    by_cases hFill : s.cacheFillState backend = 0
    · rw [answer_empty hError hFill]
      exact ⟨h.account, h.error, h.last, h.atEnd, nofun, nofun,
        fun _ => hReady.resolve_left (not_not.mpr hFill), nofun, h.returned⟩
    · have hStep : s.answer backend =
          { s.dequeueFirst backend with consumer := .lastError true } := by
        simp only [State.answer, hError, if_pos hFill]
      obtain ⟨hIterator, hIteratorError, hErrorFrame, hAtEnd, hWorker, hLastError, hHasNext⟩ :=
        dequeueFirst_frame backend s
      obtain ⟨hAccount, hLast, hAnnounced, hEnd, -, -, -, -, hReturned⟩ := h
      rw [pending] at hAccount
      rw [State.Last] at hLast
      rw [hStep]
      generalize s.dequeueFirst backend = t at *
      rw [← hErrorFrame, ← hWorker, ← hIteratorError, ← hIterator] at hAccount
      rw [← hErrorFrame, ← hWorker, ← hAtEnd] at hLast
      exact ⟨hAccount, hLast, fun hAt => hErrorFrame.trans (hAnnounced (hWorker.symm.trans hAt)),
        fun hAt => hErrorFrame.trans (hEnd (hAtEnd.symm.trans hAt)), nofun, nofun, nofun, nofun,
        fun hAt => (hReturned (hHasNext.symm.trans hAt)).imp hErrorFrame.trans hLastError.trans⟩

/-- Waking the worker neither takes an element nor changes where it is otherwise. -/
theorem wake (h : Invariant backend u s) : Invariant backend u { s with worker := wakeWorker s.worker } := by
  by_cases hWorker : s.worker = .waiting
  · have hNone := h.error_eq_none (by simp [State.Last, hWorker])
    rw [hWorker]
    exact h.move (pending_eq (by simp [hWorker])) nofun nofun fun hSome => absurd hNone hSome
  · rw [wakeWorker_of_ne hWorker]
    exact h

theorem wakeWorker_eq {worker : Worker T S} {b : Bool} (h : wakeWorker worker = .announce b) :
    worker = .announce b := by
  cases worker <;> first | exact h | cases h

theorem getNext (h : Invariant backend u s) (hIdle : s.consumer = .idle)
    (hMeets : Action.Meets backend s .next) : Invariant backend u (s.getNext backend) := by
  by_cases hWait : s.cacheFillState backend = 0 ∧ s.m_atEnd = false
  · have hWaits : wakeWorker s.worker = .announce true → Settled u s := by
      intro hAt
      have hWorker := wakeWorker_eq hAt
      have hNone := Underlying.found_eq_none.mpr (hMeets hIdle hWorker hWait.1)
      exact h.settled_of_pending ((pending_eq (by simp [hWorker])).trans hNone)
    obtain ⟨hAccount, hError, hLast, hAtEnd, -, -, -, -, hReturned⟩ := h.wake
    rw [State.getNext, if_pos hWait]
    exact ⟨hAccount, hError, hLast, hAtEnd, fun _ hAt => .inr (hWaits hAt), nofun, nofun, nofun,
      hReturned⟩
  · rw [State.getNext, if_neg hWait]
    apply h.answer
    by_cases hFill : s.cacheFillState backend = 0
    · rw [not_and, Bool.not_eq_false] at hWait
      exact .inr (h.atEnd (hWait hFill))
    · exact .inl hFill

theorem stopIterating (h : Invariant backend u s) (hConsumer : s.consumer = .close) :
    Invariant backend u { s.stopIterating with hasNext := some false, consumer := .idle } := by
  have hSettled := h.ends (.inr hConsumer)
  have hLastError := h.closes hConsumer
  obtain ⟨hAccount, hError, -⟩ := h.wake
  refine ⟨hAccount, fun hSome => ?_, fun _ => hSettled, fun _ => hSettled, nofun, nofun, nofun, nofun,
    fun _ => ⟨hSettled, hLastError⟩⟩
  have hLast := hError hSome
  rw [State.Last] at hLast ⊢
  dsimp only [State.stopIterating] at hLast ⊢
  cases hWorker : wakeWorker s.worker <;> simp_all

theorem next (h : Invariant backend u s) (hMeets : Action.Meets backend s .next) :
    Invariant backend u (s.next backend) := by
  cases hConsumer : s.consumer with
  | idle =>
    simp only [State.next, hConsumer]
    exact h.getNext hConsumer hMeets
  | waiting => simpa only [State.next, hConsumer] using h
  | woken =>
    simp only [State.next, hConsumer]
    exact h.answer (h.woken hConsumer)
  | lastError hasNext =>
    obtain ⟨hAccount, hError, hLast, hAtEnd, -, -, hEnds, -, hReturned⟩ := h
    cases hasNext with
    | true =>
      simp only [State.next, hConsumer]
      exact ⟨hAccount, hError, hLast, hAtEnd, nofun, nofun, nofun, nofun, nofun⟩
    | false =>
      have hSettled := hEnds (.inl hConsumer)
      simp only [State.next, hConsumer]
      exact ⟨hAccount, hError, hLast, hAtEnd, nofun, nofun, fun _ => hSettled, fun _ => hSettled,
        fun _ => ⟨hSettled, hSettled⟩⟩
  | close =>
    simp only [State.next, hConsumer]
    exact h.stopIterating hConsumer

theorem step (h : Invariant backend u s) {a : Action} (hMeets : a.Meets backend s) :
    ∃ t, AsyncIteratorError.step backend s a = some t ∧ Invariant backend u t := by
  cases a with
  | iterate => exact ⟨_, rfl, h.iterate⟩
  | next => exact ⟨_, rfl, h.next hMeets⟩

/-- A consumer that waits for a complete batch can be woken without an element and without the error. -/
theorem lost (h : Invariant backend u s) (hMeets : ¬ Action.Meets backend s .next) :
    ∃ t, Runs.run (AsyncIteratorError.step backend) s [.next, .iterate, .next, .next, .next] = some t ∧
      t.hasNext = some false ∧ t.lastError ≠ u.error := by
  simp only [Action.Meets, not_forall] at hMeets
  obtain ⟨hIdle, hWorker, hEmpty, row, hRow, hRowError⟩ := hMeets
  have hNone := h.error_eq_none (by simp [State.Last, hWorker])
  have hAccount := h.account
  rw [pending_eq (by simp [hWorker]), hNone, Option.none_or] at hAccount
  have hFound : u.found ≠ none := fun hNot =>
    hRowError (Underlying.found_eq_none.mp (hAccount.trans hNot) row hRow)
  have hOpen : s.m_atEnd = false := by
    rw [← Bool.not_eq_true]
    exact fun hAt => hFound ((h.atEnd hAt).symm.trans hNone)
  let woken : State T S E := { s with m_atEnd := false, worker := .loop, consumer := .woken }
  have hWaits : AsyncIteratorError.step backend s .next = some { s with consumer := .waiting } := by
    simp only [AsyncIteratorError.step, State.next, hIdle, State.getNext, if_pos (And.intro hEmpty hOpen),
      wakeWorker_of_ne (show s.worker ≠ .waiting by simp [hWorker])]
  have hWakes : AsyncIteratorError.step backend { s with consumer := .waiting } .iterate = some woken := by
    simp only [AsyncIteratorError.step, State.iterate, hWorker, woken]
    rfl
  have hAnswer : AsyncIteratorError.step backend woken .next =
      some { woken with consumer := .lastError false } := by
    rw [AsyncIteratorError.step, State.next]
    exact congrArg some (answer_empty hNone hEmpty)
  refine ⟨{ woken with
    m_atEnd := true, lastError := s.m_error, hasNext := some false, consumer := .idle }, ?_, rfl, ?_⟩
  · rw [Runs.run_cons_of_step hWaits, Runs.run_cons_of_step hWakes, Runs.run_cons_of_step hAnswer]
    rfl
  · show s.m_error ≠ u.error
    rw [hNone, Underlying.error]
    cases hAt : u.found with
    | none => exact absurd hAt hFound
    | some error => nofun

end Invariant

/-- As long as the consumer does not wait for a complete batch with an error behind it, `next` has
returned false with the error of the underlying iterator if and only if that error appears after an
element, or there is none. -/
theorem error_reaches (backend : Backend) (u : Underlying T S E) {actions : List Action}
    (hMeets : Runs.AllMeet (step backend) (fun s a => a.Meets backend s) (init u) actions) :
    ∃ s, Runs.run (step backend) (init u) actions = some s ∧
      (s.hasNext = some false →
        (s.lastError = u.error ↔ u.Reported) ∧ (u.error = none → s.lastError = none)) ∧
      (¬ Action.Meets backend s .next →
        ∃ t, Runs.run (step backend) s [.next, .iterate, .next, .next, .next] = some t ∧
          t.hasNext = some false ∧ t.lastError ≠ u.error) := by
  obtain ⟨s, hRun, h⟩ := Runs.exists_run (fun h hMeets => Invariant.step h hMeets)
    (invariant_init backend u) hMeets
  refine ⟨s, hRun, fun hEnded => ?_, h.lost⟩
  have hLastError := (h.returned hEnded).2
  refine ⟨hLastError ▸ Underlying.found_eq_error, fun hNone => hLastError.trans ?_⟩
  exact (Option.or_eq_none_iff.mp hNone).1

/-- The error behind the second element reaches the consumer. -/
theorem error_reaches_element :
    let u : Underlying Nat Unit ErrorCode := ⟨[⟨1, (), none⟩, ⟨2, (), some .errorTimeout⟩], none⟩
    ∃ s, Runs.run (step .asyncIteratorBackend) (init u)
        (List.replicate 8 .iterate ++ List.replicate 3 .next) = some s ∧
      s.hasNext = some false ∧ s.lastError = some .errorTimeout := by
  intro u
  have hMeets : Runs.AllMeet (step .asyncIteratorBackend)
      (fun s a => a.Meets .asyncIteratorBackend s) (init u)
      (List.replicate 8 .iterate ++ List.replicate 3 .next) := by decide
  obtain ⟨s, hRun, hReaches, -⟩ := error_reaches .asyncIteratorBackend u hMeets
  have hEnds : (Runs.run (step .asyncIteratorBackend) (init u)
      (List.replicate 8 .iterate ++ List.replicate 3 .next)).bind State.hasNext = some false := rfl
  have hEnded : s.hasNext = some false := by
    rwa [hRun] at hEnds
  exact ⟨s, hRun, hEnded, (hReaches hEnded).1.mpr (.inl rfl)⟩

/-- The timeout that ends the underlying iterator does not reach the consumer. -/
theorem error_swallowed :
    let u : Underlying Nat Unit ErrorCode := ⟨[⟨1, (), none⟩], some .errorTimeout⟩
    ∃ s, Runs.run (step .asyncIteratorBackend) (init u)
        (List.replicate 7 .iterate ++ List.replicate 5 .next) = some s ∧
      s.hasNext = some false ∧ s.lastError = none ∧ s.lastError ≠ u.error :=
  ⟨_, rfl, rfl, rfl, nofun⟩

end Soprano.Util.AsyncIteratorError
