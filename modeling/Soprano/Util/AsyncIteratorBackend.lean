import Mathlib.Data.List.Basic
import Soprano.Library.Runs

/-! An asynchronous iterator in `MultiThreaded` mode: `iterate`, which a worker thread runs, puts the
elements of the underlying iterator into a cache, and `getNext`, which one consumer calls, takes them
out. The critical sections of the mutex are single steps; a thread that is woken has to get the mutex
back first. The underlying iterator has no errors, and nobody closes the iterator. -/

namespace Soprano.Util.AsyncIteratorBackend

def s_cacheSize : Nat := 10

/-- The class of the backend; for `AsyncQueryResultIteratorBackend`, with what `initWorkThread` has
found. A boolean result has no elements. -/
inductive Kind
  | asyncIteratorBackend
  | isBinding
  | isGraph

/-- Where the worker is in `iterate`. -/
inductive Worker (T S : Type)
  | start
  /-- at the condition of the loop -/
  | loop
  /-- in `m_iterateWc.wait` -/
  | waiting
  | woken
  /-- before `m_iterator.next()` -/
  | fetch
  /-- before the lock under which the element is put into the cache -/
  | enqueue (current : T) (currentStatement : S)
  /-- before the lock under which the consumer is woken -/
  | announce (haveNext : Bool)
  | done

/-- Where the consumer is in `getNext`. -/
inductive Consumer
  | idle
  /-- in `m_nextWc.wait` -/
  | waiting
  | woken
  deriving DecidableEq

/-- `remaining` is what `m_iterator` has not yet returned, `received` what the consumer read after each
`getNext` that returned true, and `ended` whether one has returned false. -/
structure State (T S : Type) where
  remaining : List (T × S)
  m_atEnd : Bool
  m_cache : List T
  m_current : Option T
  m_statementCache : List S
  m_currentStatement : Option S
  worker : Worker T S
  consumer : Consumer
  received : List (T ⊕ S)
  ended : Bool

variable {T S : Type}

def init (underlying : List (T × S)) : State T S :=
  ⟨underlying, false, [], none, [], none, .start, .idle, [], false⟩

namespace State

def cacheFillState (s : State T S) : Kind → Nat
  | .asyncIteratorBackend | .isBinding => s.m_cache.length
  | .isGraph => s.m_statementCache.length

def enqueueCurrent (s : State T S) (current : T) (currentStatement : S) : Kind → State T S
  | .asyncIteratorBackend | .isBinding => { s with m_cache := s.m_cache ++ [current] }
  | .isGraph => { s with m_statementCache := s.m_statementCache ++ [currentStatement] }

def dequeueFirst (s : State T S) : Kind → State T S
  | .asyncIteratorBackend | .isBinding =>
    { s with m_current := s.m_cache.head?, m_cache := s.m_cache.tail }
  | .isGraph =>
    { s with m_currentStatement := s.m_statementCache.head?, m_statementCache := s.m_statementCache.tail }

/-- What the consumer reads: `current` or `currentStatement` -/
def getCurrent (s : State T S) : Kind → Option (T ⊕ S)
  | .asyncIteratorBackend | .isBinding => s.m_current.map .inl
  | .isGraph => s.m_currentStatement.map .inr

/-- One step of `iterate`. -/
def iterate (kind : Kind) (s : State T S) : State T S :=
  match s.worker with
  | .start => { s with m_atEnd := false, worker := .loop }
  | .loop =>
    if s.m_atEnd then { s with worker := .done }
    else if s_cacheSize ≤ s.cacheFillState kind then { s with worker := .waiting }
    else { s with worker := .fetch }
  | .waiting => s
  | .woken => { s with worker := .fetch }
  | .fetch =>
    match s.remaining with
    | [] => { s with worker := .announce false }
    | (current, currentStatement) :: rest =>
      { s with remaining := rest, worker := .enqueue current currentStatement }
  | .enqueue current currentStatement =>
    let s := s.enqueueCurrent current currentStatement kind
    if s_cacheSize ≤ s.cacheFillState kind then { s with worker := .announce true }
    else { s with worker := .fetch }
  | .announce haveNext =>
    { s with
      m_atEnd := !haveNext
      worker := .loop
      consumer := if s.consumer = .waiting then .woken else s.consumer }
  | .done => s

/-- The end of `getNext`, with the mutex. -/
def answer (kind : Kind) (s : State T S) : State T S :=
  if s.cacheFillState kind ≠ 0 then
    let s := s.dequeueFirst kind
    { s with consumer := .idle, received := s.received ++ (s.getCurrent kind).toList }
  else { s with consumer := .idle, ended := true }

def wakeWorker : Worker T S → Worker T S
  | .waiting => .woken
  | worker => worker

def getNext (kind : Kind) (s : State T S) : State T S :=
  if s.cacheFillState kind = 0 ∧ s.m_atEnd = false then
    { s with worker := wakeWorker s.worker, consumer := .waiting }
  else s.answer kind

end State

/-- The worker makes a step, the consumer calls `getNext`, or the woken consumer has the mutex. -/
inductive Action
  | iterate
  | getNext
  | resume

def step (kind : Kind) (s : State T S) : Action → Option (State T S)
  | .iterate => some (s.iterate kind)
  | .getNext => some (if s.consumer = .idle then s.getNext kind else s)
  | .resume => some (if s.consumer = .woken then s.answer kind else s)

/-- The consumer does not wait for a batch that is complete but not announced, unless there is no
element behind it. -/
def Action.Meets (kind : Kind) (s : State T S) : Action → Prop
  | .getNext => s.consumer = .idle → s.worker = .announce true → s.cacheFillState kind = 0 →
      s.remaining = []
  | _ => True

/-- What the consumer is to see of an element. -/
def shown : Kind → T × S → T ⊕ S
  | .asyncIteratorBackend, row | .isBinding, row => .inl row.1
  | .isGraph, row => .inr row.2

namespace State

/-- The cache, as the consumer will see it. -/
def queue (s : State T S) : Kind → List (T ⊕ S)
  | .asyncIteratorBackend | .isBinding => s.m_cache.map .inl
  | .isGraph => s.m_statementCache.map .inr

/-- What is still to be put into the cache. -/
def pending (kind : Kind) (s : State T S) : List (T ⊕ S) :=
  match s.worker with
  | .enqueue current currentStatement =>
    shown kind (current, currentStatement) :: s.remaining.map (shown kind)
  | _ => s.remaining.map (shown kind)

variable {s τ : State T S} {kind : Kind}

theorem length_queue : (s.queue kind).length = s.cacheFillState kind := by
  cases kind <;> simp [queue, cacheFillState]

section Enqueue

variable (s kind)

theorem queue_enqueueCurrent (current : T) (currentStatement : S) :
    (s.enqueueCurrent current currentStatement kind).queue kind =
      s.queue kind ++ [shown kind (current, currentStatement)] := by
  cases kind <;> simp [queue, enqueueCurrent, shown]

theorem fill_enqueueCurrent (current : T) (currentStatement : S) :
    (s.enqueueCurrent current currentStatement kind).cacheFillState kind =
      s.cacheFillState kind + 1 := by
  rw [← length_queue, ← length_queue, queue_enqueueCurrent, List.length_append,
    List.length_singleton]

/-- `enqueueCurrent` changes the cache only. -/
theorem enqueueCurrent_frame (current : T) (currentStatement : S) :
    let τ := s.enqueueCurrent current currentStatement kind
    τ.remaining = s.remaining ∧ τ.m_atEnd = s.m_atEnd ∧ τ.consumer = s.consumer ∧
      τ.received = s.received ∧ τ.ended = s.ended := by
  cases kind <;> exact ⟨rfl, rfl, rfl, rfl, rfl⟩

end Enqueue

/-- The consumer has read the first element of the cache. -/
structure Took (kind : Kind) (s τ : State T S) : Prop where
  flow : τ.received ++ τ.queue kind = s.received ++ s.queue kind
  fill : τ.cacheFillState kind + 1 = s.cacheFillState kind
  remaining : τ.remaining = s.remaining
  atEnd : τ.m_atEnd = s.m_atEnd
  worker : τ.worker = s.worker
  consumer : τ.consumer = .idle
  ended : τ.ended = s.ended

theorem took_answer (h : s.cacheFillState kind ≠ 0) : Took kind s (s.answer kind) := by
  rw [answer, if_pos h]
  have hList : ∀ {α : Type} (f : α → T ⊕ S) (cache : List α), cache.length ≠ 0 →
      (cache.head?.map f).toList ++ cache.tail.map f = cache.map f := by
    intro α f cache hCache
    cases cache with
    | nil => exact absurd rfl hCache
    | cons a rest => rfl
  have hLength : ∀ {α : Type} (cache : List α), cache.length ≠ 0 →
      cache.tail.length + 1 = cache.length := by
    intro α cache hCache
    rw [List.length_tail]
    omega
  cases kind <;>
    refine ⟨?_, hLength _ h, rfl, rfl, rfl, rfl, rfl⟩ <;>
    simp only [dequeueFirst, getCurrent, queue, List.append_assoc] <;>
    rw [hList _ _ h]

end State

open State

theorem eq_of_wakeWorker {worker target : Worker T S} (h : wakeWorker worker = target)
    (hTarget : target ≠ .woken) : worker = target := by
  cases worker with
  | waiting => exact absurd h.symm hTarget
  | _ => exact h

theorem wakeWorker_ne (worker : Worker T S) : wakeWorker worker ≠ .waiting := by
  cases worker <;> exact nofun

/-- What holds at every point: the elements are received, cached or pending, in their order; and where
the worker and the consumer can be at the same time. -/
structure Invariant (kind : Kind) (underlying : List (T × S)) (s : State T S) : Prop where
  flow : s.received ++ s.queue kind ++ s.pending kind = underlying.map (shown kind)
  bound : s.cacheFillState kind ≤ s_cacheSize
  start : s.worker = .start → s.cacheFillState kind = 0
  fetch : s.worker = .fetch → s.cacheFillState kind < s_cacheSize
  enqueue : ∀ c cs, s.worker = .enqueue c cs → s.cacheFillState kind < s_cacheSize
  last : s.worker = .announce false → s.remaining = []
  atEnd : s.m_atEnd = true → s.remaining = [] ∧ (s.worker = .loop ∨ s.worker = .done)
  done : s.worker = .done → s.m_atEnd = true
  waits : s.consumer = .waiting → s.m_atEnd = false ∧ s.worker ≠ .waiting ∧
    (s.worker = .loop → s.cacheFillState kind = 0) ∧
    (s.worker = .announce true → s.cacheFillState kind ≠ 0 ∨ s.remaining = [])
  workerWoken : s.worker = .woken → s.consumer = .waiting ∧ s.cacheFillState kind = 0
  consumerWoken : s.consumer = .woken → s.cacheFillState kind ≠ 0 ∨ s.pending kind = []
  ended : s.ended = true → s.cacheFillState kind = 0 ∧ s.pending kind = []

variable {kind : Kind} {underlying : List (T × S)} {s : State T S}

variable (kind underlying) in
theorem invariant_init : Invariant kind underlying (init underlying) := by
  have hFill : (init underlying).cacheFillState kind = 0 := by cases kind <;> rfl
  have hQueue : (init underlying).queue kind = [] := by cases kind <;> rfl
  refine ⟨?_, ?_, fun _ => hFill, nofun, nofun, nofun, nofun, nofun, nofun, nofun, nofun, nofun⟩
  · rw [hQueue]
    rfl
  · rw [hFill]
    exact Nat.zero_le _

namespace Invariant

/-- Between two batches nothing is pending but what the underlying iterator has not returned. -/
theorem pending_eq (hWorker : ∀ c cs, s.worker ≠ .enqueue c cs) :
    s.pending kind = s.remaining.map (shown kind) := by
  rw [pending]
  split
  · rename_i c cs hAt
    exact absurd hAt (hWorker c cs)
  · rfl

theorem atEnd_ne (h : Invariant kind underlying s) (hLoop : s.worker ≠ .loop)
    (hDone : s.worker ≠ .done) : s.m_atEnd ≠ true :=
  fun hAt => (h.atEnd hAt).2.elim hLoop hDone

theorem iterate_loop (h : Invariant kind underlying s) (hWorker : s.worker = .loop) :
    Invariant kind underlying (s.iterate kind) := by
  obtain ⟨hFlow, hBound, -, -, -, -, hAtEnd, -, hWaits, -, hWoken, hEnded⟩ := h
  rw [pending_eq (by simp [hWorker])] at hFlow hWoken hEnded
  rw [State.iterate, hWorker]
  by_cases hEnd : s.m_atEnd = true
  · rw [if_pos hEnd]
    exact ⟨hFlow, hBound, nofun, nofun, nofun, nofun, fun _ => ⟨(hAtEnd hEnd).1, .inr rfl⟩,
      fun _ => hEnd, fun hWaiting => ⟨(hWaits hWaiting).1, nofun, nofun, nofun⟩, nofun, hWoken,
      hEnded⟩
  rw [if_neg hEnd]
  by_cases hFull : s_cacheSize ≤ s.cacheFillState kind
  · rw [if_pos hFull]
    have hNot : s.consumer ≠ .waiting := by
      intro hWaiting
      rw [(hWaits hWaiting).2.2.1 hWorker] at hFull
      exact absurd hFull (by decide)
    exact ⟨hFlow, hBound, nofun, nofun, nofun, nofun, fun hAt => absurd hAt hEnd, nofun,
      fun hWaiting => absurd hWaiting hNot, nofun, hWoken, hEnded⟩
  · rw [if_neg hFull]
    exact ⟨hFlow, hBound, nofun, fun _ => Nat.lt_of_not_le hFull, nofun, nofun,
      fun hAt => absurd hAt hEnd, nofun,
      fun hWaiting => ⟨(hWaits hWaiting).1, nofun, nofun, nofun⟩, nofun, hWoken, hEnded⟩

theorem iterate_fetch (h : Invariant kind underlying s) (hWorker : s.worker = .fetch) :
    Invariant kind underlying (s.iterate kind) := by
  have hEnd := h.atEnd_ne (by simp [hWorker]) (by simp [hWorker])
  obtain ⟨hFlow, hBound, -, hFetch, -, -, -, -, hWaits, -, hWoken, hEnded⟩ := h
  rw [pending_eq (by simp [hWorker])] at hFlow hWoken hEnded
  rcases hRest : s.remaining with - | ⟨⟨current, currentStatement⟩, rest⟩
  · have hStep : s.iterate kind = { s with worker := .announce false } := by
      simp only [State.iterate, hWorker, hRest]
    rw [hStep]
    exact ⟨hFlow, hBound, nofun, nofun, nofun, fun _ => hRest, fun hAt => absurd hAt hEnd, nofun,
      fun hWaiting => ⟨(hWaits hWaiting).1, nofun, nofun, nofun⟩, nofun, hWoken, hEnded⟩
  · have hStep : s.iterate kind =
        { s with remaining := rest, worker := .enqueue current currentStatement } := by
      simp only [State.iterate, hWorker, hRest]
    rw [hRest] at hFlow hWoken hEnded
    rw [hStep]
    exact ⟨hFlow, hBound, nofun, nofun, fun _ _ _ => hFetch hWorker, nofun,
      fun hAt => absurd hAt hEnd, nofun,
      fun hWaiting => ⟨(hWaits hWaiting).1, nofun, nofun, nofun⟩, nofun, hWoken, hEnded⟩

theorem iterate_enqueue (h : Invariant kind underlying s) {current : T} {currentStatement : S}
    (hWorker : s.worker = .enqueue current currentStatement) :
    Invariant kind underlying (s.iterate kind) := by
  have hEnd := h.atEnd_ne (by simp [hWorker]) (by simp [hWorker])
  obtain ⟨hFlow, -, -, -, hRoom, -, -, -, hWaits, -, -, hEnded⟩ := h
  have hRoom := hRoom current currentStatement hWorker
  rw [pending, hWorker] at hFlow hEnded
  obtain ⟨hRemaining, hAtEnd, hConsumer, hReceived, hEndedFrame⟩ :=
    enqueueCurrent_frame s kind current currentStatement
  have hFill := fill_enqueueCurrent s kind current currentStatement
  have hQueue := queue_enqueueCurrent s kind current currentStatement
  have hStep : s.iterate kind = { s.enqueueCurrent current currentStatement kind with
      worker := if s_cacheSize ≤ s.cacheFillState kind + 1 then .announce true else .fetch } := by
    simp only [State.iterate, hWorker, hFill]
    split <;> rfl
  rw [hStep]
  generalize s.enqueueCurrent current currentStatement kind = t at *
  have hFlow' : t.received ++ t.queue kind ++ t.remaining.map (shown kind) =
      underlying.map (shown kind) := by
    rw [hReceived, hQueue, hRemaining, ← hFlow]
    simp
  have hOpen : t.m_atEnd ≠ true := hAtEnd ▸ hEnd
  have hFilled : t.cacheFillState kind ≠ 0 := by omega
  have hWaits' : t.consumer = .waiting → t.m_atEnd = false := by
    intro hWaiting
    rw [hAtEnd]
    exact (hWaits (hConsumer ▸ hWaiting)).1
  have hNotEnded : t.ended ≠ true := fun h => nomatch (hEnded (hEndedFrame ▸ h)).2
  by_cases hFull : s_cacheSize ≤ s.cacheFillState kind + 1
  · rw [if_pos hFull]
    exact ⟨hFlow', by show t.cacheFillState kind ≤ _; omega, nofun, nofun, nofun, nofun,
      fun hAt => absurd hAt hOpen, nofun,
      fun hWaiting => ⟨hWaits' hWaiting, nofun, nofun, fun _ => .inl hFilled⟩, nofun,
      fun _ => .inl hFilled, fun h => absurd h hNotEnded⟩
  · rw [if_neg hFull]
    exact ⟨hFlow', by show t.cacheFillState kind ≤ _; omega, nofun,
      fun _ => by show t.cacheFillState kind < _; omega, nofun, nofun,
      fun hAt => absurd hAt hOpen, nofun,
      fun hWaiting => ⟨hWaits' hWaiting, nofun, nofun, nofun⟩, nofun,
      fun _ => .inl hFilled, fun h => absurd h hNotEnded⟩

/-- The end of a batch wakes the consumer: with elements, or at the end. -/
theorem iterate_announce (h : Invariant kind underlying s) {haveNext : Bool}
    (hWorker : s.worker = .announce haveNext) : Invariant kind underlying (s.iterate kind) := by
  obtain ⟨hFlow, hBound, -, -, -, hLast, -, -, hWaits, -, hWoken, hEnded⟩ := h
  rw [pending_eq (by simp [hWorker])] at hFlow hWoken hEnded
  have hStep : s.iterate kind = { s with
      m_atEnd := !haveNext
      worker := .loop
      consumer := if s.consumer = .waiting then .woken else s.consumer } := by
    rw [State.iterate, hWorker]
  rw [hStep]
  refine ⟨hFlow, hBound, nofun, nofun, nofun, nofun, fun hAt => ⟨?_, .inl rfl⟩, nofun,
    fun hWaiting => ?_, nofun, fun hResumes => ?_, hEnded⟩
  · cases haveNext with
    | true => cases hAt
    | false => exact hLast hWorker
  · exfalso
    revert hWaiting
    by_cases hBefore : s.consumer = .waiting <;> simp [hBefore]
  · show s.cacheFillState kind ≠ 0 ∨ s.remaining.map (shown kind) = []
    by_cases hBefore : s.consumer = .waiting
    · have hNone : s.remaining = [] → s.remaining.map (shown kind) = [] := by
        intro hRest
        rw [hRest]
        rfl
      cases haveNext with
      | true => exact ((hWaits hBefore).2.2.2 hWorker).imp_right hNone
      | false => exact .inr (hNone (hLast hWorker))
    · apply hWoken
      simpa [hBefore] using hResumes

theorem iterate (h : Invariant kind underlying s) : Invariant kind underlying (s.iterate kind) := by
  cases hWorker : s.worker with
  | start =>
    have hStep : s.iterate kind = { s with m_atEnd := false, worker := .loop } := by
      rw [State.iterate, hWorker]
    obtain ⟨hFlow, hBound, hStart, -, -, -, -, -, -, -, hWoken, hEnded⟩ := h
    rw [pending_eq (by simp [hWorker])] at hFlow hWoken hEnded
    rw [hStep]
    exact ⟨hFlow, hBound, nofun, nofun, nofun, nofun, nofun, nofun,
      fun _ => ⟨rfl, nofun, fun _ => hStart hWorker, nofun⟩, nofun, hWoken, hEnded⟩
  | loop => exact h.iterate_loop hWorker
  | woken =>
    have hEnd := h.atEnd_ne (by simp [hWorker]) (by simp [hWorker])
    have hStep : s.iterate kind = { s with worker := .fetch } := by rw [State.iterate, hWorker]
    obtain ⟨hFlow, hBound, -, -, -, -, -, -, hWaits, hEmpty, hWoken, hEnded⟩ := h
    rw [pending_eq (by simp [hWorker])] at hFlow hWoken hEnded
    have hRoom : s.cacheFillState kind < s_cacheSize := by
      rw [(hEmpty hWorker).2]
      decide
    rw [hStep]
    exact ⟨hFlow, hBound, nofun, fun _ => hRoom, nofun, nofun, fun hAt => absurd hAt hEnd, nofun,
      fun hWaiting => ⟨(hWaits hWaiting).1, nofun, nofun, nofun⟩, nofun, hWoken, hEnded⟩
  | fetch => exact h.iterate_fetch hWorker
  | enqueue current currentStatement => exact h.iterate_enqueue hWorker
  | announce haveNext => exact h.iterate_announce hWorker
  | waiting | done =>
    have hStep : s.iterate kind = s := by rw [State.iterate, hWorker]
    rw [hStep]
    exact h

/-- The consumer has the mutex and the elements it can get, or all have been received. -/
theorem answer (h : Invariant kind underlying s) (hConsumer : s.consumer ≠ .waiting)
    (hAll : s.cacheFillState kind = 0 → s.pending kind = []) :
    Invariant kind underlying (s.answer kind) := by
  by_cases hFill : s.cacheFillState kind = 0
  · have hStep : s.answer kind = { s with consumer := .idle, ended := true } := by
      rw [State.answer, if_neg (not_not.mpr hFill)]
    rw [hStep]
    exact { h with
      waits := nofun
      workerWoken := fun hWorker => absurd (h.workerWoken hWorker).1 hConsumer
      consumerWoken := nofun
      ended := fun _ => ⟨hFill, hAll hFill⟩ }
  · have hTook := took_answer hFill
    generalize s.answer kind = t at hTook
    have hWorker := hTook.worker
    have hLess := hTook.fill
    have hPending : t.pending kind = s.pending kind := by
      rw [pending, pending, hWorker, hTook.remaining]
    have hBound := h.bound
    refine ⟨?_, by omega, fun hAt => ?_, fun hAt => ?_, fun c cs hAt => ?_, fun hAt => ?_,
      fun hAt => ?_, fun hAt => ?_, fun hAt => ?_, fun hAt => ?_, fun hAt => ?_, fun hAt => ?_⟩
    · rw [hTook.flow, hPending]
      exact h.flow
    · exact absurd (h.start (hWorker ▸ hAt)) hFill
    · have hRoom := h.fetch (hWorker ▸ hAt)
      omega
    · have hRoom := h.enqueue c cs (hWorker ▸ hAt)
      omega
    · rw [hTook.remaining]
      exact h.last (hWorker ▸ hAt)
    · rw [hTook.remaining, hWorker]
      exact h.atEnd (hTook.atEnd ▸ hAt)
    · rw [hTook.atEnd]
      exact h.done (hWorker ▸ hAt)
    · rw [hTook.consumer] at hAt
      cases hAt
    · exact absurd (h.workerWoken (hWorker ▸ hAt)).1 hConsumer
    · rw [hTook.consumer] at hAt
      cases hAt
    · exact absurd (h.ended (hTook.ended ▸ hAt)).1 hFill

theorem getNext (h : Invariant kind underlying s) (hIdle : s.consumer = .idle)
    (hMeets : Action.Meets kind s .getNext) : Invariant kind underlying (s.getNext kind) := by
  have hNot : s.consumer ≠ .waiting := by simp [hIdle]
  rw [State.getNext]
  by_cases hWait : s.cacheFillState kind = 0 ∧ s.m_atEnd = false
  · rw [if_pos hWait]
    obtain ⟨hEmpty, hOpen⟩ := hWait
    have hEnd : s.m_atEnd ≠ true := by simp [hOpen]
    have hPending : ({ s with worker := wakeWorker s.worker, consumer := .waiting } :
        State T S).pending kind = s.pending kind := by
      rw [pending, pending]
      cases s.worker <;> rfl
    have hRoom : s.cacheFillState kind < s_cacheSize := by
      rw [hEmpty]
      decide
    refine ⟨?_, h.bound, fun _ => hEmpty, fun _ => hRoom, fun _ _ _ => hRoom, fun hAt => ?_,
      fun hAt => absurd hAt hEnd, fun hAt => ?_, fun _ => ⟨hOpen, ?_, fun _ => hEmpty, fun hAt => ?_⟩,
      fun _ => ⟨rfl, hEmpty⟩, nofun, fun hAt => ?_⟩
    · rw [hPending]
      exact h.flow
    · exact h.last (eq_of_wakeWorker hAt nofun)
    · exact h.done (eq_of_wakeWorker hAt nofun)
    · exact wakeWorker_ne _
    · exact .inr (hMeets hIdle (eq_of_wakeWorker hAt nofun) hEmpty)
    · rw [hPending]
      exact h.ended hAt
  · rw [if_neg hWait]
    refine h.answer hNot fun hEmpty => ?_
    have hAtEnd : s.m_atEnd = true := by
      by_contra hOpen
      exact hWait ⟨hEmpty, (Bool.not_eq_true _).mp hOpen⟩
    obtain ⟨hRest, hWorker⟩ := h.atEnd hAtEnd
    rw [pending_eq ?_, hRest]
    · rfl
    · intro c cs hAt
      rcases hWorker with hLoop | hDone
      · rw [hLoop] at hAt
        cases hAt
      · rw [hDone] at hAt
        cases hAt

theorem step (h : Invariant kind underlying s) {a : Action} (hMeets : a.Meets kind s) :
    ∃ t, AsyncIteratorBackend.step kind s a = some t ∧ Invariant kind underlying t := by
  cases a with
  | iterate => exact ⟨_, rfl, h.iterate⟩
  | getNext =>
    refine ⟨_, rfl, ?_⟩
    by_cases hIdle : s.consumer = .idle
    · rw [if_pos hIdle]
      exact h.getNext hIdle hMeets
    · rw [if_neg hIdle]
      exact h
  | resume =>
    refine ⟨_, rfl, ?_⟩
    by_cases hWoken : s.consumer = .woken
    · rw [if_pos hWoken]
      refine h.answer (by simp [hWoken]) fun hEmpty => ?_
      exact (h.consumerWoken hWoken).resolve_left (not_not.mpr hEmpty)
    · rw [if_neg hWoken]
      exact h

/-- How far the worker is from the end of its batch. -/
def distance (s : State T S) : Nat :=
  match s.worker with
  | .announce _ => 0
  | .fetch => 2 * s.remaining.length + 1
  | .enqueue _ _ | .loop | .woken => 2 * s.remaining.length + 2
  | .start => 2 * s.remaining.length + 3
  | .waiting | .done => 0

/-- While the consumer waits, the worker gets on. -/
theorem distance_iterate (h : Invariant kind underlying s) (hWaiting : s.consumer = .waiting)
    (hBatch : ∀ b, s.worker ≠ .announce b) :
    (s.iterate kind).consumer = .waiting ∧ distance (s.iterate kind) < distance s := by
  obtain ⟨hOpen, hWaits, hEmpty, -⟩ := h.waits hWaiting
  rw [distance, distance, State.iterate]
  cases hWorker : s.worker with
  | start => exact ⟨hWaiting, by simp⟩
  | loop =>
    have hRoom : ¬ s_cacheSize ≤ s.cacheFillState kind := by
      rw [hEmpty hWorker]
      decide
    simp only [hOpen, Bool.false_eq_true, if_false, hRoom]
    exact ⟨hWaiting, by omega⟩
  | waiting => exact absurd hWorker hWaits
  | woken => exact ⟨hWaiting, by simp⟩
  | fetch =>
    rcases hRest : s.remaining with - | ⟨row, rest⟩
    · exact ⟨hWaiting, by simp⟩
    · refine ⟨hWaiting, ?_⟩
      simp only [List.length_cons]
      omega
  | enqueue current currentStatement =>
    obtain ⟨hRemaining, -, hConsumer, -⟩ :=
      enqueueCurrent_frame s kind current currentStatement
    simp only
    split
    · exact ⟨hConsumer.trans hWaiting, Nat.succ_pos _⟩
    · refine ⟨hConsumer.trans hWaiting, ?_⟩
      simp only [hRemaining]
      omega
  | announce b => exact absurd hWorker (hBatch b)
  | done =>
    rw [h.done hWorker] at hOpen
    cases hOpen

/-- The worker alone wakes a waiting consumer. -/
theorem wakes (h : Invariant kind underlying s) (hWaiting : s.consumer = .waiting) :
    ∃ n t, Runs.run (AsyncIteratorBackend.step kind) s (List.replicate n .iterate) = some t ∧
      t.consumer = .woken := by
  induction hDistance : distance s using Nat.strongRecOn generalizing s with
  | _ d ih =>
    by_cases hBatch : ∀ b, s.worker ≠ .announce b
    · obtain ⟨hStill, hLess⟩ := h.distance_iterate hWaiting hBatch
      obtain ⟨n, t, hRun, hWoken⟩ := ih _ (hDistance ▸ hLess) h.iterate hStill rfl
      refine ⟨n + 1, t, ?_, hWoken⟩
      rw [List.replicate_succ, Runs.run_cons_of_step rfl]
      exact hRun
    · simp only [ne_eq, not_forall, not_not] at hBatch
      obtain ⟨b, hWorker⟩ := hBatch
      refine ⟨1, s.iterate kind, rfl, ?_⟩
      rw [State.iterate, hWorker]
      exact if_pos hWaiting

/-- A `getNext` that waits for a complete batch can be woken without an element. -/
theorem lost (h : Invariant kind underlying s) (hMeets : ¬ Action.Meets kind s .getNext) :
    ∃ t, Runs.run (AsyncIteratorBackend.step kind) s [.getNext, .iterate, .resume] = some t ∧
      t.ended = true ∧ t.received ≠ underlying.map (shown kind) := by
  simp only [Action.Meets, not_forall] at hMeets
  obtain ⟨hIdle, hWorker, hEmpty, hRest⟩ := hMeets
  have hOpen : s.m_atEnd = false := by
    rw [← Bool.not_eq_true]
    exact fun hAt => hRest (h.atEnd hAt).1
  let waits : State T S := { s with consumer := .waiting }
  let woken : State T S := { s with m_atEnd := false, worker := .loop, consumer := .woken }
  have hFirst : AsyncIteratorBackend.step kind s .getNext = some waits := by
    rw [AsyncIteratorBackend.step, if_pos hIdle, State.getNext, if_pos ⟨hEmpty, hOpen⟩, hWorker]
    simp only [wakeWorker, waits, hWorker]
  have hSecond : AsyncIteratorBackend.step kind waits .iterate = some woken := by
    simp only [AsyncIteratorBackend.step, State.iterate, waits, woken, hWorker]
    rfl
  have hThird : AsyncIteratorBackend.step kind woken .resume =
      some { woken with consumer := .idle, ended := true } := by
    have hNone : woken.cacheFillState kind = 0 := hEmpty
    rw [AsyncIteratorBackend.step, if_pos rfl, State.answer, if_neg (not_not.mpr hNone)]
  refine ⟨{ woken with consumer := .idle, ended := true }, ?_, rfl, fun hAll => ?_⟩
  · rw [Runs.run_cons_of_step hFirst, Runs.run_cons_of_step hSecond, Runs.run_cons_of_step hThird]
    rfl
  · have hFlow := h.flow
    have hQueue : s.queue kind = [] := List.length_eq_zero_iff.mp (length_queue.trans hEmpty)
    rw [pending_eq (by simp [hWorker]), hQueue, List.append_nil] at hFlow
    have hReceived : s.received = underlying.map (shown kind) := hAll
    rw [hReceived] at hFlow
    exact hRest (by simpa using hFlow)

end Invariant

/-- As long as the consumer does not wait for a complete batch that is still to be announced, it
receives the elements in their order, and `getNext` returns false behind the last. -/
theorem iterator_complete (kind : Kind) (underlying : List (T × S)) {actions : List Action}
    (hMeets : Runs.AllMeet (step kind) (fun s a => a.Meets kind s) (init underlying) actions) :
    ∃ s, Runs.run (step kind) (init underlying) actions = some s ∧
      s.received ++ s.queue kind ++ s.pending kind = underlying.map (shown kind) ∧
      (s.ended = true → s.received = underlying.map (shown kind)) ∧
      s.cacheFillState kind ≤ s_cacheSize ∧
      ¬ (s.worker = .waiting ∧ s.consumer = .waiting) ∧
      (s.consumer = .waiting →
        ∃ n t, Runs.run (step kind) s (List.replicate n .iterate) = some t ∧ t.consumer = .woken) ∧
      (¬ Action.Meets kind s .getNext →
        ∃ t, Runs.run (step kind) s [.getNext, .iterate, .resume] = some t ∧ t.ended = true ∧
          t.received ≠ underlying.map (shown kind)) := by
  obtain ⟨s, hRun, h⟩ := Runs.exists_run (fun h hMeets => Invariant.step h hMeets)
    (invariant_init kind underlying) hMeets
  refine ⟨s, hRun, h.flow, fun hEnded => ?_, h.bound, fun hBoth => ?_, h.wakes, h.lost⟩
  · obtain ⟨hEmpty, hNone⟩ := h.ended hEnded
    have hQueue : s.queue kind = [] := List.length_eq_zero_iff.mp (length_queue.trans hEmpty)
    simpa [hQueue, hNone] using h.flow
  · exact (h.waits hBoth.2).2.1 hBoth.1

/-- A consumer that is there before the worker gets the statement of a graph. -/
theorem iterator_complete_graph :
    let actions : List Action := [.getNext, .iterate, .iterate, .iterate, .iterate, .iterate,
      .iterate, .resume, .getNext]
    ∃ s, Runs.run (step .isGraph) (init [((), 7)]) actions = some s ∧ s.ended = true ∧
      s.received = [.inr 7] := by
  intro actions
  have hMeets : Runs.AllMeet (step .isGraph) (fun s a => a.Meets .isGraph s) (init [((), 7)])
      actions := by
    refine .cons (fun _ hAt => nomatch hAt) rfl ?_
    iterate 7
      refine .cons trivial rfl ?_
    exact .cons (fun _ hAt => nomatch hAt) rfl trivial
  obtain ⟨s, hRun, -, hAll, -⟩ := iterator_complete .isGraph [((), 7)] hMeets
  have hEnded : s.ended = true := by
    cases hRun
    rfl
  exact ⟨s, hRun, hEnded, hAll hEnded⟩

/-- The consumer takes ten of eleven elements and waits before the worker has announced them. -/
theorem iterator_complete_lost :
    let underlying := (List.range 11).map fun n => (n, ())
    let actions := List.replicate 22 Action.iterate ++ List.replicate 11 .getNext ++
      [.iterate, .resume]
    ∃ s, Runs.run (step .asyncIteratorBackend) (init underlying) actions = some s ∧
      s.ended = true ∧ s.received = (List.range 10).map .inl ∧
      s.received ≠ underlying.map (shown .asyncIteratorBackend) := by
  refine ⟨_, rfl, rfl, rfl, ?_⟩
  decide

end Soprano.Util.AsyncIteratorBackend
