import Soprano.Util.AsyncIteratorBackend

/-! Closing an asynchronous iterator in `MultiThreaded` mode. The condition of the loop in `iterate` is
read without the mutex, so that it is a step of its own here, and the underlying iterator can have
errors. -/

namespace Soprano.Util.AsyncIteratorClose

open AsyncIteratorBackend (s_cacheSize Consumer)

/-- Where the worker is in `iterate`. -/
inductive Worker (T : Type)
  | start
  /-- at the condition of the loop -/
  | loop
  /-- before the lock under which the cache is checked -/
  | check
  /-- in `m_iterateWc.wait` -/
  | waiting
  | woken
  /-- before `m_iterator.next()` -/
  | fetch
  /-- before the lock under which the element is put into the cache; `error` is the iterator's -/
  | enqueue (current : T) (error : Bool)
  /-- before the lock under which the consumer is woken -/
  | announce (haveNext : Bool)
  /-- behind the loop -/
  | close
  | done

/-- `remaining` is what `m_iterator` has not yet returned, each element with whether `lastError` is set
behind it, `closed` whether `m_iterator` has been closed, `stopped` whether `stopIterating` has run, and
`batches` how many times the worker has begun to fill the cache since then. -/
structure State (T : Type) where
  remaining : List (T × Bool)
  m_atEnd : Bool
  m_error : Bool
  m_cache : List T
  m_current : Option T
  worker : Worker T
  consumer : Consumer
  closed : Bool
  stopped : Bool
  batches : Nat

variable {T : Type}

def init (underlying : List (T × Bool)) : State T :=
  ⟨underlying, false, false, [], none, .start, .idle, false, false, 0⟩

namespace State

/-- The worker begins to fill the cache. -/
def beginBatch (s : State T) : State T :=
  { s with worker := .fetch, batches := if s.stopped then s.batches + 1 else s.batches }

/-- One step of `iterate`. -/
def iterate (s : State T) : State T :=
  match s.worker with
  | .start => { s with m_atEnd := false, worker := .loop }
  | .loop => { s with worker := if s.m_atEnd then .close else .check }
  | .check =>
    if s_cacheSize ≤ s.m_cache.length then { s with worker := .waiting } else s.beginBatch
  | .waiting => s
  | .woken => s.beginBatch
  | .fetch =>
    match s.remaining with
    -- `next` closes an iterator that has no further element.
    | [] => { s with worker := .announce false, closed := true }
    | (current, error) :: rest => { s with remaining := rest, worker := .enqueue current error }
  | .enqueue current error =>
    let s := { s with m_cache := s.m_cache ++ [current] }
    if error then { s with m_error := true, worker := .announce false }
    else if s_cacheSize ≤ s.m_cache.length then { s with worker := .announce true }
    else { s with worker := .fetch }
  | .announce haveNext =>
    { s with
      m_atEnd := !haveNext
      worker := .loop
      consumer := if s.consumer = .waiting then .woken else s.consumer }
  | .close => { s with worker := .done, closed := true }
  | .done => s

/-- The end of `getNext`, with the mutex. -/
def answer (s : State T) : State T :=
  if s.m_error then { s with consumer := .idle }
  else { s with
    consumer := .idle
    m_current := if s.m_cache = [] then s.m_current else s.m_cache.head?
    m_cache := s.m_cache.tail }

def wakeWorker : Worker T → Worker T
  | .waiting => .woken
  | worker => worker

def getNext (s : State T) : State T :=
  if s.m_cache = [] ∧ s.m_atEnd = false then
    { s with worker := wakeWorker s.worker, consumer := .waiting }
  else s.answer

def stopIterating (s : State T) : State T :=
  { s with m_atEnd := true, worker := wakeWorker s.worker, stopped := true }

end State

/-- The worker makes a step, the consumer calls `getNext` or closes the iterator, or the woken consumer
has the mutex. -/
inductive Action
  | iterate
  | getNext
  | resume
  | close

def step (s : State T) : Action → Option (State T)
  | .iterate => some s.iterate
  | .getNext => some (if s.consumer = .idle then s.getNext else s)
  | .resume => some (if s.consumer = .woken then s.answer else s)
  | .close => some (if s.consumer = .idle then s.stopIterating else s)

/-- With so many elements in the cache, filling it finds an error or the end of the underlying iterator
before the cache is full. -/
def Ends (fill : Nat) : List (T × Bool) → Prop
  | [] => True
  | (_, error) :: rest => error = true ∨ fill + 1 < s_cacheSize ∧ Ends (fill + 1) rest

/-- The worker is behind its last batch, or in a batch that will be its last. -/
def State.Last (s : State T) : Prop :=
  match s.worker with
  | .loop | .close | .done => True
  | .check => s.m_cache.length < s_cacheSize ∧ Ends s.m_cache.length s.remaining
  | .waiting | .woken | .fetch => Ends s.m_cache.length s.remaining
  | .enqueue current error => Ends s.m_cache.length ((current, error) :: s.remaining)
  | .announce haveNext => haveNext = false
  | .start => False

/-- The iterator is closed when the worker is at the condition of the loop, behind it, or in its last
batch. -/
def Action.Meets (s : State T) : Action → Prop
  | .close => s.consumer = .idle → s.Last
  | _ => True

open State

theorem Ends.mono {fill fill' : Nat} (hLe : fill' ≤ fill) {remaining : List (T × Bool)}
    (h : Ends fill remaining) : Ends fill' remaining := by
  induction remaining generalizing fill fill' with
  | nil => trivial
  | cons row rest ih =>
    rcases h with hError | ⟨hRoom, hRest⟩
    · exact .inl hError
    · exact .inr ⟨by omega, ih (by omega) hRest⟩

variable {s t : State T}

/-- A step that only takes elements out of the cache. -/
theorem Last.of_less (h : s.Last) (hRemaining : t.remaining = s.remaining)
    (hWorker : t.worker = s.worker) (hCache : t.m_cache.length ≤ s.m_cache.length) : t.Last := by
  rw [State.Last, hWorker, hRemaining]
  rw [State.Last] at h
  cases hAt : s.worker with
  | check =>
    simp only [hAt] at h ⊢
    exact ⟨by omega, h.2.mono hCache⟩
  | waiting | woken | fetch | enqueue =>
    simp only [hAt] at h ⊢
    exact h.mono hCache
  | loop | close | done => trivial
  | start =>
    rw [hAt] at h
    exact h
  | announce haveNext =>
    rw [hAt] at h
    exact h

/-- What holds once the iterator has been stopped. -/
structure Stopped (s : State T) : Prop where
  atEnd : s.m_atEnd = true
  last : s.Last
  waits : s.worker ≠ .waiting
  batches : s.batches ≤ 1
  begins : s.worker = .check ∨ s.worker = .woken → s.batches = 0
  closed : s.worker = .done → s.closed = true

/-- How far the worker is from the end of `iterate`. -/
def distance (s : State T) : Nat :=
  match s.worker with
  | .done | .start | .waiting => 0
  | .close => 1
  | .loop => 2
  | .announce _ => 3
  | .fetch => 2 * s.remaining.length + 4
  | .enqueue _ _ | .check | .woken => 2 * s.remaining.length + 5

/-- A stopped worker goes on to the end of its batch and leaves the loop. -/
theorem Stopped.iterate (h : Stopped s) (hWorker : s.worker ≠ .done) :
    Stopped s.iterate ∧ distance s.iterate < distance s := by
  obtain ⟨hAtEnd, hLast, hWaits, hBatches, hBegins, -⟩ := h
  have hBegin : s.batches = 0 → s.beginBatch.batches ≤ 1 := by
    intro hNone
    show (if s.stopped then s.batches + 1 else s.batches) ≤ 1
    split <;> omega
  rw [State.Last] at hLast
  rw [distance, distance]
  cases hAt : s.worker with
  | start => simp only [hAt] at hLast
  | loop =>
    have hStep : s.iterate = { s with worker := .close } := by simp only [State.iterate, hAt, hAtEnd, if_true]
    rw [hStep]
    exact ⟨⟨hAtEnd, trivial, nofun, hBatches, nofun, nofun⟩, by simp⟩
  | check =>
    simp only [hAt] at hLast
    have hStep : s.iterate = s.beginBatch := by
      simp only [State.iterate, hAt, if_neg (Nat.not_le.mpr hLast.1)]
    rw [hStep]
    exact ⟨⟨hAtEnd, hLast.2, nofun, hBegin (hBegins (.inl hAt)), nofun, nofun⟩, by simp [beginBatch]⟩
  | waiting => exact absurd hAt hWaits
  | woken =>
    simp only [hAt] at hLast
    have hStep : s.iterate = s.beginBatch := by simp only [State.iterate, hAt]
    rw [hStep]
    exact ⟨⟨hAtEnd, hLast, nofun, hBegin (hBegins (.inr hAt)), nofun, nofun⟩, by simp [beginBatch]⟩
  | fetch =>
    simp only [hAt] at hLast
    cases hRest : s.remaining with
    | nil =>
      have hStep : s.iterate = { s with worker := .announce false, closed := true } := by
        simp only [State.iterate, hAt, hRest]
      rw [hStep]
      exact ⟨⟨hAtEnd, rfl, nofun, hBatches, nofun, nofun⟩, by simp⟩
    | cons row rest =>
      have hStep : s.iterate = { s with remaining := rest, worker := .enqueue row.1 row.2 } := by
        simp only [State.iterate, hAt, hRest]
      rw [hRest] at hLast
      rw [hStep]
      refine ⟨⟨hAtEnd, hLast, nofun, hBatches, nofun, nofun⟩, ?_⟩
      simp only [List.length_cons]
      omega
  | enqueue current error =>
    simp only [hAt] at hLast
    cases error with
    | true =>
      have hStep : s.iterate = { s with
          m_cache := s.m_cache ++ [current], m_error := true, worker := .announce false } := by
        simp only [State.iterate, hAt, if_true]
      rw [hStep]
      exact ⟨⟨hAtEnd, rfl, nofun, hBatches, nofun, nofun⟩, by simp⟩
    | false =>
      obtain ⟨hRoom, hRest⟩ := hLast.resolve_left nofun
      have hLength : (s.m_cache ++ [current]).length = s.m_cache.length + 1 := by simp
      rw [← hLength] at hRoom hRest
      have hStep : s.iterate = { s with m_cache := s.m_cache ++ [current], worker := .fetch } := by
        simp only [State.iterate, hAt, Bool.false_eq_true, if_false, if_neg (Nat.not_le.mpr hRoom)]
      rw [hStep]
      exact ⟨⟨hAtEnd, hRest, nofun, hBatches, nofun, nofun⟩, by simp⟩
  | announce haveNext =>
    simp only [hAt] at hLast
    subst hLast
    have hStep : s.iterate = { s with
        m_atEnd := true
        worker := .loop
        consumer := if s.consumer = .waiting then .woken else s.consumer } := by
      simp only [State.iterate, hAt, Bool.not_false]
    rw [hStep]
    exact ⟨⟨rfl, trivial, nofun, hBatches, nofun, nofun⟩, by simp⟩
  | close =>
    have hStep : s.iterate = { s with worker := .done, closed := true } := by
      simp only [State.iterate, hAt]
    rw [hStep]
    exact ⟨⟨hAtEnd, trivial, nofun, hBatches, nofun, fun _ => rfl⟩, by simp⟩
  | done => exact absurd hAt hWorker

/-- The worker of a stopped iterator closes the underlying iterator. -/
theorem Stopped.closes (h : Stopped s) : ∃ n t,
    Runs.run step s (List.replicate n .iterate) = some t ∧ t.worker = .done ∧ t.closed = true := by
  induction hDistance : distance s using Nat.strongRecOn generalizing s with
  | _ d ih =>
    by_cases hWorker : s.worker = .done
    · exact ⟨0, s, rfl, hWorker, h.closed hWorker⟩
    · obtain ⟨hStep, hLess⟩ := h.iterate hWorker
      obtain ⟨n, t, hRun, hDone⟩ := ih _ (hDistance ▸ hLess) hStep rfl
      refine ⟨n + 1, t, ?_, hDone⟩
      rw [List.replicate_succ, Runs.run_cons_of_step rfl]
      exact hRun

theorem Stopped.answer (h : Stopped s) : Stopped s.answer := by
  rw [State.answer]
  split
  · exact ⟨h.atEnd, h.last, h.waits, h.batches, h.begins, h.closed⟩
  · exact ⟨h.atEnd, Last.of_less h.last rfl rfl (by simp), h.waits, h.batches, h.begins, h.closed⟩

/-- What holds at every point of a run. -/
structure Invariant (s : State T) : Prop where
  stopped : s.stopped = true → Stopped s
  batches : s.stopped = false → s.batches = 0
  closed : s.worker = .done → s.closed = true

theorem invariant_init (underlying : List (T × Bool)) : Invariant (init underlying) :=
  ⟨nofun, fun _ => rfl, nofun⟩

theorem iterate_stopped (s : State T) : s.iterate.stopped = s.stopped := by
  unfold State.iterate
  split <;> try rfl
  · split <;> rfl
  · split <;> rfl
  · simp only
    split
    · rfl
    · split <;> rfl

theorem iterate_batches (h : s.stopped = false) : s.iterate.batches = s.batches := by
  have hBegin : s.beginBatch.batches = s.batches := by simp [beginBatch, h]
  unfold State.iterate
  split <;> try rfl
  · split
    · rfl
    · exact hBegin
  · exact hBegin
  · split <;> rfl
  · simp only
    split
    · rfl
    · split <;> rfl

/-- The worker ends by closing the underlying iterator. -/
theorem iterate_closed (h : s.worker = .done → s.closed = true) :
    s.iterate.worker = .done → s.iterate.closed = true := by
  unfold State.iterate
  split
  · nofun
  · simp only
    split <;> nofun
  · split <;> nofun
  · exact h
  · nofun
  · split <;> nofun
  · simp only
    split
    · nofun
    · split <;> nofun
  · nofun
  · exact fun _ => rfl
  · exact h

namespace Invariant

theorem iterate (h : Invariant s) : Invariant s.iterate := by
  refine ⟨fun hStopped => ?_, fun hStopped => ?_, iterate_closed h.closed⟩
  · rw [iterate_stopped] at hStopped
    have hBefore := h.stopped hStopped
    by_cases hWorker : s.worker = .done
    · have hStep : s.iterate = s := by simp only [State.iterate, hWorker]
      rw [hStep]
      exact hBefore
    · exact (hBefore.iterate hWorker).1
  · rw [iterate_stopped] at hStopped
    rw [iterate_batches hStopped]
    exact h.batches hStopped

theorem answer (h : Invariant s) : Invariant s.answer := by
  have hFrame : s.answer.stopped = s.stopped ∧ s.answer.batches = s.batches ∧
      s.answer.worker = s.worker ∧ s.answer.closed = s.closed := by
    rw [State.answer]
    split <;> exact ⟨rfl, rfl, rfl, rfl⟩
  obtain ⟨hStopped, hBatches, hWorker, hClosed⟩ := hFrame
  refine ⟨fun hAt => (h.stopped (hStopped ▸ hAt)).answer, fun hAt => ?_, fun hAt => ?_⟩
  · rw [hBatches]
    exact h.batches (hStopped ▸ hAt)
  · rw [hClosed]
    exact h.closed (hWorker ▸ hAt)

theorem done_of_wakeWorker {worker : Worker T} (h : wakeWorker worker = .done) : worker = .done := by
  cases worker <;> first | exact h | cases h

theorem getNext (h : Invariant s) : Invariant s.getNext := by
  rw [State.getNext]
  split
  · rename_i hWait
    refine ⟨fun hStopped => ?_, h.batches, fun hAt => h.closed (done_of_wakeWorker hAt)⟩
    -- Behind the end the consumer does not wait.
    have := (h.stopped hStopped).atEnd
    rw [hWait.2] at this
    cases this
  · exact h.answer

theorem stopIterating (h : Invariant s) (hLast : s.Last) : Invariant s.stopIterating := by
  have hClosed : s.stopIterating.worker = .done → s.stopIterating.closed = true := fun hAt =>
    h.closed (done_of_wakeWorker hAt)
  refine ⟨fun _ => ⟨rfl, ?_, ?_, ?_, fun hAt => ?_, hClosed⟩, nofun, hClosed⟩
  · rw [State.Last] at hLast ⊢
    rw [State.stopIterating]
    cases hAt : s.worker with
    | loop | close | done => trivial
    | _ =>
      rw [hAt] at hLast
      exact hLast
  · show wakeWorker s.worker ≠ .waiting
    cases s.worker <;> nofun
  · show s.batches ≤ 1
    cases hStopped : s.stopped with
    | false => simp [h.batches hStopped]
    | true => exact (h.stopped hStopped).batches
  · show s.batches = 0
    cases hStopped : s.stopped with
    | false => exact h.batches hStopped
    | true =>
      have hBefore := h.stopped hStopped
      apply hBefore.begins
      have hAt : wakeWorker s.worker = .check ∨ wakeWorker s.worker = .woken := hAt
      have hNot := hBefore.waits
      cases hWorker : s.worker <;> simp_all [wakeWorker]

theorem step (h : Invariant s) {a : Action} (hMeets : a.Meets s) :
    ∃ t, AsyncIteratorClose.step s a = some t ∧ Invariant t := by
  cases a with
  | iterate => exact ⟨_, rfl, h.iterate⟩
  | getNext =>
    refine ⟨_, rfl, ?_⟩
    split
    · exact h.getNext
    · exact h
  | resume =>
    refine ⟨_, rfl, ?_⟩
    split
    · exact h.answer
    · exact h
  | close =>
    refine ⟨_, rfl, ?_⟩
    split
    · rename_i hIdle
      exact h.stopIterating (hMeets hIdle)
    · exact h

end Invariant

/-! ### A close that the worker overlooks -/

theorem run_iterate {n : Nat} (h : ∃ t, Runs.run step s.iterate (List.replicate n .iterate) = some t ∧
      (t.m_atEnd = false ∨ t.worker = .waiting)) :
    ∃ n t, Runs.run step s (List.replicate n .iterate) = some t ∧
      (t.m_atEnd = false ∨ t.worker = .waiting) := by
  obtain ⟨t, hRun, hEnd⟩ := h
  refine ⟨n + 1, t, ?_, hEnd⟩
  rw [List.replicate_succ, Runs.run_cons_of_step rfl]
  exact hRun

/-- A batch that fills the cache takes the end flag back. -/
theorem reopens {remaining : List (T × Bool)} (hRemaining : s.remaining = remaining)
    (hWorker : s.worker = .fetch) (h : ¬ Ends s.m_cache.length remaining) :
    ∃ n t, Runs.run step s (List.replicate n .iterate) = some t ∧
      (t.m_atEnd = false ∨ t.worker = .waiting) := by
  induction remaining generalizing s with
  | nil => exact absurd trivial h
  | cons row rest ih =>
    obtain ⟨current, error⟩ := row
    simp only [Ends, not_or, Bool.not_eq_true, not_and] at h
    obtain ⟨rfl, hRest⟩ := h
    have hFetch : s.iterate = { s with remaining := rest, worker := .enqueue current false } := by
      simp only [State.iterate, hWorker, hRemaining]
    have hLength : (s.m_cache ++ [current]).length = s.m_cache.length + 1 := by simp
    by_cases hFull : s_cacheSize ≤ (s.m_cache ++ [current]).length
    · refine ⟨3, _, rfl, .inl ?_⟩
      have hEnqueue : s.iterate.iterate =
          { s with remaining := rest, m_cache := s.m_cache ++ [current], worker := .announce true } := by
        rw [hFetch]
        simp only [State.iterate, Bool.false_eq_true, if_false, if_pos hFull]
      show s.iterate.iterate.iterate.m_atEnd = false
      rw [hEnqueue]
      rfl
    · have hEnqueue : s.iterate.iterate =
          { s with remaining := rest, m_cache := s.m_cache ++ [current], worker := .fetch } := by
        rw [hFetch]
        simp only [State.iterate, Bool.false_eq_true, if_false, if_neg hFull]
      obtain ⟨n, hLater⟩ := ih (s := s.iterate.iterate) (by rw [hEnqueue]) (by rw [hEnqueue]) (by
        rw [hEnqueue]
        show ¬ Ends (s.m_cache ++ [current]).length rest
        rw [hLength]
        exact hRest (by omega))
      obtain ⟨n, hLater⟩ := run_iterate hLater
      exact run_iterate hLater

/-- A worker that waits is not woken by itself. -/
theorem stays (hWorker : s.worker = .waiting) (n : Nat) :
    Runs.run step s (List.replicate n .iterate) = some s := by
  have hStep : step s .iterate = some s := by simp only [step, State.iterate, hWorker]
  induction n with
  | zero => rfl
  | succ n ih => rwa [List.replicate_succ, Runs.run_cons_of_step hStep]

/-- If the iterator is closed at any other point, the worker may go on and wait for cache space. -/
theorem overlooked (hIdle : s.consumer = .idle) (h : ¬ s.Last) :
    ∃ n t, Runs.run step s (.close :: List.replicate n .iterate) = some t ∧
      (t.m_atEnd = false ∨ t.worker = .waiting) := by
  have hClose : step s .close = some s.stopIterating := by rw [step, if_pos hIdle]
  simp only [Runs.run_cons_of_step hClose]
  rw [State.Last] at h
  cases hAt : s.worker with
  | start =>
    refine ⟨1, _, rfl, .inl ?_⟩
    simp only [State.iterate, State.stopIterating, hAt, wakeWorker]
  | loop | close | done => simp [hAt] at h
  | check =>
    simp only [hAt, not_and] at h
    by_cases hFull : s_cacheSize ≤ s.m_cache.length
    · refine ⟨1, _, rfl, .inr ?_⟩
      simp only [State.iterate, State.stopIterating, hAt, wakeWorker, if_pos hFull]
    · have hStep : s.stopIterating.iterate = s.stopIterating.beginBatch := by
        simp only [State.iterate, State.stopIterating, hAt, wakeWorker, if_neg hFull]
      obtain ⟨n, hLater⟩ := reopens (s := s.stopIterating.beginBatch) rfl rfl (h (by omega))
      rw [← hStep] at hLater
      exact run_iterate hLater
  | waiting | woken =>
    simp only [hAt] at h
    have hStep : s.stopIterating.iterate = s.stopIterating.beginBatch := by
      simp only [State.iterate, State.stopIterating, hAt, wakeWorker]
    obtain ⟨n, hLater⟩ := reopens (s := s.stopIterating.beginBatch) rfl rfl h
    rw [← hStep] at hLater
    exact run_iterate hLater
  | fetch =>
    simp only [hAt] at h
    exact reopens rfl (by simp only [State.stopIterating, hAt, wakeWorker]) h
  | enqueue current error =>
    simp only [hAt] at h
    -- The element is one that the worker could still have to fetch.
    let before : State T := { s.stopIterating with
      remaining := (current, error) :: s.remaining, worker := .fetch }
    obtain ⟨n, t, hRun, hEnd⟩ := reopens (s := before) rfl rfl h
    have hStep : before.iterate = s.stopIterating := by
      simp only [State.iterate, before, State.stopIterating, hAt, wakeWorker]
    cases n with
    | zero =>
      cases hRun
      rcases hEnd with hOpen | hWaits
      · cases hOpen
      · cases hWaits
    | succ n =>
      rw [List.replicate_succ, Runs.run_cons_of_step rfl] at hRun
      exact ⟨n, t, hStep ▸ hRun, hEnd⟩
  | announce haveNext =>
    refine ⟨1, _, rfl, .inl ?_⟩
    simp only [hAt, Bool.not_eq_false] at h
    simp only [State.iterate, State.stopIterating, hAt, wakeWorker, h, Bool.not_true]

/-- As long as the iterator is closed behind the condition of the loop or in the last batch, a close
stops the worker; at any other point the worker can take it back, or wait for ever. -/
theorem close_stops (underlying : List (T × Bool)) {actions : List Action}
    (hMeets : Runs.AllMeet step (fun s a => a.Meets s) (init underlying) actions) :
    ∃ s, Runs.run step (init underlying) actions = some s ∧
      (s.stopped = true → s.m_atEnd = true ∧ s.batches ≤ 1 ∧ s.worker ≠ .waiting ∧
        ∃ n t, Runs.run step s (List.replicate n .iterate) = some t ∧ t.worker = .done ∧
          t.closed = true) ∧
      (s.consumer = .idle → ¬ s.Last →
        ∃ n t, Runs.run step s (.close :: List.replicate n .iterate) = some t ∧
          (t.m_atEnd = false ∨ t.worker = .waiting)) := by
  obtain ⟨s, hRun, h⟩ := Runs.exists_run (fun h hMeets => Invariant.step h hMeets)
    (invariant_init underlying) hMeets
  refine ⟨s, hRun, fun hStopped => ?_, overlooked⟩
  have hEnd := h.stopped hStopped
  exact ⟨hEnd.atEnd, hEnd.batches, hEnd.waits, hEnd.closes⟩

/-- A close at the condition of the loop. -/
theorem close_stops_loop :
    ∃ s, Runs.run step (init [(1, false), (2, false)]) [.iterate, .close, .iterate] = some s ∧
      s.stopped = true ∧ s.m_atEnd = true ∧ s.worker ≠ .waiting := by
  have hMeets : Runs.AllMeet step (fun s a => a.Meets s) (init [(1, false), (2, false)])
      [.iterate, .close, .iterate] :=
    .cons trivial rfl (.cons (fun _ => trivial) rfl (.cons trivial rfl trivial))
  obtain ⟨s, hRun, hEnd, -⟩ := close_stops [(1, false), (2, false)] hMeets
  have hStopped : s.stopped = true := by
    cases hRun
    rfl
  exact ⟨s, hRun, hStopped, (hEnd hStopped).1, (hEnd hStopped).2.2.1⟩

/-- A close that comes before `iterate` is forgotten: the worker fills the cache and waits. -/
theorem close_stops_early :
    ∃ s, Runs.run step (init ((List.range 11).map fun n => (n, false)))
        (.close :: List.replicate 26 .iterate) = some s ∧
      s.stopped = true ∧ s.m_atEnd = false ∧ s.worker = .waiting ∧ s.closed = false ∧
      ∀ n, Runs.run step s (List.replicate n .iterate) = some s := by
  exact ⟨_, rfl, rfl, rfl, rfl, rfl, stays rfl⟩

end Soprano.Util.AsyncIteratorClose
