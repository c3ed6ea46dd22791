import Soprano.Util.AsyncQuery

/-! Closing an `AsyncQuery`, at any moment and together with calls of `next` at any moment. The worker
tests `m_closed` before it locks the mutex under which it waits. -/

namespace Soprano.Util.AsyncQuery

variable {T B : Type} {q : Query T B} {s t : State T B}

/-- The worker is not between its second test of `m_closed` and the lock. -/
def Action.ClosesInTime (s : State T B) : Action → Prop
  | .close => ∀ row, s.worker ≠ .lock row
  | _ => True

namespace Worker

/-- The worker will wait without another test of `m_closed`. -/
def Commits : Worker T B → Prop
  | .lock _ | .cache _ | .emit | .wait => True
  | _ => False

end Worker

/-- A worker that waits or is about to has not missed a `close`. -/
structure CloseSeen (s : State T B) : Prop where
  commits : s.m_closed = true → ¬ s.worker.Commits
  waiting : s.m_closed = true → s.worker = .waiting → s.closing = true
  closing : s.closing = true → s.m_closed = true

theorem closeSeen_init (q : Query T B) : CloseSeen (init q) := ⟨nofun, nofun, nofun⟩

/-- What the worker does not change. -/
theorem run_frame (hRun : s.run q = some t) : t.m_closed = s.m_closed ∧ t.closing = s.closing := by
  cases hWorker : s.worker with
  | start =>
    simp only [State.run, hWorker] at hRun
    split at hRun
    · split at hRun
      · cases hRun
        exact ⟨rfl, rfl⟩
      · split at hRun <;> cases hRun <;> exact ⟨rfl, rfl⟩
    · cases hRun
      exact ⟨rfl, rfl⟩
  | next | cache row =>
    simp only [State.run, hWorker] at hRun
    split at hRun <;> cases hRun <;> exact ⟨rfl, rfl⟩
  | lock row | woken =>
    simp only [State.run, hWorker, Option.ite_none_left_eq_some] at hRun
    cases hRun.2
    exact ⟨rfl, rfl⟩
  | waiting | done => simp [State.run, hWorker] at hRun
  | _ =>
    simp only [State.run, hWorker] at hRun
    cases hRun
    exact ⟨rfl, rfl⟩

/-- Once the query is closed, the worker passes a test before it could wait again. -/
theorem notCommits_run (hRun : s.run q = some t) (hClosed : s.m_closed = true)
    (h : ¬ s.worker.Commits) : ¬ t.worker.Commits ∧ t.worker ≠ .waiting := by
  cases hWorker : s.worker with
  | start =>
    simp only [State.run, hWorker] at hRun
    split at hRun
    · split at hRun
      · cases hRun
        exact ⟨id, (by rintro ⟨⟩)⟩
      · split at hRun <;> cases hRun <;> exact ⟨id, (by rintro ⟨⟩)⟩
    · cases hRun
      exact ⟨id, (by rintro ⟨⟩)⟩
  | loop | test row =>
    simp only [State.run, hWorker, hClosed, if_true] at hRun
    cases hRun
    exact ⟨id, (by rintro ⟨⟩)⟩
  | next =>
    simp only [State.run, hWorker] at hRun
    split at hRun <;> cases hRun <;> exact ⟨id, (by rintro ⟨⟩)⟩
  | woken =>
    simp only [State.run, hWorker, Option.ite_none_left_eq_some] at hRun
    cases hRun.2
    exact ⟨id, (by rintro ⟨⟩)⟩
  | stop | finish =>
    simp only [State.run, hWorker] at hRun
    cases hRun
    exact ⟨id, (by rintro ⟨⟩)⟩
  | waiting | done => simp [State.run, hWorker] at hRun
  | lock row | cache row | emit | wait =>
    rw [hWorker] at h
    exact absurd trivial h

theorem notCommits_wake {worker : Worker T B} (h : ¬ worker.Commits) :
    ¬ worker.wake.Commits ∧ worker.wake ≠ .waiting := by
  cases worker with
  | lock row | cache row | emit | wait => exact absurd trivial h
  | _ => exact ⟨id, by rintro ⟨⟩⟩

namespace CloseSeen

theorem run (h : CloseSeen s) (hRun : s.run q = some t) : CloseSeen t := by
  obtain ⟨hClosed, hClosing⟩ := run_frame hRun
  refine ⟨fun hNow => ?_, fun hNow hWaiting => ?_, fun hNow => ?_⟩
  · rw [hClosed] at hNow
    exact (notCommits_run hRun hNow (h.commits hNow)).1
  · rw [hClosed] at hNow
    exact absurd hWaiting (notCommits_run hRun hNow (h.commits hNow)).2
  · rw [hClosed]
    exact h.closing (hClosing ▸ hNow)

theorem step (h : CloseSeen s) {a : Action} (hMeets : a.ClosesInTime s)
    (hStep : AsyncQuery.step q s a = some t) : CloseSeen t := by
  cases a with
  | run => exact h.run hStep
  | deliver =>
    simp only [AsyncQuery.step, State.deliver, Option.ite_none_right_eq_some] at hStep
    obtain ⟨-, hStep⟩ := hStep
    split at hStep <;> cases hStep <;> exact ⟨h.commits, h.waiting, h.closing⟩
  | read =>
    simp only [AsyncQuery.step, State.read, Option.ite_none_right_eq_some] at hStep
    cases hStep.2
    exact ⟨h.commits, h.waiting, h.closing⟩
  | leave =>
    simp only [AsyncQuery.step, State.leave, Option.ite_none_left_eq_some] at hStep
    cases hStep.2
    exact ⟨h.commits, h.waiting, h.closing⟩
  | next =>
    simp only [AsyncQuery.step, State.next] at hStep
    split at hStep
    · simp only [Option.ite_none_left_eq_some] at hStep
      cases hStep.2
      exact ⟨fun hClosed => (notCommits_wake (h.commits hClosed)).1,
        fun hClosed hWaiting => absurd hWaiting (notCommits_wake (h.commits hClosed)).2, h.closing⟩
    · cases hStep
      exact ⟨h.commits, h.waiting, h.closing⟩
  | close =>
    simp only [AsyncQuery.step, State.close, Option.ite_none_left_eq_some, State.locked,
      Bool.or_eq_true, not_or, Bool.not_eq_true] at hStep
    obtain ⟨⟨-, hHolds⟩, hStep⟩ := hStep
    cases hStep
    refine ⟨fun _ hCommits => ?_, fun _ _ => rfl, fun _ => rfl⟩
    -- with the mutex at hand, the client does not meet a worker behind the lock
    have hCommits : s.worker.Commits := hCommits
    cases hWorker : s.worker with
    | lock row => exact hMeets row hWorker
    | cache row | emit | wait =>
      rw [hWorker] at hHolds
      cases hHolds
    | _ =>
      rw [hWorker] at hCommits
      exact hCommits
  | wakeClosed =>
    simp only [AsyncQuery.step, State.wakeClosed, Option.ite_none_right_eq_some] at hStep
    cases hStep.2
    exact ⟨fun hClosed => (notCommits_wake (h.commits hClosed)).1,
      fun hClosed hWaiting => absurd hWaiting (notCommits_wake (h.commits hClosed)).2,
      by rintro ⟨⟩⟩

/-- The worker of a closed query ends by itself, so that the destructor returns. -/
theorem ends (h : CloseSeen s) (hClosed : s.m_closed = true) (hClosing : s.closing = false) :
    ∃ (n : Nat) (t : State T B),
      Runs.run (AsyncQuery.step q) s (List.replicate n .run) = some t ∧ t.worker = .done := by
  induction hMeasure : s.measure using Nat.strongRecOn generalizing s with
  | _ n ih =>
    by_cases hDone : s.worker = .done
    · exact ⟨0, s, rfl, hDone⟩
    · have hWaiting : s.worker ≠ .waiting := by
        intro hWaiting
        rw [h.waiting hClosed hWaiting] at hClosing
        cases hClosing
      obtain ⟨t, hRun⟩ := exists_run_of_unlocked (q := q) hClosing hWaiting hDone
      obtain ⟨hSame, hSameClosing⟩ := run_frame hRun
      obtain ⟨n, u, hRest, hEnd⟩ := ih t.measure (hMeasure ▸ measure_run hRun) (h.run hRun)
        (hSame.trans hClosed) (hSameClosing.trans hClosing) rfl
      refine ⟨n + 1, u, ?_, hEnd⟩
      have hStep : AsyncQuery.step q s .run = some t := hRun
      rw [List.replicate_succ, Runs.run_cons_of_step hStep]
      exact hRest

/-- A `close` between the test and the lock is lost: the worker goes on and waits. -/
theorem lost (h : CloseSeen s) {row : T × B} (hWorker : s.worker = .lock row) :
    ∃ t, Runs.run (AsyncQuery.step q) s (.close :: .wakeClosed :: List.replicate 4 .run) = some t ∧
      t.m_closed = true ∧ t.closing = false ∧ t.worker = .waiting := by
  have hOpen : s.closing = false := by
    refine Bool.eq_false_iff.mpr fun hClosing => h.commits (h.closing hClosing) ?_
    rw [hWorker]
    trivial
  have hFree : s.locked = false := by
    rw [State.locked, hOpen, hWorker]
    rfl
  let closed : State T B := { s with m_closed := true, closing := true }
  let locked : State T B := { s with m_closed := true, closing := false, worker := .lock row }
  have hClose : AsyncQuery.step q s .close = some closed := by
    simp [AsyncQuery.step, State.close, hFree, closed]
  have hWake : AsyncQuery.step q closed .wakeClosed = some locked := by
    simp [AsyncQuery.step, State.wakeClosed, closed, locked, hWorker, Worker.wake]
  rw [Runs.run_cons_of_step hClose, Runs.run_cons_of_step hWake]
  by_cases hGraph : s.m_type = .graphResult
  · refine ⟨{ locked with
      m_currentStatement := some row.1, events := s.events ++ [.emitNextReady], worker := .waiting },
      ?_, rfl, rfl, rfl⟩
    simp [Runs.run, AsyncQuery.step, State.run, State.locked, Worker.holds, locked, hGraph]
  · refine ⟨{ locked with
      m_currentBindings := some row.2
      m_bindingNames := if s.m_bindingNames.isEmpty then q.bindingNames else s.m_bindingNames
      events := s.events ++ [.emitNextReady], worker := .waiting }, ?_, rfl, rfl, rfl⟩
    simp [Runs.run, AsyncQuery.step, State.run, State.locked, Worker.holds, locked, hGraph]

end CloseSeen

/-- As long as no `close` comes between the test of `m_closed` and the lock of the worker, a closed query
has a worker that waits only for a wake-up on its way, and that ends without the client; at that
point a `close` leaves the worker waiting. -/
theorem close_seen (q : Query T B) {actions : List Action}
    (hMeets : Runs.AllMeet (step q) (fun s a => a.ClosesInTime s) (init q) actions)
    (hRun : Runs.run (step q) (init q) actions = some s) :
    ¬ (s.m_closed = true ∧ s.worker = .waiting ∧ s.closing = false) ∧
    (s.m_closed = true → s.closing = false →
      ∃ (n : Nat) (t : State T B),
        Runs.run (step q) s (List.replicate n .run) = some t ∧ t.worker = .done) ∧
    (¬ Action.ClosesInTime s .close →
      ∃ t, Runs.run (step q) s (.close :: .wakeClosed :: List.replicate 4 .run) = some t ∧
        t.m_closed = true ∧ t.worker = .waiting ∧ t.closing = false) := by
  have h : CloseSeen s := Runs.invariant (fun h hMeets hStep => h.step hMeets hStep)
    (closeSeen_init q) hMeets hRun
  refine ⟨?_, h.ends, fun hLate => ?_⟩
  · rintro ⟨hClosed, hWaiting, hClosing⟩
    rw [h.waiting hClosed hWaiting] at hClosing
    cases hClosing
  · simp only [Action.ClosesInTime, not_forall, not_not] at hLate
    obtain ⟨row, hWorker⟩ := hLate
    obtain ⟨t, hLost, hClosed, hClosing, hWaiting⟩ := h.lost (q := q) hWorker
    exact ⟨t, hLost, hClosed, hWaiting, hClosing⟩

/-- A `close` while the worker waits. -/
theorem close_seen_waiting :
    ∃ (n : Nat) (t : State Unit Nat), Runs.run (step oneBinding) (init oneBinding)
      (List.replicate 8 Action.run ++ [.close, .wakeClosed] ++ List.replicate n .run) = some t ∧
      t.worker = .done := by
  have hMeets : Runs.AllMeet (step oneBinding) (fun s a => a.ClosesInTime s) (init oneBinding)
      (List.replicate 8 Action.run ++ [.close, .wakeClosed]) := by
    iterate 8
      refine .cons trivial rfl ?_
    exact .cons (fun _ => nofun) rfl (.cons trivial rfl trivial)
  obtain ⟨-, hEnds, -⟩ := close_seen oneBinding hMeets rfl
  obtain ⟨n, t, hRun, hDone⟩ := hEnds rfl rfl
  exact ⟨n, t, (Runs.run_append rfl).trans hRun, hDone⟩

/-- The worker has tested `m_closed`, and the client closes the query before the worker locks. -/
theorem close_lost : ∃ s : State Unit Nat,
    Runs.run (step oneBinding) (init oneBinding)
      (List.replicate 4 Action.run ++ [.close, .wakeClosed] ++ List.replicate 4 .run) = some s ∧
    s.m_closed = true ∧ s.worker = .waiting ∧ s.closing = false :=
  ⟨_, rfl, rfl, rfl, rfl⟩

end Soprano.Util.AsyncQuery
