import Mathlib.Algebra.Order.BigOperators.Group.Finset
import Mathlib.Data.Fintype.Basic
import Soprano.Library.Runs

/-! `ExtReadWriteLock`, for any finite number of threads. What a thread does between two points at which
it gives the mutex away is a single step; a thread that is woken has to get the mutex back first. -/

namespace Soprano.Util.ExtReadWriteLock

/-- Where a thread is: outside the functions of the lock, in one of the two waits, or woken from it. -/
inductive Status
  | running
  | waitsWrite
  | wokenWrite
  | waitsRead
  | wokenRead
  deriving DecidableEq

/-- `currentReaders` has the value 0 for a thread that the hash does not contain. `writer` is the thread
that `lockForWrite` has let in last, until it unlocks. -/
structure State (τ : Type) where
  accessCount : Int
  writerWaiting : Int
  readerWaiting : Int
  currentReaders : τ → Nat
  writer : Option τ
  status : τ → Status

variable {τ : Type}

def init : State τ := ⟨0, 0, 0, fun _ => 0, none, fun _ => .running⟩

namespace State

variable [DecidableEq τ]

/-- The loop of `lockForWrite`, up to its wait or its end. -/
def lockForWrite (s : State τ) (t : τ) : State τ :=
  if s.accessCount ≠ 0 then
    { s with
      writerWaiting := s.writerWaiting + 1
      status := Function.update s.status t .waitsWrite }
  else
    { s with
      accessCount := s.accessCount - 1
      writer := some t
      status := Function.update s.status t .running }

/-- The loop of `lockForRead`, up to its wait or its end. -/
def awaitRead (s : State τ) (t : τ) : State τ :=
  if s.accessCount < 0 ∨ s.writerWaiting ≠ 0 then
    { s with
      readerWaiting := s.readerWaiting + 1
      status := Function.update s.status t .waitsRead }
  else
    { s with
      accessCount := s.accessCount + 1
      currentReaders := Function.update s.currentReaders t 1
      status := Function.update s.status t .running }

def lockForRead (s : State τ) (t : τ) : State τ :=
  if s.currentReaders t ≠ 0 then
    { s with
      accessCount := s.accessCount + 1
      currentReaders := Function.update s.currentReaders t (s.currentReaders t + 1) }
  else s.awaitRead t

/-- `writerWait.wakeOne`, which wakes the thread `woken`, or `readerWait.wakeAll`. -/
def wake (s : State τ) (woken : Option τ) : State τ :=
  if s.writerWaiting ≠ 0 then
    match woken with
    | some w => { s with status := Function.update s.status w .wokenWrite }
    | none => s
  else if s.readerWaiting ≠ 0 then
    { s with status := fun t => if s.status t = .waitsRead then .wokenRead else s.status t }
  else s

def unlock (s : State τ) (t : τ) (woken : Option τ) : State τ :=
  if 0 < s.accessCount then
    let s := { s with
      accessCount := s.accessCount - 1
      currentReaders := Function.update s.currentReaders t (s.currentReaders t - 1) }
    if s.accessCount = 0 then s.wake woken else s
  else if s.accessCount < 0 then
    let s := { s with accessCount := s.accessCount + 1, writer := none }
    if s.accessCount = 0 then s.wake woken else s
  else s

end State

/-- A thread calls a function of the lock, or has the mutex back behind its wait. In `unlock`, `woken` is
the thread that a `wakeOne` wakes. -/
inductive Action (τ : Type)
  | lockForWrite (t : τ)
  | lockForRead (t : τ)
  | unlock (t : τ) (woken : Option τ)
  | resume (t : τ)

variable [Fintype τ] [DecidableEq τ]

/-- A waiting writer is woken, if there is one. -/
def Wakes (s : State τ) : Option τ → Prop
  | some w => s.status w = .waitsWrite
  | none => ∀ t, s.status t ≠ .waitsWrite

instance (s : State τ) (woken : Option τ) : Decidable (Wakes s woken) := by
  cases woken <;> unfold Wakes <;> infer_instance

/-- Threads only unlock what they hold, and ask for no write lock while they hold a read lock. -/
def step (s : State τ) : Action τ → Option (State τ)
  | .lockForWrite t =>
    if s.status t = .running ∧ s.currentReaders t = 0 then some (s.lockForWrite t) else none
  | .lockForRead t => if s.status t = .running then some (s.lockForRead t) else none
  | .unlock t woken =>
    if s.status t = .running ∧ (s.currentReaders t ≠ 0 ∨ s.writer = some t) ∧ Wakes s woken then
      some (s.unlock t woken)
    else none
  | .resume t =>
    match s.status t with
    | .wokenWrite => some ({ s with writerWaiting := s.writerWaiting - 1 }.lockForWrite t)
    | .wokenRead => some ({ s with readerWaiting := s.readerWaiting - 1 }.awaitRead t)
    | _ => none

/-! ### Sums over the threads -/

/-- What the change of one thread does to a sum over all. -/
theorem sum_update {α : Type} (f : τ → α) (g : α → Nat) (t : τ) (a : α) :
    ∑ x, g (Function.update f t a x) + g (f t) = ∑ x, g (f x) + g a := by
  have hRest : ∑ x ∈ Finset.univ.erase t, g (Function.update f t a x) =
      ∑ x ∈ Finset.univ.erase t, g (f x) :=
    Finset.sum_congr rfl fun x hx => by rw [Function.update_of_ne (Finset.ne_of_mem_erase hx)]
  rw [← Finset.add_sum_erase _ _ (Finset.mem_univ t), hRest, Function.update_self,
    ← Finset.add_sum_erase Finset.univ (fun x => g (f x)) (Finset.mem_univ t)]
  omega

def Status.asWriter : Status → Nat
  | .waitsWrite | .wokenWrite => 1
  | _ => 0

def Status.asReader : Status → Nat
  | .waitsRead | .wokenRead => 1
  | _ => 0

def readers (s : State τ) : Nat := ∑ t, s.currentReaders t

def writersAsking (s : State τ) : Nat := ∑ t, (s.status t).asWriter

def readersAsking (s : State τ) : Nat := ∑ t, (s.status t).asReader

/-! ### The invariant -/

/-- The counters count, a reader does not wait, and a wake-up is under way where the lock is free. -/
structure Invariant (s : State τ) : Prop where
  access : s.writer = none ∧ s.accessCount = readers s ∨
    s.writer.isSome = true ∧ s.accessCount = -1 ∧ readers s = 0
  writers : s.writerWaiting = writersAsking s
  waiters : s.readerWaiting = readersAsking s
  running : ∀ t, s.currentReaders t ≠ 0 → s.status t = .running
  freeWriter : s.accessCount = 0 → s.writerWaiting ≠ 0 → ∃ t, s.status t = .wokenWrite
  freeReader : s.accessCount = 0 → s.writerWaiting = 0 → ∀ t, s.status t ≠ .waitsRead

omit [DecidableEq τ] in
theorem invariant_init : Invariant (init : State τ) := by
  refine ⟨.inl ⟨rfl, ?_⟩, ?_, ?_, fun _ h => absurd rfl h, fun _ h => absurd rfl h, nofun⟩ <;>
    simp [init, readers, writersAsking, readersAsking, Status.asWriter, Status.asReader]

/-- What the invariant says of the counters, where `t` is a thread that is no longer counted. -/
structure Counted (s : State τ) (t : τ) : Prop where
  access : s.writer = none ∧ s.accessCount = readers s ∨
    s.writer.isSome = true ∧ s.accessCount = -1 ∧ readers s = 0
  writers : s.writerWaiting + (s.status t).asWriter = writersAsking s
  waiters : s.readerWaiting + (s.status t).asReader = readersAsking s
  running : ∀ u, s.currentReaders u ≠ 0 → s.status u = .running
  idle : s.currentReaders t = 0

variable {s : State τ} {t : τ}

omit [DecidableEq τ] in
theorem Invariant.counted (h : Invariant s) (hRunning : s.status t = .running)
    (hIdle : s.currentReaders t = 0) : Counted s t := by
  refine ⟨h.access, ?_, ?_, h.running, hIdle⟩
  · rw [hRunning, h.writers]
    exact Int.add_zero _
  · rw [hRunning, h.waiters]
    exact Int.add_zero _

/-- A change of the status of `t` changes the sums by its own part. -/
theorem asking_update (f : τ → Status) (t : τ) (a : Status) :
    ∑ x, (Function.update f t a x).asWriter + (f t).asWriter = ∑ x, (f x).asWriter + a.asWriter ∧
      ∑ x, (Function.update f t a x).asReader + (f t).asReader =
        ∑ x, (f x).asReader + a.asReader :=
  ⟨sum_update f Status.asWriter t a, sum_update f Status.asReader t a⟩

omit [Fintype τ] in
theorem running_update (h : ∀ u, s.currentReaders u ≠ 0 → s.status u = .running)
    (hIdle : s.currentReaders t = 0) (a : Status) (u : τ) (hu : s.currentReaders u ≠ 0) :
    Function.update s.status t a u = .running := by
  have hNe : u ≠ t := by
    rintro rfl
    exact hu hIdle
  rw [Function.update_of_ne hNe]
  exact h u hu

theorem Counted.lockForWrite (h : Counted s t) (hReader : (s.status t).asReader = 0) :
    Invariant (s.lockForWrite t) := by
  obtain ⟨hAccess, hWriters, hWaiters, hRunning, hIdle⟩ := h
  rw [State.lockForWrite]
  by_cases hTaken : s.accessCount ≠ 0
  · obtain ⟨hW, hR⟩ := asking_update s.status t .waitsWrite
    rw [if_pos hTaken]
    refine ⟨hAccess, ?_, ?_, running_update hRunning hIdle _, fun hFree => absurd hFree hTaken,
      fun hFree => absurd hFree hTaken⟩
    · simp only [writersAsking, Status.asWriter] at hWriters hW ⊢
      omega
    · simp only [readersAsking, Status.asReader] at hWaiters hR hReader ⊢
      omega
  · obtain ⟨hW, hR⟩ := asking_update s.status t .running
    have hFree : s.accessCount = 0 := not_not.mp hTaken
    rw [if_neg hTaken]
    refine ⟨.inr ⟨rfl, ?_, ?_⟩, ?_, ?_, running_update hRunning hIdle _, fun hNot => ?_, fun hNot => ?_⟩
    · show s.accessCount - 1 = -1
      omega
    · show readers s = 0
      omega
    · simp only [writersAsking, Status.asWriter] at hWriters hW ⊢
      omega
    · simp only [readersAsking, Status.asReader] at hWaiters hR hReader ⊢
      omega
    · have hNot : s.accessCount - 1 = 0 := hNot
      omega
    · have hNot : s.accessCount - 1 = 0 := hNot
      omega

omit [DecidableEq τ] in
theorem le_sum {α : Type} (f : τ → α) (g : α → Nat) (t : τ) : g (f t) ≤ ∑ x, g (f x) :=
  Finset.single_le_sum (fun x _ => Nat.zero_le (g (f x))) (Finset.mem_univ t)

theorem readers_update (f : τ → Nat) (t : τ) (n : Nat) :
    ∑ x, Function.update f t n x + f t = ∑ x, f x + n := sum_update f id t n

/-- A reader that is not let in leaves a writer that has been woken. -/
theorem Counted.awaitRead (h : Counted s t) (hWriter : (s.status t).asWriter = 0)
    (hWoken : s.accessCount = 0 → s.writerWaiting ≠ 0 → ∃ u, s.status u = .wokenWrite) :
    Invariant (s.awaitRead t) := by
  obtain ⟨hAccess, hWriters, hWaiters, hRunning, hIdle⟩ := h
  rw [State.awaitRead]
  by_cases hBarred : s.accessCount < 0 ∨ s.writerWaiting ≠ 0
  · obtain ⟨hW, hR⟩ := asking_update s.status t .waitsRead
    rw [if_pos hBarred]
    refine ⟨hAccess, ?_, ?_, running_update hRunning hIdle _, fun hFree hSome => ?_,
      fun hFree hNone => ?_⟩
    · simp only [writersAsking, Status.asWriter] at hWriters hW hWriter ⊢
      omega
    · simp only [readersAsking, Status.asReader] at hWaiters hR ⊢
      omega
    · obtain ⟨u, hu⟩ := hWoken hFree hSome
      have hNe : u ≠ t := by
        rintro rfl
        rw [hu] at hWriter
        cases hWriter
      exact ⟨u, by simp only [Function.update_of_ne hNe, hu]⟩
    · have hFree : s.accessCount = 0 := hFree
      have hNone : s.writerWaiting = 0 := hNone
      omega
  · obtain ⟨hW, hR⟩ := asking_update s.status t .running
    rw [not_or, not_not] at hBarred
    obtain ⟨hNonneg, hNone⟩ := hBarred
    have hSum := readers_update s.currentReaders t 1
    have hNot : s.accessCount + 1 ≠ 0 := by omega
    rw [if_neg (by omega)]
    refine ⟨.inl ⟨?_, ?_⟩, ?_, ?_, fun u hu => ?_, fun hFree => absurd hFree hNot,
      fun hFree => absurd hFree hNot⟩
    · rcases hAccess with ⟨hNoWriter, -⟩ | ⟨-, hTaken, -⟩
      · exact hNoWriter
      · omega
    · simp only [readers] at hAccess hSum ⊢
      omega
    · simp only [writersAsking, Status.asWriter] at hWriters hW hWriter ⊢
      omega
    · simp only [readersAsking, Status.asReader] at hWaiters hR ⊢
      omega
    · by_cases hEq : u = t
      · subst hEq
        exact Function.update_self _ _ _
      · have hu : Function.update s.currentReaders t 1 u ≠ 0 := hu
        rw [Function.update_of_ne hEq] at hu
        show Function.update s.status t .running u = .running
        rw [Function.update_of_ne hEq]
        exact hRunning u hu

/-- Who frees the lock wakes a writer, or all readers where no writer waits. -/
theorem invariant_wake {woken : Option τ}
    (hAccess : s.writer = none ∧ s.accessCount = readers s ∨
      s.writer.isSome = true ∧ s.accessCount = -1 ∧ readers s = 0)
    (hWriters : s.writerWaiting = writersAsking s) (hWaiters : s.readerWaiting = readersAsking s)
    (hRunning : ∀ u, s.currentReaders u ≠ 0 → s.status u = .running) (hWakes : Wakes s woken) :
    Invariant (s.wake woken) := by
  unfold State.wake
  by_cases hSome : s.writerWaiting ≠ 0
  · rw [if_pos hSome]
    cases woken with
    | none =>
      refine ⟨hAccess, hWriters, hWaiters, hRunning, fun _ _ => ?_, fun _ hNone => absurd hNone hSome⟩
      have hSum : ∑ u, (s.status u).asWriter ≠ 0 := by
        simp only [writersAsking] at hWriters
        omega
      obtain ⟨u, -, hu⟩ := Finset.exists_ne_zero_of_sum_ne_zero hSum
      refine ⟨u, ?_⟩
      have hNot := hWakes u
      cases hAt : s.status u with
      | wokenWrite => rfl
      | waitsWrite => exact absurd hAt hNot
      | _ =>
        rw [hAt] at hu
        exact absurd rfl hu
    | some w =>
      have hWakes : s.status w = .waitsWrite := hWakes
      obtain ⟨hW, hR⟩ := asking_update s.status w .wokenWrite
      rw [hWakes] at hW hR
      refine ⟨hAccess, ?_, ?_, fun u hu => ?_, fun _ _ => ⟨w, Function.update_self _ _ _⟩,
        fun _ hNone => absurd hNone hSome⟩
      · simp only [writersAsking, Status.asWriter] at hWriters hW ⊢
        omega
      · simp only [readersAsking, Status.asReader] at hWaiters hR ⊢
        omega
      · have hNe : u ≠ w := by
          rintro rfl
          rw [hRunning u hu] at hWakes
          cases hWakes
        show Function.update s.status w .wokenWrite u = .running
        rw [Function.update_of_ne hNe]
        exact hRunning u hu
  · have hNone : s.writerWaiting = 0 := not_not.mp hSome
    rw [if_neg hSome]
    by_cases hReaders : s.readerWaiting ≠ 0
    · rw [if_pos hReaders]
      have hSame : ∀ u, (if s.status u = .waitsRead then Status.wokenRead else s.status u).asWriter =
          (s.status u).asWriter ∧
          (if s.status u = .waitsRead then Status.wokenRead else s.status u).asReader =
            (s.status u).asReader := by
        intro u
        cases s.status u <;> exact ⟨rfl, rfl⟩
      refine ⟨hAccess, ?_, ?_, fun u hu => ?_, fun _ hNot => absurd hNone hNot, fun _ _ u hu => ?_⟩
      · simp only [writersAsking, (hSame _).1] at hWriters ⊢
        exact hWriters
      · simp only [readersAsking, (hSame _).2] at hWaiters ⊢
        exact hWaiters
      · show (if s.status u = .waitsRead then Status.wokenRead else s.status u) = .running
        rw [hRunning u hu]
        rfl
      · revert hu
        show (if s.status u = .waitsRead then Status.wokenRead else s.status u) ≠ .waitsRead
        cases s.status u <;> nofun
    · rw [if_neg hReaders]
      refine ⟨hAccess, hWriters, hWaiters, hRunning, fun _ hNot => absurd hNone hNot,
        fun _ _ u hu => ?_⟩
      have hLe : (s.status u).asReader ≤ readersAsking s := le_sum s.status Status.asReader u
      rw [hu] at hLe
      simp only [Status.asReader] at hLe
      omega

namespace Invariant

theorem lockForRead (h : Invariant s) (hRunning : s.status t = .running) :
    Invariant (s.lockForRead t) := by
  rw [State.lockForRead]
  by_cases hReading : s.currentReaders t ≠ 0
  · have hSum := readers_update s.currentReaders t (s.currentReaders t + 1)
    have hLe : s.currentReaders t ≤ readers s := le_sum s.currentReaders id t
    have hAccess := h.access
    have hNot : s.accessCount + 1 ≠ 0 := by omega
    rw [if_pos hReading]
    refine ⟨.inl ⟨?_, ?_⟩, h.writers, h.waiters, fun u hu => ?_, fun hFree => absurd hFree hNot,
      fun hFree => absurd hFree hNot⟩
    · rcases hAccess with ⟨hNoWriter, -⟩ | ⟨-, -, hNone⟩
      · exact hNoWriter
      · omega
    · simp only [readers] at hAccess hSum hLe ⊢
      omega
    · by_cases hEq : u = t
      · subst hEq
        exact hRunning
      · have hu : Function.update s.currentReaders t (s.currentReaders t + 1) u ≠ 0 := hu
        rw [Function.update_of_ne hEq] at hu
        exact h.running u hu
  · rw [if_neg hReading]
    refine (h.counted hRunning (not_not.mp hReading)).awaitRead ?_ h.freeWriter
    rw [hRunning]
    rfl

theorem unlock (h : Invariant s) {woken : Option τ}
    (hHolds : s.currentReaders t ≠ 0 ∨ s.writer = some t) (hWakes : Wakes s woken) :
    Invariant (s.unlock t woken) := by
  have hLe : s.currentReaders t ≤ readers s := le_sum s.currentReaders id t
  rw [State.unlock]
  rcases h.access with ⟨hNoWriter, hCount⟩ | ⟨-, hTaken, hNone⟩
  · have hReading : s.currentReaders t ≠ 0 := hHolds.resolve_right (by simp [hNoWriter])
    have hSum := readers_update s.currentReaders t (s.currentReaders t - 1)
    have hCount' : s.accessCount - 1 =
        (∑ u, Function.update s.currentReaders t (s.currentReaders t - 1) u : Nat) := by
      simp only [readers] at hCount
      omega
    have hRunning : ∀ u, Function.update s.currentReaders t (s.currentReaders t - 1) u ≠ 0 →
        s.status u = .running := by
      intro u hu
      by_cases hEq : u = t
      · subst hEq
        exact h.running u hReading
      · rw [Function.update_of_ne hEq] at hu
        exact h.running u hu
    rw [if_pos (by omega)]
    by_cases hFree : s.accessCount - 1 = 0
    · rw [if_pos hFree]
      exact invariant_wake (.inl ⟨hNoWriter, hCount'⟩) h.writers h.waiters hRunning hWakes
    · rw [if_neg hFree]
      exact ⟨.inl ⟨hNoWriter, hCount'⟩, h.writers, h.waiters, hRunning, fun hNot => absurd hNot hFree,
        fun hNot => absurd hNot hFree⟩
  · have hFree : s.accessCount + 1 = 0 := by omega
    rw [if_neg (by omega), if_pos (by omega), if_pos hFree]
    refine invariant_wake (.inl ⟨rfl, ?_⟩) h.writers h.waiters h.running hWakes
    show s.accessCount + 1 = readers s
    omega

omit [DecidableEq τ] in
theorem idle_of_not_running (h : Invariant s) (hNot : s.status t ≠ .running) :
    s.currentReaders t = 0 := by
  by_contra hReading
  exact hNot (h.running t hReading)

theorem step (h : Invariant s) {a : Action τ} {s' : State τ}
    (hStep : ExtReadWriteLock.step s a = some s') : Invariant s' := by
  cases a with
  | lockForWrite t =>
    simp only [ExtReadWriteLock.step, Option.ite_none_right_eq_some, Option.some.injEq] at hStep
    obtain ⟨⟨hRunning, hIdle⟩, rfl⟩ := hStep
    refine (h.counted hRunning hIdle).lockForWrite ?_
    rw [hRunning]
    rfl
  | lockForRead t =>
    simp only [ExtReadWriteLock.step, Option.ite_none_right_eq_some, Option.some.injEq] at hStep
    obtain ⟨hRunning, rfl⟩ := hStep
    exact h.lockForRead hRunning
  | unlock t woken =>
    simp only [ExtReadWriteLock.step, Option.ite_none_right_eq_some, Option.some.injEq] at hStep
    obtain ⟨⟨-, hHolds, hWakes⟩, rfl⟩ := hStep
    exact h.unlock hHolds hWakes
  | resume t =>
    simp only [ExtReadWriteLock.step] at hStep
    split at hStep
    · rename_i hWoken
      cases hStep
      have hIdle := h.idle_of_not_running (t := t) (by simp [hWoken])
      refine Counted.lockForWrite ⟨h.access, ?_, ?_, h.running, hIdle⟩ (by simp only [hWoken]; rfl)
      · simp only [hWoken, Status.asWriter]
        have := h.writers
        simp only [writersAsking] at this ⊢
        omega
      · simp only [hWoken, Status.asReader]
        have := h.waiters
        simp only [readersAsking] at this ⊢
        omega
    · rename_i hWoken
      cases hStep
      have hIdle := h.idle_of_not_running (t := t) (by simp [hWoken])
      refine Counted.awaitRead ⟨h.access, ?_, ?_, h.running, hIdle⟩ (by simp only [hWoken]; rfl)
        h.freeWriter
      · simp only [hWoken, Status.asWriter]
        have := h.writers
        simp only [writersAsking] at this ⊢
        omega
      · simp only [hWoken, Status.asReader]
        have := h.waiters
        simp only [readersAsking] at this ⊢
        omega
    · cases hStep

/-- Where the lock is free and somebody waits, a thread that has been woken will be let in. -/
theorem proceeds (h : Invariant s) (hFree : s.accessCount = 0) (hAsks : s.status t ≠ .running) :
    ∃ u s', (s.status u = .wokenWrite ∨ s.status u = .wokenRead) ∧
      ExtReadWriteLock.step s (.resume u) = some s' ∧ s'.status u = .running := by
  by_cases hWriters : s.writerWaiting = 0
  · have hReader : s.status t = .wokenRead := by
      have hNone : (s.status t).asWriter = 0 := by
        have hLe : (s.status t).asWriter ≤ writersAsking s := le_sum s.status Status.asWriter t
        have := h.writers
        omega
      have hNot := h.freeReader hFree hWriters t
      cases hAt : s.status t with
      | running => exact absurd hAt hAsks
      | wokenRead => rfl
      | waitsRead => exact absurd hAt hNot
      | waitsWrite | wokenWrite =>
        rw [hAt] at hNone
        cases hNone
    refine ⟨t, _, .inr hReader, by rw [ExtReadWriteLock.step, hReader], ?_⟩
    have hOpen : ¬(s.accessCount < 0 ∨ s.writerWaiting ≠ 0) := by omega
    simp only [State.awaitRead, if_neg hOpen, Function.update_self]
  · obtain ⟨u, hu⟩ := h.freeWriter hFree hWriters
    refine ⟨u, _, .inl hu, by rw [ExtReadWriteLock.step, hu], ?_⟩
    simp only [State.lockForWrite, if_neg (not_not.mpr hFree), Function.update_self]

end Invariant

/-- The lock counts its holders, keeps readers and a writer apart, lets a reader in again at once, and
loses no wake-up. -/
theorem lock_correct {actions : List (Action τ)} {s : State τ}
    (hRun : Runs.run step init actions = some s) :
    (s.writer = none ∧ s.accessCount = ∑ t, s.currentReaders t ∨
      ∃ w, s.writer = some w ∧ s.accessCount = -1 ∧ ∀ t, s.currentReaders t = 0) ∧
    (∀ t, s.currentReaders t ≠ 0 → s.status t = .running ∧
      ∃ s', step s (.lockForRead t) = some s' ∧ s'.status t = .running ∧
        s'.currentReaders t = s.currentReaders t + 1) ∧
    (s.accessCount = 0 → (∃ t, s.status t ≠ .running) →
      ∃ u s', (s.status u = .wokenWrite ∨ s.status u = .wokenRead) ∧
        step s (.resume u) = some s' ∧ s'.status u = .running) := by
  have h : Invariant s :=
    Runs.invariant_of_forall (fun h hStep => Invariant.step h hStep) invariant_init hRun
  refine ⟨?_, fun t hReading => ?_, fun hFree ⟨t, hAsks⟩ => h.proceeds hFree hAsks⟩
  · rcases h.access with ⟨hNoWriter, hCount⟩ | ⟨hWriter, hTaken, hNone⟩
    · exact .inl ⟨hNoWriter, hCount.trans (by simp [readers])⟩
    · obtain ⟨w, hw⟩ := Option.isSome_iff_exists.mp hWriter
      refine .inr ⟨w, hw, hTaken, fun t => ?_⟩
      exact Finset.sum_eq_zero_iff.mp hNone t (Finset.mem_univ t)
  · have hRunning := h.running t hReading
    refine ⟨hRunning, _, if_pos hRunning, ?_⟩
    simp only [State.lockForRead, if_pos hReading, Function.update_self]
    exact ⟨hRunning, trivial⟩

/-- Two threads read, a third waits to write and is let in behind them. -/
theorem lock_correct_three :
    let actions : List (Action (Fin 3)) := [.lockForRead 0, .lockForRead 1, .lockForWrite 2,
      .lockForRead 0, .unlock 0 (some 2), .unlock 0 (some 2), .unlock 1 (some 2)]
    ∃ s, Runs.run step init actions = some s ∧ s.accessCount = 0 ∧ ∃ u s',
      (s.status u = .wokenWrite ∨ s.status u = .wokenRead) ∧ step s (.resume u) = some s' ∧
        s'.status u = .running := by
  intro actions
  have hSome : (Runs.run step init actions).isSome = true := by decide
  obtain ⟨s, hRun⟩ := Option.isSome_iff_exists.mp hSome
  have hEnd : (Runs.run step init actions).map (fun s => (s.accessCount, s.status 2)) =
      some (0, .wokenWrite) := by decide
  rw [hRun, Option.map_some, Option.some.injEq, Prod.mk.injEq] at hEnd
  obtain ⟨hFree, hWoken⟩ := hEnd
  exact ⟨s, hRun, hFree, (lock_correct hRun).2.2 hFree ⟨2, by rw [hWoken]; decide⟩⟩

end Soprano.Util.ExtReadWriteLock
