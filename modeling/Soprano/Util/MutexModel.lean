import Soprano.Util.ExtReadWriteLock

/-! `MutexModel` and the iterators that it returns.  An operation of the model takes its lock and calls the
parent in one step, or waits for the lock, and comes back in a later step; threads act in any order. -/

namespace Soprano.Util.MutexModel

open ExtReadWriteLock (Wakes)

inductive ProtectionMode
  | PlainMultiThreading
  | ReadWriteMultiThreading
  | ReadWriteSingleThreading
  deriving DecidableEq

variable {τ : Type}

/-- `MutexModel::Private`. An iterator in `openIterators` is named by the number of its shared data, and
`m_mutex` is the thread that has locked it. -/
structure Private (τ : Type) where
  openIterators : List Nat
  m_msLock : ExtReadWriteLock.State τ
  m_mutex : Option τ
  m_protectionMode : ProtectionMode

namespace Private

variable [DecidableEq τ] (d : Private τ) (t : τ)

/-- `m_mutex.lock`, and whether it comes back. -/
def lockMutex : Private τ × Bool :=
  match d.m_mutex with
  | none => ({ d with m_mutex := some t }, true)
  | some _ => (d, false)

/-- A function of `m_msLock` was called, and came back unless the thread waits. -/
def within (lock : ExtReadWriteLock.State τ) : Private τ × Bool :=
  ({ d with m_msLock := lock }, decide (lock.status t = .running))

def lockForWrite : Private τ × Bool :=
  match d.m_protectionMode with
  | .PlainMultiThreading => d.lockMutex t
  | .ReadWriteMultiThreading => d.within t (d.m_msLock.lockForWrite t)
  | .ReadWriteSingleThreading => (d, true)

def lockForRead : Private τ × Bool :=
  match d.m_protectionMode with
  | .PlainMultiThreading => d.lockMutex t
  | .ReadWriteMultiThreading => d.within t (d.m_msLock.lockForRead t)
  | .ReadWriteSingleThreading => (d, true)

def unlock (woken : Option τ) : Private τ :=
  match d.m_protectionMode with
  | .PlainMultiThreading => { d with m_mutex := none }
  | .ReadWriteMultiThreading => { d with m_msLock := d.m_msLock.unlock t woken }
  | .ReadWriteSingleThreading => d

/-- A thread that waits in `lockForWrite` or `lockForRead` tries again. -/
def retry (write : Bool) : Option (Private τ × Bool) :=
  match d.m_protectionMode with
  | .PlainMultiThreading => some (d.lockMutex t)
  | .ReadWriteMultiThreading =>
    match write, d.m_msLock.status t with
    | true, .wokenWrite =>
      let lock := { d.m_msLock with writerWaiting := d.m_msLock.writerWaiting - 1 }
      some (d.within t (lock.lockForWrite t))
    | false, .wokenRead =>
      let lock := { d.m_msLock with readerWaiting := d.m_msLock.readerWaiting - 1 }
      some (d.within t (lock.awaitRead t))
    | _, _ => none
  | .ReadWriteSingleThreading => none

end Private

/-- The operations of the model, each of which takes a lock and calls the parent. -/
inductive Operation
  | addStatement
  | removeStatement
  | removeAllStatements
  | listStatements
  | listContexts
  | executeQuery
  | containsStatement
  | containsAnyStatement
  | isEmpty
  | statementCount
  deriving DecidableEq

def Operation.isWrite : Operation → Bool
  | .addStatement | .removeStatement | .removeAllStatements => true
  | _ => false

def Operation.returnsIterator : Operation → Bool
  | .listStatements | .listContexts | .executeQuery => true
  | _ => false

/-- The backend of an iterator of the model: whether `m_model` is set, whether `m_iterator` was closed, and
the thread that has opened it. -/
structure MutexIteratorBase (τ : Type) where
  m_model : Bool
  closed : Bool
  opener : τ

/-- `calls` has the operation that a thread is in, and whether it has the lock. `privates` has the backend
of each `Iterator::Private`, if it is not 0, and `iterators` the shared data that each iterator points to,
unless it was destroyed. `released` records the calls of `removeIterator`, and whether the model was gone
then; `asserted` is whether every `Q_ASSERT` held. -/
structure State (τ : Type) where
  d : Private τ
  gone : Bool
  calls : τ → Option (Operation × Bool)
  privates : Nat → Option (MutexIteratorBase τ)
  created : Nat
  iterators : List (Option Nat)
  released : List (Nat × Bool)
  asserted : Bool

def init (mode : ProtectionMode) : State τ where
  d := ⟨[], ExtReadWriteLock.init, none, mode⟩
  gone := false
  calls := fun _ => none
  privates := fun _ => none
  created := 0
  iterators := []
  released := []
  asserted := true

/-- An operation is called, or an iterator is used; `woken` is as in `ExtReadWriteLock`. The parent's operation
has returned in `finish`, with a valid iterator or not, and `haveNext` is what its iterator's `next` gives. -/
inductive Action (τ : Type)
  | call (t : τ) (op : Operation)
  | retry (t : τ)
  | finish (t : τ) (valid : Bool) (woken : Option τ)
  | next (t : τ) (it : Nat) (haveNext : Bool) (woken : Option τ)
  | close (t : τ) (it : Nat) (woken : Option τ)
  | copy (t : τ) (it : Nat)
  | assign (t : τ) (target source : Nat) (woken : Option τ)
  | destroy (t : τ) (it : Nat) (woken : Option τ)
  | destroyModel

variable [Fintype τ] [DecidableEq τ]

namespace State

variable (s : State τ) (t : τ) (woken : Option τ)

/-- The lock was called for; `lockForWrite` asserts behind it. -/
def enter (op : Operation) (lock : Private τ × Bool) : State τ :=
  { s with
    d := lock.1
    calls := Function.update s.calls t (some (op, lock.2))
    asserted := s.asserted && (!(op.isWrite && lock.2) || lock.1.openIterators.isEmpty) }

def removeIterator (p : Nat) : State τ :=
  { s with
    d := { s.d with openIterators := s.d.openIterators.filter (· != p) }.unlock t woken
    released := s.released ++ [(p, s.gone)]
    asserted := s.asserted && s.d.openIterators.contains p }

/-- `MutexIteratorBase::remove`. A thread only ends what it has opened. -/
def remove (p : Nat) : Option (State τ) :=
  match s.privates p with
  | some it =>
    if it.m_model then
      if it.opener = t ∧ Wakes s.d.m_msLock woken then
        let s := s.removeIterator t woken p
        some { s with privates := Function.update s.privates p (some { it with m_model := false }) }
      else none
    else some s
  | none => some s

/-- `Iterator::close`. -/
def close (p : Nat) : Option (State τ) :=
  match s.privates p with
  | some it =>
    State.remove
      { s with privates := Function.update s.privates p (some { it with closed := true }) } t woken p
  | none => some s

/-- `Iterator::Private::~Private`, behind which the backend removes itself too. -/
def destruct (p : Nat) : Option (State τ) := (s.close t woken p).bind (·.remove t woken p)

instance lawfulBEq_iterator : LawfulBEq (Option Nat) := inferInstance

/-- A handle no longer points to the data. -/
def deref (p : Nat) : Option (State τ) :=
  if some p ∈ s.iterators then some s else s.destruct t woken p

/-- The rest of an operation, behind the call of the parent. -/
def finish (op : Operation) (valid : Bool) : State τ :=
  let s := { s with calls := Function.update s.calls t none }
  if op.returnsIterator then
    let s := { s with created := s.created + 1, iterators := s.iterators ++ [some s.created] }
    if valid then
      { s with
        d := { s.d with openIterators := s.d.openIterators ++ [s.created - 1] }
        privates := Function.update s.privates (s.created - 1) (some ⟨true, false, t⟩) }
    else { s with d := s.d.unlock t woken }
  else { s with d := s.d.unlock t woken }

/-- `~MutexModel`. -/
def destroyModel : State τ :=
  { s with
    gone := true
    privates := fun p =>
      if p ∈ s.d.openIterators then (s.privates p).map ({ · with m_model := false }) else s.privates p
    d := { s.d with openIterators := [] } }

end State

/-- The model is not called behind its destruction, and not destroyed while it is called. -/
def step (s : State τ) : Action τ → Option (State τ)
  | .call t op =>
    if s.calls t = none ∧ s.gone = false then
      some (s.enter t op (if op.isWrite then s.d.lockForWrite t else s.d.lockForRead t))
    else none
  | .retry t =>
    match s.calls t with
    | some (op, false) => (s.d.retry t op.isWrite).map (s.enter t op)
    | _ => none
  | .finish t valid woken =>
    match s.calls t with
    | some (op, true) =>
      if Wakes s.d.m_msLock woken then some (s.finish t woken op valid) else none
    | _ => none
  | .next t it haveNext woken =>
    match s.calls t, s.iterators[it]? with
    | none, some (some p) => if haveNext then some s else s.close t woken p
    | _, _ => none
  | .close t it woken =>
    match s.calls t, s.iterators[it]? with
    | none, some (some p) => s.close t woken p
    | _, _ => none
  | .copy t it =>
    match s.calls t, s.iterators[it]? with
    | none, some (some p) => some { s with iterators := s.iterators ++ [some p] }
    | _, _ => none
  | .assign t target source woken =>
    match s.calls t, s.iterators[target]?, s.iterators[source]? with
    | none, some (some old), some (some p) =>
      State.deref { s with iterators := s.iterators.set target (some p) } t woken old
    | _, _, _ => none
  | .destroy t it woken =>
    match s.calls t, s.iterators[it]? with
    | none, some (some p) => State.deref { s with iterators := s.iterators.set it none } t woken p
    | _, _ => none
  | .destroyModel =>
    if (∀ t, s.calls t = none) ∧ s.gone = false then some s.destroyModel else none

/-! ### What the locks count -/

/-- The lock is held by the threads in `readers`, so often as they say, or by `writer`, and a thread that
waits for a read lock has none. -/
structure Counts (lock : ExtReadWriteLock.State τ) (readers : τ → Nat) (writer : Option τ) : Prop where
  reads : lock.currentReaders = readers
  writes : lock.writer = writer
  access : writer = none ∧ lock.accessCount = (∑ t, readers t : Nat) ∨
    writer.isSome = true ∧ lock.accessCount = -1 ∧ ∀ t, readers t = 0
  waits : ∀ u, (lock.status u).asReader ≠ 0 → readers u = 0

namespace Counts

variable {lock : ExtReadWriteLock.State τ} {t u : τ} {readers : τ → Nat} {writer woken : Option τ}

omit [DecidableEq τ] in
theorem noReader (h : Counts lock readers writer) (hFree : lock.accessCount = 0) :
    writer = none ∧ ∀ u, readers u = 0 := by
  rcases h.access with ⟨hNone, hCount⟩ | ⟨-, hTaken, -⟩
  · refine ⟨hNone, fun u => ?_⟩
    have hLe := ExtReadWriteLock.le_sum readers id u
    simp only [id] at hLe
    omega
  · omega

omit [Fintype τ] in
theorem waits_update (h : ∀ u, (lock.status u).asReader ≠ 0 → readers u = 0)
    {status : ExtReadWriteLock.Status} (hStatus : status.asReader ≠ 0 → readers t = 0) (u : τ)
    (hu : (Function.update lock.status t status u).asReader ≠ 0) : readers u = 0 := by
  by_cases hEq : u = t
  · subst hEq
    rw [Function.update_self] at hu
    exact hStatus hu
  · rw [Function.update_of_ne hEq] at hu
    exact h u hu

omit [Fintype τ] in
/-- A thread that does not wait may get or give back read locks. -/
theorem waits_update_readers (h : ∀ u, (lock.status u).asReader ≠ 0 → readers u = 0)
    (hRunning : lock.status t = .running) (n : Nat) (u : τ) (hu : (lock.status u).asReader ≠ 0) :
    Function.update readers t n u = 0 := by
  have hNe : u ≠ t := by
    rintro rfl
    rw [hRunning] at hu
    exact hu rfl
  rw [Function.update_of_ne hNe]
  exact h u hu

theorem lockForWrite (h : Counts lock readers writer) (t : τ) :
    if (lock.lockForWrite t).status t = .running then
      writer = none ∧ (∀ u, readers u = 0) ∧ Counts (lock.lockForWrite t) readers (some t)
    else Counts (lock.lockForWrite t) readers writer := by
  rw [ExtReadWriteLock.State.lockForWrite]
  by_cases hTaken : lock.accessCount ≠ 0
  · simp only [if_pos hTaken, Function.update_self]
    rw [if_neg (by decide)]
    exact ⟨h.reads, h.writes, h.access, waits_update h.waits (absurd rfl)⟩
  · have hFree : lock.accessCount = 0 := not_not.mp hTaken
    obtain ⟨hNone, hReaders⟩ := h.noReader hFree
    simp only [if_neg hTaken, Function.update_self, if_true]
    refine ⟨hNone, hReaders, h.reads, rfl, .inr ⟨rfl, ?_, hReaders⟩, fun u _ => hReaders u⟩
    simp only
    omega

theorem awaitRead (h : Counts lock readers writer) (hNot : readers t = 0) :
    if (lock.awaitRead t).status t = .running then
      Counts (lock.awaitRead t) (Function.update readers t (readers t + 1)) writer
    else Counts (lock.awaitRead t) readers writer := by
  rw [ExtReadWriteLock.State.awaitRead]
  by_cases hBarred : lock.accessCount < 0 ∨ lock.writerWaiting ≠ 0
  · simp only [if_pos hBarred, Function.update_self]
    rw [if_neg (by decide)]
    exact ⟨h.reads, h.writes, h.access, waits_update h.waits fun _ => hNot⟩
  · have hSum := ExtReadWriteLock.readers_update readers t (readers t + 1)
    simp only [if_neg hBarred, Function.update_self, if_true]
    refine ⟨by rw [h.reads, hNot], h.writes, .inl ?_, fun u hu => ?_⟩
    · rcases h.access with ⟨hNone, hCount⟩ | ⟨-, hTaken, -⟩
      · refine ⟨hNone, ?_⟩
        simp only
        omega
      · omega
    · simp only at hu
      by_cases hEq : u = t
      · subst hEq
        rw [Function.update_self] at hu
        exact absurd rfl hu
      · rw [Function.update_of_ne hEq] at hu ⊢
        exact h.waits u hu

theorem lockForRead (h : Counts lock readers writer) (hRunning : lock.status t = .running) :
    if (lock.lockForRead t).status t = .running then
      Counts (lock.lockForRead t) (Function.update readers t (readers t + 1)) writer
    else Counts (lock.lockForRead t) readers writer := by
  rw [ExtReadWriteLock.State.lockForRead]
  by_cases hReading : lock.currentReaders t ≠ 0
  · have hSum := ExtReadWriteLock.readers_update readers t (readers t + 1)
    simp only [if_pos hReading, hRunning, if_true]
    refine ⟨by rw [h.reads], h.writes, .inl ?_, waits_update_readers h.waits hRunning _⟩
    rcases h.access with ⟨hNone, hCount⟩ | ⟨-, -, hNoReader⟩
    · refine ⟨hNone, ?_⟩
      simp only
      omega
    · rw [h.reads] at hReading
      exact absurd (hNoReader t) hReading
  · rw [if_neg hReading]
    rw [h.reads, not_not] at hReading
    exact h.awaitRead hReading

omit [Fintype τ] in
/-- Who is not in a wait is not woken. -/
theorem status_wake (hWakes : Wakes lock woken) (hRunning : lock.status u = .running) :
    (lock.wake woken).status u = .running := by
  unfold ExtReadWriteLock.State.wake
  split
  · cases woken with
    | none => exact hRunning
    | some w =>
      have hWakes : lock.status w = .waitsWrite := hWakes
      have hNe : u ≠ w := by
        rintro rfl
        rw [hRunning] at hWakes
        cases hWakes
      exact (Function.update_of_ne hNe _ _).trans hRunning
  · split
    · simp only [hRunning]
      rfl
    · exact hRunning

theorem wake (h : Counts lock readers writer) (woken : Option τ) :
    Counts (lock.wake woken) readers writer := by
  unfold ExtReadWriteLock.State.wake
  split
  · split
    · exact ⟨h.reads, h.writes, h.access, waits_update h.waits (absurd rfl)⟩
    · exact h
  · split
    · refine ⟨h.reads, h.writes, h.access, fun u hu => h.waits u ?_⟩
      have hu : (if lock.status u = .waitsRead then .wokenRead else lock.status u).asReader ≠ 0 := hu
      split at hu
      · rename_i hAt
        rw [hAt]
        decide
      · exact hu
    · exact h

theorem unlock_read (h : Counts lock readers writer) (hRunning : lock.status t = .running)
    (hReading : readers t ≠ 0) :
    Counts (lock.unlock t woken) (Function.update readers t (readers t - 1)) writer := by
  rw [ExtReadWriteLock.State.unlock]
  rcases h.access with ⟨hNone, hCount⟩ | ⟨-, -, hNoReader⟩
  · have hSum := ExtReadWriteLock.readers_update readers t (readers t - 1)
    have hLe := ExtReadWriteLock.le_sum readers id t
    simp only [id] at hLe
    have hCounts : Counts { lock with
        accessCount := lock.accessCount - 1
        currentReaders := Function.update lock.currentReaders t (lock.currentReaders t - 1) }
        (Function.update readers t (readers t - 1)) writer := by
      refine ⟨by rw [h.reads], h.writes, .inl ⟨hNone, ?_⟩, waits_update_readers h.waits hRunning _⟩
      simp only
      omega
    rw [if_pos (by omega)]
    by_cases hLast : lock.accessCount - 1 = 0
    · rw [if_pos hLast]
      exact hCounts.wake woken
    · rw [if_neg hLast]
      exact hCounts
  · exact absurd (hNoReader t) hReading

theorem unlock_write (h : Counts lock readers (some t)) : Counts (lock.unlock t woken) readers none := by
  rw [ExtReadWriteLock.State.unlock]
  rcases h.access with ⟨hNone, -⟩ | ⟨-, hTaken, hNoReader⟩
  · cases hNone
  · have hSum : ∑ u, readers u = 0 := Finset.sum_eq_zero fun u _ => hNoReader u
    have hFree : lock.accessCount + 1 = 0 := by omega
    have hCounts : Counts { lock with accessCount := lock.accessCount + 1, writer := none } readers
        none := by
      refine ⟨h.reads, rfl, .inl ⟨rfl, ?_⟩, h.waits⟩
      simp only
      omega
    rw [if_neg (by omega), if_pos (by omega), if_pos hFree]
    exact hCounts.wake woken

omit [Fintype τ] in
theorem status_unlock (hWakes : Wakes lock woken) (hRunning : lock.status u = .running) :
    (lock.unlock t woken).status u = .running := by
  have hBoth : ∀ {l : ExtReadWriteLock.State τ}, l.status = lock.status →
      (if l.accessCount = 0 then l.wake woken else l).status u = .running := by
    intro l hStatus
    have hAt : l.status u = .running := by rw [hStatus]; exact hRunning
    have hWakes : Wakes l woken := by
      cases woken <;> simpa only [Wakes, hStatus] using hWakes
    split
    · exact status_wake hWakes hAt
    · exact hAt
  rw [ExtReadWriteLock.State.unlock]
  split
  · exact hBoth rfl
  · split
    · exact hBoth rfl
    · exact hRunning

end Counts

/-- The lock of the model, of either kind, is held by `readers` or by `writer`. -/
def Holds (d : Private τ) (readers : τ → Nat) (writer : Option τ) : Prop :=
  match d.m_protectionMode with
  | .PlainMultiThreading =>
    match d.m_mutex with
    | none => writer = none ∧ ∀ u, readers u = 0
    | some t => writer = some t ∧ (∀ u, readers u = 0) ∨
        writer = none ∧ ∀ u, readers u = if u = t then 1 else 0
  | .ReadWriteMultiThreading => Counts d.m_msLock readers writer
  | .ReadWriteSingleThreading => False

/-- The thread is not in a wait of `m_msLock`. -/
def Settled (d : Private τ) (t : τ) : Prop :=
  d.m_protectionMode = .ReadWriteMultiThreading → d.m_msLock.status t = .running

/-- What `t` has behind a call for the lock: the write lock alone, one more read lock, or what it had. -/
def Asked (write : Bool) (t : τ) (lock : Private τ × Bool) (readers : τ → Nat) (writer : Option τ) :
    Prop :=
  if lock.2 then
    if write then writer = none ∧ (∀ u, readers u = 0) ∧ Holds lock.1 readers (some t)
    else Holds lock.1 (Function.update readers t (readers t + 1)) writer
  else Holds lock.1 readers writer

/-- What a call for the lock leaves as it is. -/
structure Frame (t : τ) (d : Private τ) (lock : Private τ × Bool) : Prop where
  openIterators : lock.1.openIterators = d.openIterators
  settled : ∀ u, u ≠ t → Settled d u → Settled lock.1 u
  back : lock.2 = true → Settled lock.1 t

namespace Holds

variable {d : Private τ} {t : τ} {readers : τ → Nat} {writer woken : Option τ}

theorem lockMutex (h : Holds d readers writer) (hMode : d.m_protectionMode = .PlainMultiThreading)
    (t : τ) (write : Bool) :
    Asked write t (d.lockMutex t) readers writer ∧ Frame t d (d.lockMutex t) := by
  have hSettled : ∀ {d : Private τ} u, d.m_protectionMode = .PlainMultiThreading → Settled d u :=
    fun _ hPlain hOther => by rw [hPlain] at hOther; cases hOther
  cases hMutex : d.m_mutex with
  | none =>
    obtain ⟨hNone, hReaders⟩ : writer = none ∧ ∀ u, readers u = 0 := by
      simpa only [Holds, hMode, hMutex] using h
    simp only [Private.lockMutex, hMutex]
    refine ⟨?_, rfl, fun u _ _ => hSettled u hMode, fun _ => hSettled t hMode⟩
    cases write with
    | true =>
      refine ⟨hNone, hReaders, ?_⟩
      simp only [Holds, hMode]
      exact .inl ⟨trivial, hReaders⟩
    | false =>
      show Holds _ _ _
      simp only [Holds, hMode]
      refine .inr ⟨hNone, fun u => ?_⟩
      rw [Function.update_apply, hReaders t, hReaders u]
  | some u =>
    simp only [Private.lockMutex, hMutex]
    exact ⟨h, rfl, fun u _ _ => hSettled u hMode, fun _ => hSettled t hMode⟩

omit [Fintype τ] [DecidableEq τ] in
/-- A function of `m_msLock` that changes the status of its thread only. -/
theorem frame_within {lock : ExtReadWriteLock.State τ}
    (hOther : ∀ u, u ≠ t → lock.status u = d.m_msLock.status u) : Frame t d (d.within t lock) :=
  ⟨rfl, fun u hu hSettled hMode => (hOther u hu).trans (hSettled hMode),
    fun hBack _ => of_decide_eq_true hBack⟩

theorem lockForWrite (h : Holds d readers writer) (t : τ) :
    Asked true t (d.lockForWrite t) readers writer ∧ Frame t d (d.lockForWrite t) := by
  rw [Private.lockForWrite]
  cases hMode : d.m_protectionMode with
  | PlainMultiThreading => exact h.lockMutex hMode t true
  | ReadWriteMultiThreading =>
    simp only [Holds, hMode] at h
    refine ⟨?_, frame_within fun u hu => ?_⟩
    · have hAsked := h.lockForWrite t
      simpa only [Asked, Private.within, decide_eq_true_eq, Holds, hMode, if_true] using hAsked
    · rw [ExtReadWriteLock.State.lockForWrite]
      split <;> exact Function.update_of_ne hu _ _
  | ReadWriteSingleThreading => simp only [Holds, hMode] at h

omit [Fintype τ] in
theorem status_awaitRead {lock : ExtReadWriteLock.State τ} {u : τ} (hu : u ≠ t) :
    (lock.awaitRead t).status u = lock.status u := by
  rw [ExtReadWriteLock.State.awaitRead]
  split <;> exact Function.update_of_ne hu _ _

theorem lockForRead (h : Holds d readers writer) (hSettled : Settled d t) :
    Asked false t (d.lockForRead t) readers writer ∧ Frame t d (d.lockForRead t) := by
  rw [Private.lockForRead]
  cases hMode : d.m_protectionMode with
  | PlainMultiThreading => exact h.lockMutex hMode t false
  | ReadWriteMultiThreading =>
    simp only [Holds, hMode] at h
    refine ⟨?_, frame_within fun u hu => ?_⟩
    · have hAsked := h.lockForRead (hSettled hMode)
      simpa only [Asked, Private.within, decide_eq_true_eq, Holds, hMode, Bool.false_eq_true,
        if_false] using hAsked
    · rw [ExtReadWriteLock.State.lockForRead]
      split
      · rfl
      · exact status_awaitRead hu
  | ReadWriteSingleThreading => simp only [Holds, hMode] at h

theorem retry (h : Holds d readers writer) {write : Bool} {lock : Private τ × Bool}
    (hRetry : d.retry t write = some lock) : Asked write t lock readers writer ∧ Frame t d lock := by
  unfold Private.retry at hRetry
  split at hRetry
  · rename_i hMode
    cases hRetry
    exact h.lockMutex hMode t write
  · rename_i hMode
    simp only [Holds, hMode] at h
    split at hRetry
    · cases hRetry
      refine ⟨?_, frame_within fun u hu => ?_⟩
      · have hLess : Counts { d.m_msLock with writerWaiting := d.m_msLock.writerWaiting - 1 } readers
            writer := ⟨h.reads, h.writes, h.access, h.waits⟩
        have hAsked := hLess.lockForWrite t
        simpa only [Asked, Private.within, decide_eq_true_eq, Holds, hMode, if_true] using hAsked
      · rw [ExtReadWriteLock.State.lockForWrite]
        split <;> exact Function.update_of_ne hu _ _
    · rename_i hWoken
      cases hRetry
      refine ⟨?_, frame_within fun u hu => ?_⟩
      · have hLess : Counts { d.m_msLock with readerWaiting := d.m_msLock.readerWaiting - 1 } readers
            writer := ⟨h.reads, h.writes, h.access, h.waits⟩
        have hAsked := hLess.awaitRead (h.waits t (by rw [hWoken]; decide))
        simpa only [Asked, Private.within, decide_eq_true_eq, Holds, hMode, Bool.false_eq_true,
          if_false] using hAsked
      · exact status_awaitRead hu
    · cases hRetry
  · cases hRetry

theorem unlock_read (h : Holds d readers writer) (hSettled : Settled d t) (hReading : readers t ≠ 0) :
    Holds (d.unlock t woken) (Function.update readers t (readers t - 1)) writer := by
  rw [Private.unlock]
  cases hMode : d.m_protectionMode with
  | PlainMultiThreading =>
    simp only [Holds, hMode] at h ⊢
    split at h
    · exact absurd (h.2 t) hReading
    · rename_i u _
      rcases h with ⟨-, hNone⟩ | ⟨hNone, hOne⟩
      · exact absurd (hNone t) hReading
      · refine ⟨hNone, fun v => ?_⟩
        have hEq : t = u := by
          by_contra hNe
          rw [hOne t, if_neg hNe] at hReading
          exact hReading rfl
        subst hEq
        by_cases hv : v = t
        · rw [hv, Function.update_self, hOne t, if_pos rfl]
        · rw [Function.update_of_ne hv, hOne v, if_neg hv]
  | ReadWriteMultiThreading =>
    simp only [Holds, hMode] at h ⊢
    exact h.unlock_read (hSettled hMode) hReading
  | ReadWriteSingleThreading => simp only [Holds, hMode] at h

theorem unlock_write (h : Holds d readers (some t)) : Holds (d.unlock t woken) readers none := by
  rw [Private.unlock]
  cases hMode : d.m_protectionMode with
  | PlainMultiThreading =>
    simp only [Holds, hMode] at h ⊢
    split at h
    · cases h.1
    · rcases h with ⟨-, hNone⟩ | ⟨hNone, -⟩
      · exact ⟨trivial, hNone⟩
      · cases hNone
  | ReadWriteMultiThreading =>
    simp only [Holds, hMode] at h ⊢
    exact h.unlock_write
  | ReadWriteSingleThreading => simp only [Holds, hMode] at h

/-- No reader is beside a writer. -/
theorem alone (h : Holds d readers (some t)) (u : τ) : readers u = 0 := by
  cases hMode : d.m_protectionMode with
  | PlainMultiThreading =>
    simp only [Holds, hMode] at h
    split at h
    · exact h.2 u
    · rcases h with ⟨-, hNone⟩ | ⟨hNone, -⟩
      · exact hNone u
      · cases hNone
  | ReadWriteMultiThreading =>
    simp only [Holds, hMode] at h
    rcases h.access with ⟨hNone, -⟩ | ⟨-, -, hNone⟩
    · cases hNone
    · exact hNone u
  | ReadWriteSingleThreading => simp only [Holds, hMode] at h

end Holds

omit [Fintype τ] in
theorem settled_unlock {d : Private τ} {t u : τ} {woken : Option τ} (hWakes : Wakes d.m_msLock woken)
    (h : Settled d u) : Settled (d.unlock t woken) u := by
  rw [Private.unlock]
  cases hMode : d.m_protectionMode with
  | ReadWriteMultiThreading => exact fun _ => Counts.status_unlock hWakes (h hMode)
  | PlainMultiThreading | ReadWriteSingleThreading =>
    intro hOther
    simp only [hMode] at hOther
    cases hOther

end Soprano.Util.MutexModel
