import Soprano.Library.Holder
import Soprano.Library.Runs

/-! `MultiMutex`, for any number of threads. Each access of a field or of an inner mutex is a step of
its own. The readers of `mainMutex` may also be held up by a writer that waits, which leaves fewer
steps than there are here. -/

namespace Soprano.Redland.MultiMutex

/-- Where a thread is: outside the functions of the lock, or before one of their statements. That a
thread came to `unlock` with the write lock is known to it alone. -/
inductive Location
  | outside
  /-- `lockForRead`, before `lockMutex.lock()` -/
  | lockForRead
  /-- before the test of `lockingThread` -/
  | testThread
  /-- before `++lockCnt` -/
  | countNested
  /-- before `lockMutex.unlock()` -/
  | leaveNested
  /-- before `lockMutex.unlock()` of the other branch -/
  | leaveOther
  /-- before `readMutex.lock()` -/
  | lockRead
  /-- before `mainMutex.lockForRead()` -/
  | lockMain
  /-- before `lockingThread` is set -/
  | setThread
  /-- before `++lockCnt` of the other branch -/
  | countFirst
  /-- `lockForWrite`, before `mainMutex.lockForWrite()` -/
  | lockForWrite
  /-- before `lockedForWrite` is set -/
  | setWrite
  /-- `unlock`, before `lockMutex.lock()` -/
  | unlock (write : Bool)
  /-- before the test of `lockedForWrite` -/
  | testWrite (write : Bool)
  /-- before `lockedForWrite` is reset -/
  | clearWrite
  /-- before `mainMutex.unlock()` -/
  | unlockWrite
  /-- before the test of `lockingThread` -/
  | testOwner
  /-- before `--lockCnt` and its test -/
  | countDown
  /-- before `lockingThread` is reset -/
  | clearThread
  /-- before `mainMutex.unlock()` -/
  | unlockMain
  /-- before `readMutex.unlock()` -/
  | unlockRead
  /-- before `lockMutex.unlock()` -/
  | leave
  deriving DecidableEq

/-- A thread, with the calls of `lockForRead` that have returned and that it has not unlocked, and
whether it has the write lock. -/
structure Thread where
  location : Location
  reads : Nat
  writes : Bool
  deriving DecidableEq

/-- The owners of the two mutexes, and the count of `mainMutex`: of its readers, or -1 with a writer. -/
structure State (τ : Type) where
  lockMutex : Option τ
  readMutex : Option τ
  mainMutex : Int
  lockingThread : Option τ
  lockCnt : Int
  lockedForWrite : Bool
  threads : τ → Thread

variable {τ : Type} [DecidableEq τ]

omit [DecidableEq τ] in
def init : State τ := ⟨none, none, 0, none, 0, false, fun _ => ⟨.outside, 0, false⟩⟩

namespace State

def set (s : State τ) (t : τ) (thread : Thread) : State τ :=
  { s with threads := Function.update s.threads t thread }

def goto (s : State τ) (t : τ) (location : Location) : State τ :=
  s.set t { s.threads t with location := location }

/-- `QReadWriteLock::unlock` -/
def unlocked (mainMutex : Int) : Int :=
  if 0 < mainMutex then mainMutex - 1 else if mainMutex < 0 then mainMutex + 1 else mainMutex

/-- The next statement of a thread; none where it has to wait, or is outside. -/
def proceed (s : State τ) (t : τ) : Option (State τ) :=
  match (s.threads t).location with
  | .outside => none
  | .lockForRead =>
    if s.lockMutex = none then some ({ s with lockMutex := some t }.goto t .testThread) else none
  | .testThread =>
    some (s.goto t (if s.lockingThread = some t then .countNested else .leaveOther))
  | .countNested => some ({ s with lockCnt := s.lockCnt + 1 }.goto t .leaveNested)
  | .leaveNested =>
    some ({ s with lockMutex := none }.set t
      { s.threads t with location := .outside, reads := (s.threads t).reads + 1 })
  | .leaveOther => some ({ s with lockMutex := none }.goto t .lockRead)
  | .lockRead =>
    if s.readMutex = none then some ({ s with readMutex := some t }.goto t .lockMain) else none
  | .lockMain =>
    if 0 ≤ s.mainMutex then some ({ s with mainMutex := s.mainMutex + 1 }.goto t .setThread) else none
  | .setThread => some ({ s with lockingThread := some t }.goto t .countFirst)
  | .countFirst =>
    some ({ s with lockCnt := s.lockCnt + 1 }.set t
      { s.threads t with location := .outside, reads := (s.threads t).reads + 1 })
  | .lockForWrite =>
    if s.mainMutex = 0 then some ({ s with mainMutex := -1 }.goto t .setWrite) else none
  | .setWrite =>
    some ({ s with lockedForWrite := true }.set t
      { s.threads t with location := .outside, writes := true })
  | .unlock write =>
    if s.lockMutex = none then some ({ s with lockMutex := some t }.goto t (.testWrite write))
    else none
  | .testWrite _ => some (s.goto t (if s.lockedForWrite then .clearWrite else .testOwner))
  | .clearWrite => some ({ s with lockedForWrite := false }.goto t .unlockWrite)
  | .unlockWrite => some ({ s with mainMutex := unlocked s.mainMutex }.goto t .leave)
  | .testOwner => some (s.goto t (if s.lockingThread = some t then .countDown else .leave))
  | .countDown =>
    some ({ s with lockCnt := s.lockCnt - 1 }.goto t
      (if s.lockCnt - 1 = 0 then .clearThread else .leave))
  | .clearThread => some ({ s with lockingThread := none }.goto t .unlockMain)
  | .unlockMain => some ({ s with mainMutex := unlocked s.mainMutex }.goto t .unlockRead)
  | .unlockRead => some ({ s with readMutex := none }.goto t .leave)
  | .leave => some ({ s with lockMutex := none }.goto t .outside)

end State

/-- A thread calls a function of the lock, or goes on in the one that it is in. -/
inductive Action (τ : Type)
  | lockForRead (t : τ)
  | lockForWrite (t : τ)
  | unlock (t : τ)
  | proceed (t : τ)

/-- A thread only unlocks what it has, and asks for no write lock while it has a read lock. With its
call of `unlock` it gives its lock up. -/
def step (s : State τ) : Action τ → Option (State τ)
  | .lockForRead t =>
    if (s.threads t).location = .outside then some (s.goto t .lockForRead) else none
  | .lockForWrite t =>
    if (s.threads t).location = .outside ∧ (s.threads t).reads = 0 then some (s.goto t .lockForWrite)
    else none
  | .unlock t =>
    if (s.threads t).location = .outside then
      if (s.threads t).writes then
        some (s.set t { s.threads t with location := .unlock true, writes := false })
      else if (s.threads t).reads ≠ 0 then
        some (s.set t
          { s.threads t with location := .unlock false, reads := (s.threads t).reads - 1 })
      else none
    else none
  | .proceed t => s.proceed t

/-! ### What a thread has -/

namespace Thread

def hasLockMutex (l : Thread) : Prop :=
  match l.location with
  | .testThread | .countNested | .leaveNested | .leaveOther | .testWrite _ | .clearWrite | .unlockWrite
  | .testOwner | .countDown | .clearThread | .unlockMain | .unlockRead | .leave => True
  | _ => False

/-- The thread has `mainMutex` for reading. -/
def readsMain (l : Thread) : Prop :=
  0 < l.reads ∨
    match l.location with
    | .setThread | .countFirst | .unlock false | .testWrite false | .testOwner | .countDown | .clearThread
    | .unlockMain => True
    | _ => False

def hasReadMutex (l : Thread) : Prop :=
  l.readsMain ∨ l.location = .lockMain ∨ l.location = .unlockRead

/-- The thread is `lockingThread`. -/
def isLocking (l : Thread) : Prop :=
  0 < l.reads ∨
    match l.location with
    | .countFirst | .unlock false | .testWrite false | .testOwner | .countDown | .clearThread => True
    | _ => False

/-- The thread has `mainMutex` for writing. -/
def writesMain (l : Thread) : Prop :=
  l.writes = true ∨
    match l.location with
    | .setWrite | .unlock true | .testWrite true | .clearWrite | .unlockWrite => True
    | _ => False

/-- `lockedForWrite` is set for the thread. -/
def isMarked (l : Thread) : Prop :=
  l.writes = true ∨
    match l.location with
    | .unlock true | .testWrite true | .clearWrite => True
    | _ => False

/-- What `lockCnt` counts for the thread: also a lock that is being counted, or counted down. -/
def count (l : Thread) : Nat :=
  l.reads +
    match l.location with
    | .leaveNested | .unlock false | .testWrite false | .testOwner | .countDown => 1
    | _ => 0

/-- Which locks a thread can have where it is. -/
def Fits (l : Thread) : Prop :=
  match l.location with
  | .outside | .lockForRead | .testThread => l.reads = 0 ∨ l.writes = false
  | .countNested | .leaveNested => 0 < l.reads ∧ l.writes = false
  | .leaveOther | .lockRead | .lockMain | .lockForWrite => l.reads = 0
  | .setThread | .countFirst | .setWrite | .clearThread | .unlockMain | .unlockRead | .clearWrite
  | .unlockWrite | .unlock true | .testWrite true => l.reads = 0 ∧ l.writes = false
  | .unlock false | .testWrite false | .testOwner | .countDown | .leave => l.writes = false

theorem hasReadMutex_of_readsMain {l : Thread} (h : l.readsMain) : l.hasReadMutex := .inl h

theorem readsMain_of_isLocking {l : Thread} (h : l.isLocking) : l.readsMain := by
  rcases h with h | h
  · exact .inl h
  · right
    revert h
    cases l.location with
    | unlock write | testWrite write => cases write <;> exact id
    | setThread | unlockMain => exact False.elim
    | _ => exact id

theorem writesMain_of_isMarked {l : Thread} (h : l.isMarked) : l.writesMain := by
  rcases h with h | h
  · exact .inl h
  · right
    revert h
    cases l.location with
    | unlock write | testWrite write => cases write <;> exact id
    | setWrite | unlockWrite => exact False.elim
    | _ => exact id

end Thread

/-- Who has the main mutex, and how. -/
structure MainHeld (threads : τ → Thread) (reader writer : Option τ) (mainMutex : Int) : Prop where
  reads : Held Thread.readsMain threads reader
  writes : Held Thread.writesMain threads writer
  count : reader = none ∧ writer = none ∧ mainMutex = 0 ∨
    reader.isSome = true ∧ writer = none ∧ mainMutex = 1 ∨
    reader = none ∧ writer.isSome = true ∧ mainMutex = -1

/-- The fields and mutexes agree with where the threads are. -/
structure Invariant (s : State τ) : Prop where
  fits : ∀ t, (s.threads t).Fits
  lockMutex : Held Thread.hasLockMutex s.threads s.lockMutex
  readMutex : Held Thread.hasReadMutex s.threads s.readMutex
  main : ∃ reader writer, MainHeld s.threads reader writer s.mainMutex
  marked : ∃ writer, Held Thread.isMarked s.threads writer ∧ s.lockedForWrite = writer.isSome
  locking : Held Thread.isLocking s.threads s.lockingThread
  counted : ∀ t, (s.threads t).isLocking → s.lockCnt = (s.threads t).count
  free : s.lockingThread = none → s.lockCnt = 0

omit [DecidableEq τ] in
theorem invariant_init : Invariant (init : State τ) := by
  have hNone : ∀ {P : Thread → Prop}, ¬ P ⟨.outside, 0, false⟩ →
      Held P (init : State τ).threads none := fun hNot t => ⟨(by intros; contradiction), fun hP => absurd hP hNot⟩
  have hReads : ¬ Thread.readsMain ⟨.outside, 0, false⟩ := by simp [Thread.readsMain]
  have hWrites : ¬ Thread.writesMain ⟨.outside, 0, false⟩ := by simp [Thread.writesMain]
  have hLocking : ¬ Thread.isLocking ⟨.outside, 0, false⟩ := by simp [Thread.isLocking]
  exact {
    fits := fun t => .inl rfl
    lockMutex := hNone id
    readMutex := hNone (by simp [Thread.hasReadMutex, hReads])
    main := ⟨none, none, hNone hReads, hNone hWrites, .inl ⟨rfl, rfl, rfl⟩⟩
    marked := ⟨none, hNone (by simp [Thread.isMarked]), rfl⟩
    locking := hNone hLocking
    counted := fun t h => absurd h hLocking
    free := fun _ => rfl }

variable {s s' : State τ} {t : τ}

/-- The steps of a thread, each with the branch that the invariant leaves. -/
inductive Moves (s : State τ) (t : τ) : State τ → Prop
  | callRead (hLoc : (s.threads t).location = .outside) : Moves s t (s.goto t .lockForRead)
  | callWrite (hLoc : (s.threads t).location = .outside) (hReads : (s.threads t).reads = 0) :
      Moves s t (s.goto t .lockForWrite)
  | callUnlockWrite (hLoc : (s.threads t).location = .outside) (hWrites : (s.threads t).writes = true) :
      Moves s t (s.set t { s.threads t with location := .unlock true, writes := false })
  | callUnlockRead (hLoc : (s.threads t).location = .outside) (hWrites : (s.threads t).writes = false)
      (hReads : 0 < (s.threads t).reads) :
      Moves s t (s.set t
        { s.threads t with location := .unlock false, reads := (s.threads t).reads - 1 })
  | lockForRead (hLoc : (s.threads t).location = .lockForRead) (hFree : s.lockMutex = none) :
      Moves s t ({ s with lockMutex := some t }.goto t .testThread)
  | testNested (hLoc : (s.threads t).location = .testThread) (hReads : 0 < (s.threads t).reads) :
      Moves s t (s.goto t .countNested)
  | testOther (hLoc : (s.threads t).location = .testThread) (hReads : (s.threads t).reads = 0) :
      Moves s t (s.goto t .leaveOther)
  | countNested (hLoc : (s.threads t).location = .countNested) :
      Moves s t ({ s with lockCnt := s.lockCnt + 1 }.goto t .leaveNested)
  | leaveNested (hLoc : (s.threads t).location = .leaveNested) :
      Moves s t ({ s with lockMutex := none }.set t
        { s.threads t with location := .outside, reads := (s.threads t).reads + 1 })
  | leaveOther (hLoc : (s.threads t).location = .leaveOther) :
      Moves s t ({ s with lockMutex := none }.goto t .lockRead)
  | lockRead (hLoc : (s.threads t).location = .lockRead) (hFree : s.readMutex = none) :
      Moves s t ({ s with readMutex := some t }.goto t .lockMain)
  | lockMain (hLoc : (s.threads t).location = .lockMain) (hFree : 0 ≤ s.mainMutex) :
      Moves s t ({ s with mainMutex := s.mainMutex + 1 }.goto t .setThread)
  | setThread (hLoc : (s.threads t).location = .setThread) :
      Moves s t ({ s with lockingThread := some t }.goto t .countFirst)
  | countFirst (hLoc : (s.threads t).location = .countFirst) :
      Moves s t ({ s with lockCnt := s.lockCnt + 1 }.set t
        { s.threads t with location := .outside, reads := (s.threads t).reads + 1 })
  | lockForWrite (hLoc : (s.threads t).location = .lockForWrite) (hFree : s.mainMutex = 0) :
      Moves s t ({ s with mainMutex := -1 }.goto t .setWrite)
  | setWrite (hLoc : (s.threads t).location = .setWrite) :
      Moves s t ({ s with lockedForWrite := true }.set t
        { s.threads t with location := .outside, writes := true })
  | unlock {write : Bool} (hLoc : (s.threads t).location = .unlock write) (hFree : s.lockMutex = none) :
      Moves s t ({ s with lockMutex := some t }.goto t (.testWrite write))
  | testWriter (hLoc : (s.threads t).location = .testWrite true) : Moves s t (s.goto t .clearWrite)
  | testReader (hLoc : (s.threads t).location = .testWrite false) : Moves s t (s.goto t .testOwner)
  | clearWrite (hLoc : (s.threads t).location = .clearWrite) :
      Moves s t ({ s with lockedForWrite := false }.goto t .unlockWrite)
  | unlockWrite (hLoc : (s.threads t).location = .unlockWrite) :
      Moves s t ({ s with mainMutex := State.unlocked s.mainMutex }.goto t .leave)
  | testOwner (hLoc : (s.threads t).location = .testOwner) : Moves s t (s.goto t .countDown)
  | countLast (hLoc : (s.threads t).location = .countDown) (hReads : (s.threads t).reads = 0) :
      Moves s t ({ s with lockCnt := s.lockCnt - 1 }.goto t .clearThread)
  | countMore (hLoc : (s.threads t).location = .countDown) (hReads : 0 < (s.threads t).reads) :
      Moves s t ({ s with lockCnt := s.lockCnt - 1 }.goto t .leave)
  | clearThread (hLoc : (s.threads t).location = .clearThread) :
      Moves s t ({ s with lockingThread := none }.goto t .unlockMain)
  | unlockMain (hLoc : (s.threads t).location = .unlockMain) :
      Moves s t ({ s with mainMutex := State.unlocked s.mainMutex }.goto t .unlockRead)
  | unlockRead (hLoc : (s.threads t).location = .unlockRead) :
      Moves s t ({ s with readMutex := none }.goto t .leave)
  | leave (hLoc : (s.threads t).location = .leave) :
      Moves s t ({ s with lockMutex := none }.goto t .outside)

namespace Invariant

omit [DecidableEq τ] in
/-- A reader of the main mutex sees `lockedForWrite` reset. -/
theorem notLocked (h : Invariant s) (hReads : (s.threads t).readsMain) : s.lockedForWrite = false := by
  obtain ⟨reader, writer, hReader, hWriter, hCount⟩ := h.main
  obtain ⟨marked, hMarked, hLocked⟩ := h.marked
  have hSome := hReader.eq_of_meets hReads
  rcases hCount with ⟨hNone, -⟩ | ⟨-, rfl, -⟩ | ⟨hNone, -⟩
  · rw [hSome] at hNone
    cases hNone
  · rw [hLocked, hWriter.none_of_none (fun _ => Thread.writesMain_of_isMarked) hMarked]
    rfl
  · rw [hSome] at hNone
    cases hNone

omit [DecidableEq τ] in
/-- Nobody writes while the main mutex is not locked for writing. -/
theorem notWriting (h : Invariant s) (hMain : 0 ≤ s.mainMutex) (t : τ) :
    (s.threads t).writes = false := by
  refine Bool.eq_false_iff.mpr fun hWrites => ?_
  obtain ⟨reader, writer, -, hWriter, hCount⟩ := h.main
  rw [hWriter.eq_of_meets (.inl hWrites)] at hCount
  rcases hCount with ⟨-, hNone, -⟩ | ⟨-, hNone, -⟩ | ⟨-, -, hCount⟩
  · cases hNone
  · cases hNone
  · omega

/-- The inversion of a step. -/
theorem moves (h : Invariant s) {a : Action τ} (hStep : step s a = some s') : ∃ t, Moves s t s' := by
  cases a with
  | lockForRead t =>
    simp only [step, Option.ite_none_right_eq_some, Option.some.injEq] at hStep
    obtain ⟨hLoc, rfl⟩ := hStep
    exact ⟨t, .callRead hLoc⟩
  | lockForWrite t =>
    simp only [step, Option.ite_none_right_eq_some, Option.some.injEq] at hStep
    obtain ⟨⟨hLoc, hReads⟩, rfl⟩ := hStep
    exact ⟨t, .callWrite hLoc hReads⟩
  | unlock t =>
    simp only [step, Option.ite_none_right_eq_some] at hStep
    obtain ⟨hLoc, hStep⟩ := hStep
    split at hStep
    · rename_i hWrites
      obtain rfl := Option.some.inj hStep
      exact ⟨t, .callUnlockWrite hLoc hWrites⟩
    · rename_i hWrites
      simp only [Option.ite_none_right_eq_some, Option.some.injEq] at hStep
      obtain ⟨hReads, rfl⟩ := hStep
      exact ⟨t, .callUnlockRead hLoc (Bool.eq_false_iff.mpr hWrites) (Nat.pos_of_ne_zero hReads)⟩
  | proceed t =>
    refine ⟨t, ?_⟩
    cases hLoc : (s.threads t).location with
    | outside => simp [step, State.proceed, hLoc] at hStep
    | lockForRead =>
      simp only [step, State.proceed, hLoc, Option.ite_none_right_eq_some, Option.some.injEq] at hStep
      obtain ⟨hFree, rfl⟩ := hStep
      exact .lockForRead hLoc hFree
    | testThread =>
      simp only [step, State.proceed, hLoc, Option.some.injEq] at hStep
      have hIff : s.lockingThread = some t ↔ 0 < (s.threads t).reads := by
        rw [h.locking t]
        simp [Thread.isLocking, hLoc]
      by_cases hReads : 0 < (s.threads t).reads
      · rw [if_pos (hIff.mpr hReads)] at hStep
        exact hStep ▸ .testNested hLoc hReads
      · rw [if_neg fun hThread => hReads (hIff.mp hThread)] at hStep
        exact hStep ▸ .testOther hLoc (Nat.eq_zero_of_not_pos hReads)
    | countNested =>
      simp only [step, State.proceed, hLoc, Option.some.injEq] at hStep
      exact hStep ▸ .countNested hLoc
    | leaveNested =>
      simp only [step, State.proceed, hLoc, Option.some.injEq] at hStep
      exact hStep ▸ .leaveNested hLoc
    | leaveOther =>
      simp only [step, State.proceed, hLoc, Option.some.injEq] at hStep
      exact hStep ▸ .leaveOther hLoc
    | lockRead =>
      simp only [step, State.proceed, hLoc, Option.ite_none_right_eq_some, Option.some.injEq] at hStep
      obtain ⟨hFree, rfl⟩ := hStep
      exact .lockRead hLoc hFree
    | lockMain =>
      simp only [step, State.proceed, hLoc, Option.ite_none_right_eq_some, Option.some.injEq] at hStep
      obtain ⟨hFree, rfl⟩ := hStep
      exact .lockMain hLoc hFree
    | setThread =>
      simp only [step, State.proceed, hLoc, Option.some.injEq] at hStep
      exact hStep ▸ .setThread hLoc
    | countFirst =>
      simp only [step, State.proceed, hLoc, Option.some.injEq] at hStep
      exact hStep ▸ .countFirst hLoc
    | lockForWrite =>
      simp only [step, State.proceed, hLoc, Option.ite_none_right_eq_some, Option.some.injEq] at hStep
      obtain ⟨hFree, rfl⟩ := hStep
      exact .lockForWrite hLoc hFree
    | setWrite =>
      simp only [step, State.proceed, hLoc, Option.some.injEq] at hStep
      exact hStep ▸ .setWrite hLoc
    | unlock write =>
      simp only [step, State.proceed, hLoc, Option.ite_none_right_eq_some, Option.some.injEq] at hStep
      obtain ⟨hFree, rfl⟩ := hStep
      exact .unlock hLoc hFree
    | testWrite write =>
      simp only [step, State.proceed, hLoc, Option.some.injEq] at hStep
      cases write with
      | true =>
        obtain ⟨marked, hMarked, hLocked⟩ := h.marked
        have hThread : (s.threads t).isMarked := by simp [Thread.isMarked, hLoc]
        rw [hMarked.eq_of_meets hThread] at hLocked
        rw [hLocked] at hStep
        exact hStep ▸ .testWriter hLoc
      | false =>
        rw [h.notLocked (t := t) (by simp [Thread.readsMain, hLoc])] at hStep
        exact hStep ▸ .testReader hLoc
    | clearWrite =>
      simp only [step, State.proceed, hLoc, Option.some.injEq] at hStep
      exact hStep ▸ .clearWrite hLoc
    | unlockWrite =>
      simp only [step, State.proceed, hLoc, Option.some.injEq] at hStep
      exact hStep ▸ .unlockWrite hLoc
    | testOwner =>
      simp only [step, State.proceed, hLoc, Option.some.injEq] at hStep
      have hThread : s.lockingThread = some t := h.locking.eq_of_meets (by simp [Thread.isLocking, hLoc])
      rw [if_pos hThread] at hStep
      exact hStep ▸ .testOwner hLoc
    | countDown =>
      simp only [step, State.proceed, hLoc, Option.some.injEq] at hStep
      have hCount : s.lockCnt = (s.threads t).reads + 1 := by
        rw [h.counted t (by simp [Thread.isLocking, hLoc])]
        simp [Thread.count, hLoc]
      by_cases hReads : (s.threads t).reads = 0
      · rw [if_pos (by omega)] at hStep
        exact hStep ▸ .countLast hLoc hReads
      · rw [if_neg (by omega)] at hStep
        exact hStep ▸ .countMore hLoc (Nat.pos_of_ne_zero hReads)
    | clearThread =>
      simp only [step, State.proceed, hLoc, Option.some.injEq] at hStep
      exact hStep ▸ .clearThread hLoc
    | unlockMain =>
      simp only [step, State.proceed, hLoc, Option.some.injEq] at hStep
      exact hStep ▸ .unlockMain hLoc
    | unlockRead =>
      simp only [step, State.proceed, hLoc, Option.some.injEq] at hStep
      exact hStep ▸ .unlockRead hLoc
    | leave =>
      simp only [step, State.proceed, hLoc, Option.some.injEq] at hStep
      exact hStep ▸ .leave hLoc

end Invariant

/-! ### What a step does to each field -/

namespace Moves

theorem fits (h : Invariant s) (hMoves : Moves s t s') (u : τ) : (s'.threads u).Fits := by
  have hBefore := h.fits t
  have hOther : ∀ l : Thread, l.Fits → (Function.update s.threads t l u).Fits := by
    intro l hl
    by_cases hu : u = t
    · rw [hu, Function.update_self]
      exact hl
    · rw [Function.update_of_ne hu]
      exact h.fits u
  cases hMoves with
  | callWrite hLoc hReads => exact hOther _ hReads
  | callUnlockWrite hLoc hWrites =>
    rw [Thread.Fits, hLoc] at hBefore
    exact hOther _ ⟨hBefore.resolve_right (by simp [hWrites]), rfl⟩
  | callUnlockRead hLoc hWrites hReads => exact hOther _ hWrites
  | testNested hLoc hReads =>
    rw [Thread.Fits, hLoc] at hBefore
    exact hOther _ ⟨hReads, hBefore.resolve_left (Nat.ne_of_gt hReads)⟩
  | testOther hLoc hReads => exact hOther _ hReads
  | leaveNested hLoc | countFirst hLoc =>
    rw [Thread.Fits, hLoc] at hBefore
    exact hOther _ (.inr hBefore.2)
  | lockMain hLoc hFree =>
    rw [Thread.Fits, hLoc] at hBefore
    exact hOther _ ⟨hBefore, h.notWriting hFree t⟩
  | lockForWrite hLoc hFree =>
    rw [Thread.Fits, hLoc] at hBefore
    exact hOther _ ⟨hBefore, h.notWriting (Int.le_of_eq hFree.symm) t⟩
  | setWrite hLoc =>
    rw [Thread.Fits, hLoc] at hBefore
    exact hOther _ (.inl hBefore.1)
  | @unlock write hLoc hFree =>
    rw [Thread.Fits, hLoc] at hBefore
    exact hOther _ (by cases write <;> exact hBefore)
  | unlockWrite hLoc | unlockRead hLoc =>
    rw [Thread.Fits, hLoc] at hBefore
    exact hOther _ hBefore.2
  | countLast hLoc hReads =>
    rw [Thread.Fits, hLoc] at hBefore
    exact hOther _ ⟨hReads, hBefore⟩
  | leave hLoc =>
    rw [Thread.Fits, hLoc] at hBefore
    exact hOther _ (.inr hBefore)
  | callRead hLoc | lockForRead hLoc | countNested hLoc | leaveOther hLoc | lockRead hLoc | setThread hLoc
  | testWriter hLoc | testReader hLoc | clearWrite hLoc | testOwner hLoc | countMore hLoc
  | clearThread hLoc | unlockMain hLoc =>
    rw [Thread.Fits, hLoc] at hBefore
    exact hOther _ hBefore

theorem lockMutex (h : Invariant s) (hMoves : Moves s t s') :
    Held Thread.hasLockMutex s'.threads s'.lockMutex := by
  have hOwner : (s.threads t).hasLockMutex → s.lockMutex = some t := h.lockMutex.eq_of_meets
  have hLedger := h.lockMutex
  cases hMoves with
  | lockForRead hLoc hFree | unlock hLoc hFree =>
    rw [hFree] at hLedger
    exact hLedger.acquire trivial
  | leaveNested hLoc | leaveOther hLoc | leave hLoc =>
    rw [hOwner (by simp [Thread.hasLockMutex, hLoc])] at hLedger
    exact hLedger.release id
  | callRead hLoc | callWrite hLoc | callUnlockWrite hLoc | callUnlockRead hLoc | testNested hLoc
  | testOther hLoc | countNested hLoc | lockRead hLoc | lockMain hLoc | setThread hLoc | countFirst hLoc
  | lockForWrite hLoc | setWrite hLoc | testWriter hLoc | testReader hLoc | clearWrite hLoc
  | unlockWrite hLoc | testOwner hLoc | countLast hLoc | countMore hLoc | clearThread hLoc
  | unlockMain hLoc | unlockRead hLoc =>
    exact hLedger.frame (by simp [Thread.hasLockMutex, hLoc])

theorem readMutex (h : Invariant s) (hMoves : Moves s t s') :
    Held Thread.hasReadMutex s'.threads s'.readMutex := by
  have hLedger := h.readMutex
  have hFits := h.fits t
  cases hMoves with
  | lockRead hLoc hFree =>
    rw [hFree] at hLedger
    exact hLedger.acquire (.inr (.inl rfl))
  | unlockRead hLoc =>
    rw [Thread.Fits, hLoc] at hFits
    rw [hLedger.eq_of_meets (.inr (.inr hLoc))] at hLedger
    exact hLedger.release (by simp [Thread.hasReadMutex, Thread.readsMain, hFits.1])
  | callUnlockRead hLoc hWrites hReads =>
    exact hLedger.frame (by simp [Thread.hasReadMutex, Thread.readsMain, hLoc, hReads])
  | leaveNested hLoc =>
    rw [Thread.Fits, hLoc] at hFits
    exact hLedger.frame (by simp [Thread.hasReadMutex, Thread.readsMain, hLoc, hFits.1])
  | countFirst hLoc | lockMain hLoc =>
    exact hLedger.frame (by simp [Thread.hasReadMutex, Thread.readsMain, hLoc])
  | countMore hLoc hReads => exact hLedger.frame (by simp [Thread.hasReadMutex, Thread.readsMain, hLoc, hReads])
  | @unlock write hLoc =>
    exact hLedger.frame (by cases write <;> simp [Thread.hasReadMutex, Thread.readsMain, hLoc])
  | callRead hLoc | callWrite hLoc | callUnlockWrite hLoc | testNested hLoc
  | testOther hLoc | countNested hLoc | lockForRead hLoc | leaveOther hLoc | setThread hLoc
  | lockForWrite hLoc | setWrite hLoc | testWriter hLoc | testReader hLoc | clearWrite hLoc
  | unlockWrite hLoc | testOwner hLoc | countLast hLoc | clearThread hLoc
  | unlockMain hLoc | leave hLoc =>
    exact hLedger.frame (by simp [Thread.hasReadMutex, Thread.readsMain, hLoc])

theorem main (h : Invariant s) (hMoves : Moves s t s') :
    ∃ reader writer, MainHeld s'.threads reader writer s'.mainMutex := by
  obtain ⟨reader, writer, hReader, hWriter, hCount⟩ := h.main
  have hFits := h.fits t
  cases hMoves with
  | lockMain hLoc hFree =>
    rw [Thread.Fits, hLoc] at hFits
    -- the thread has the read mutex, so that no other one reads
    have hMutex := h.readMutex
    rw [hMutex.eq_of_meets (.inr (.inl hLoc))] at hMutex
    obtain rfl : reader = none := hMutex.none_of_weaker
      (fun _ => Thread.hasReadMutex_of_readsMain) (by simp [Thread.readsMain, hLoc, hFits]) hReader
    rcases hCount with ⟨-, rfl, hZero⟩ | ⟨hSome, -⟩ | ⟨-, -, hCount⟩
    · refine ⟨some t, none, hReader.acquire (.inr trivial),
        hWriter.frame (by simp [Thread.writesMain, hLoc]), .inr (.inl ⟨rfl, rfl, ?_⟩)⟩
      show s.mainMutex + 1 = 1
      omega
    · cases hSome
    · omega
  | lockForWrite hLoc hFree =>
    rcases hCount with ⟨rfl, rfl, -⟩ | ⟨-, -, hCount⟩ | ⟨-, -, hCount⟩
    · exact ⟨none, some t, hReader.frame (by simp [Thread.readsMain, hLoc]),
        hWriter.acquire (.inr trivial), .inr (.inr ⟨rfl, rfl, rfl⟩)⟩
    · omega
    · omega
  | unlockWrite hLoc =>
    rw [Thread.Fits, hLoc] at hFits
    obtain rfl : writer = some t := hWriter.eq_of_meets (by simp [Thread.writesMain, hLoc])
    rcases hCount with ⟨-, hNone, -⟩ | ⟨-, hNone, -⟩ | ⟨rfl, -, hCount⟩
    · cases hNone
    · cases hNone
    · refine ⟨none, none, hReader.frame (by simp [Thread.readsMain, hLoc]),
        hWriter.release (by simp [Thread.writesMain, hFits.2]), .inl ⟨rfl, rfl, ?_⟩⟩
      show State.unlocked s.mainMutex = 0
      rw [hCount]
      rfl
  | unlockMain hLoc =>
    rw [Thread.Fits, hLoc] at hFits
    obtain rfl : reader = some t := hReader.eq_of_meets (by simp [Thread.readsMain, hLoc])
    rcases hCount with ⟨hNone, -⟩ | ⟨-, rfl, hCount⟩ | ⟨hNone, -⟩
    · cases hNone
    · refine ⟨none, none, hReader.release (by simp [Thread.readsMain, hFits.1]),
        hWriter.frame (by simp [Thread.writesMain, hLoc]), .inl ⟨rfl, rfl, ?_⟩⟩
      show State.unlocked s.mainMutex = 0
      rw [hCount]
      rfl
    · cases hNone
  | leaveNested hLoc =>
    rw [Thread.Fits, hLoc] at hFits
    exact ⟨reader, writer, hReader.frame (by simp [Thread.readsMain, hLoc, hFits.1]),
      hWriter.frame (by simp [Thread.writesMain, hLoc]), hCount⟩
  | callUnlockRead hLoc hWrites hReads | countMore hLoc hReads =>
    exact ⟨reader, writer, hReader.frame (by simp [Thread.readsMain, hLoc, hReads]),
      hWriter.frame (by simp [Thread.writesMain, hLoc]), hCount⟩
  | callUnlockWrite hLoc hWrites =>
    exact ⟨reader, writer, hReader.frame (by simp [Thread.readsMain, hLoc]),
      hWriter.frame (by simp [Thread.writesMain, hWrites]), hCount⟩
  | @unlock write hLoc =>
    exact ⟨reader, writer, hReader.frame (by cases write <;> simp [Thread.readsMain, hLoc]),
      hWriter.frame (by cases write <;> simp [Thread.writesMain, hLoc]), hCount⟩
  | callRead hLoc | callWrite hLoc | testNested hLoc | testOther hLoc | countNested hLoc | lockForRead hLoc
  | leaveOther hLoc | lockRead hLoc | setThread hLoc | countFirst hLoc | setWrite hLoc | testWriter hLoc
  | testReader hLoc | clearWrite hLoc | testOwner hLoc | countLast hLoc | clearThread hLoc
  | unlockRead hLoc | leave hLoc =>
    exact ⟨reader, writer, hReader.frame (by simp [Thread.readsMain, hLoc]),
      hWriter.frame (by simp [Thread.writesMain, hLoc]), hCount⟩

theorem marked (h : Invariant s) (hMoves : Moves s t s') :
    ∃ writer, Held Thread.isMarked s'.threads writer ∧ s'.lockedForWrite = writer.isSome := by
  obtain ⟨marked, hMarked, hLocked⟩ := h.marked
  have hFits := h.fits t
  cases hMoves with
  | setWrite hLoc =>
    rw [Thread.Fits, hLoc] at hFits
    obtain ⟨reader, writer, -, hWriter, -⟩ := h.main
    rw [hWriter.eq_of_meets (by simp [Thread.writesMain, hLoc] : (s.threads t).writesMain)] at hWriter
    obtain rfl : marked = none := hWriter.none_of_weaker
      (fun _ => Thread.writesMain_of_isMarked) (by simp [Thread.isMarked, hLoc, hFits.2]) hMarked
    exact ⟨some t, hMarked.acquire (.inl rfl), rfl⟩
  | clearWrite hLoc =>
    rw [Thread.Fits, hLoc] at hFits
    obtain rfl : marked = some t := hMarked.eq_of_meets (by simp [Thread.isMarked, hLoc])
    exact ⟨none, hMarked.release (by simp [Thread.isMarked, hFits.2]), rfl⟩
  | callUnlockWrite hLoc hWrites =>
    exact ⟨marked, hMarked.frame (by simp [Thread.isMarked, hWrites]), hLocked⟩
  | @unlock write hLoc =>
    exact ⟨marked, hMarked.frame (by cases write <;> simp [Thread.isMarked, hLoc]), hLocked⟩
  | callRead hLoc | callWrite hLoc | callUnlockRead hLoc | testNested hLoc | testOther hLoc | countNested hLoc
  | lockForRead hLoc | leaveNested hLoc | leaveOther hLoc | lockRead hLoc | lockMain hLoc | setThread hLoc
  | countFirst hLoc | lockForWrite hLoc | testWriter hLoc | testReader hLoc | unlockWrite hLoc
  | testOwner hLoc | countLast hLoc | countMore hLoc | clearThread hLoc | unlockMain hLoc | unlockRead hLoc
  | leave hLoc =>
    exact ⟨marked, hMarked.frame (by simp [Thread.isMarked, hLoc]), hLocked⟩

theorem locking (h : Invariant s) (hMoves : Moves s t s') :
    Held Thread.isLocking s'.threads s'.lockingThread := by
  have hLedger := h.locking
  have hFits := h.fits t
  cases hMoves with
  | setThread hLoc =>
    rw [Thread.Fits, hLoc] at hFits
    have hMutex := h.readMutex
    have hOwner : s.readMutex = some t :=
      hMutex.eq_of_meets (.inl (by simp [Thread.readsMain, hLoc]))
    rw [hOwner] at hMutex
    have hNone : s.lockingThread = none := hMutex.none_of_weaker
      (fun _ hl => .inl (Thread.readsMain_of_isLocking hl)) (by simp [Thread.isLocking, hLoc, hFits.1])
      hLedger
    rw [hNone] at hLedger
    exact hLedger.acquire (.inr trivial)
  | clearThread hLoc =>
    rw [Thread.Fits, hLoc] at hFits
    have hThread : s.lockingThread = some t := hLedger.eq_of_meets (by simp [Thread.isLocking, hLoc])
    rw [hThread] at hLedger
    exact hLedger.release (by simp [Thread.isLocking, hFits.1])
  | leaveNested hLoc =>
    rw [Thread.Fits, hLoc] at hFits
    exact hLedger.frame (by simp [Thread.isLocking, hLoc, hFits.1])
  | callUnlockRead hLoc hWrites hReads | countMore hLoc hReads =>
    exact hLedger.frame (by simp [Thread.isLocking, hLoc, hReads])
  | @unlock write hLoc => exact hLedger.frame (by cases write <;> simp [Thread.isLocking, hLoc])
  | callRead hLoc | callWrite hLoc | callUnlockWrite hLoc | testNested hLoc | testOther hLoc
  | countNested hLoc | lockForRead hLoc | leaveOther hLoc | lockRead hLoc | lockMain hLoc | countFirst hLoc
  | lockForWrite hLoc | setWrite hLoc | testWriter hLoc | testReader hLoc | clearWrite hLoc
  | unlockWrite hLoc | testOwner hLoc | countLast hLoc | unlockMain hLoc | unlockRead hLoc | leave hLoc =>
    exact hLedger.frame (by simp [Thread.isLocking, hLoc])

/-- Another thread than the one that moves counts as before. -/
theorem counted (h : Invariant s) (hMoves : Moves s t s') :
    (∀ u, (s'.threads u).isLocking → s'.lockCnt = (s'.threads u).count) ∧
      (s'.lockingThread = none → s'.lockCnt = 0) := by
  have hAfter := hMoves.locking h
  have hFits := h.fits t
  have hThread : (s.threads t).isLocking → s.lockCnt = (s.threads t).count := h.counted t
  -- a thread that is not `lockingThread` neither before nor after the step leaves the count
  have hFrame : ∀ l : Thread, (l.isLocking ↔ (s.threads t).isLocking) →
      l.count = (s.threads t).count → ∀ u, (Function.update s.threads t l u).isLocking →
        s.lockCnt = (Function.update s.threads t l u).count := by
    intro l hSame hCount u hu
    by_cases hEq : u = t
    · rw [hEq, Function.update_self] at hu ⊢
      rw [hThread (hSame.mp hu), hCount]
    · rw [Function.update_of_ne hEq] at hu ⊢
      exact h.counted u hu
  -- the count of the one thread that is `lockingThread`
  have hOwn : ∀ (l : Thread) (count : Int), s'.threads = Function.update s.threads t l →
      s'.lockingThread = some t → count = l.count →
        (∀ u, (s'.threads u).isLocking → count = (s'.threads u).count) ∧
          (s'.lockingThread = none → count = 0) := by
    intro l count hThreads hSome hCount
    refine ⟨fun u hu => ?_, fun hNone => ?_⟩
    · obtain rfl : t = u := Option.some.inj (hSome.symm.trans (hAfter.eq_of_meets hu))
      rw [hThreads, Function.update_self]
      exact hCount
    · rw [hSome] at hNone
      cases hNone
  cases hMoves with
  | countNested hLoc =>
    rw [Thread.Fits, hLoc] at hFits
    have hNow := hThread (.inl hFits.1)
    simp only [Thread.count, hLoc] at hNow
    refine hOwn _ _ rfl (h.locking.eq_of_meets (.inl hFits.1)) ?_
    show s.lockCnt + 1 = ((s.threads t).reads + 1 : Nat)
    omega
  | setThread hLoc =>
    rw [Thread.Fits, hLoc] at hFits
    have hMutex := h.readMutex
    have hOwner : s.readMutex = some t :=
      hMutex.eq_of_meets (.inl (by simp [Thread.readsMain, hLoc]))
    rw [hOwner] at hMutex
    have hNone : s.lockingThread = none := hMutex.none_of_weaker
      (fun _ hl => .inl (Thread.readsMain_of_isLocking hl)) (by simp [Thread.isLocking, hLoc, hFits.1])
      h.locking
    refine hOwn _ _ rfl rfl ?_
    show s.lockCnt = ((s.threads t).reads + 0 : Nat)
    rw [h.free hNone, hFits.1]
    rfl
  | countFirst hLoc =>
    have hNow := hThread (by simp [Thread.isLocking, hLoc])
    simp only [Thread.count, hLoc] at hNow
    refine hOwn _ _ rfl (h.locking.eq_of_meets (by simp [Thread.isLocking, hLoc])) ?_
    show s.lockCnt + 1 = ((s.threads t).reads + 1 + 0 : Nat)
    omega
  | countLast hLoc | countMore hLoc =>
    have hNow := hThread (by simp [Thread.isLocking, hLoc])
    simp only [Thread.count, hLoc] at hNow
    refine hOwn _ _ rfl (h.locking.eq_of_meets (by simp [Thread.isLocking, hLoc])) ?_
    show s.lockCnt - 1 = ((s.threads t).reads + 0 : Nat)
    omega
  | clearThread hLoc =>
    rw [Thread.Fits, hLoc] at hFits
    have hNow := hThread (by simp [Thread.isLocking, hLoc])
    simp only [Thread.count, hLoc, hFits.1] at hNow
    exact ⟨fun u hu => (nomatch hAfter.eq_of_meets hu), fun _ => hNow⟩
  | leaveNested hLoc =>
    rw [Thread.Fits, hLoc] at hFits
    exact ⟨hFrame _ (by simp [Thread.isLocking, hLoc, hFits.1]) (by simp [Thread.count, hLoc]), h.free⟩
  | callUnlockRead hLoc hWrites hReads =>
    refine ⟨hFrame _ (by simp [Thread.isLocking, hLoc, hReads]) ?_, h.free⟩
    simp only [Thread.count, hLoc]
    omega
  | @unlock write hLoc =>
    exact ⟨hFrame _ (by cases write <;> simp [Thread.isLocking, hLoc])
      (by cases write <;> simp [Thread.count, hLoc]), h.free⟩
  | callRead hLoc | callWrite hLoc | callUnlockWrite hLoc | testNested hLoc | testOther hLoc
  | lockForRead hLoc | leaveOther hLoc | lockRead hLoc | lockMain hLoc
  | lockForWrite hLoc | setWrite hLoc | testWriter hLoc | testReader hLoc | clearWrite hLoc
  | unlockWrite hLoc | testOwner hLoc | unlockMain hLoc | unlockRead hLoc | leave hLoc =>
    exact ⟨hFrame _ (by simp [Thread.isLocking, hLoc]) (by simp [Thread.count, hLoc]), h.free⟩

end Moves

theorem Invariant.step (h : Invariant s) {a : Action τ} (hStep : MultiMutex.step s a = some s') :
    Invariant s' := by
  obtain ⟨t, hMoves⟩ := h.moves hStep
  obtain ⟨hCounted, hFree⟩ := hMoves.counted h
  exact ⟨hMoves.fits h, hMoves.lockMutex h, hMoves.readMutex h, hMoves.main h, hMoves.marked h,
    hMoves.locking h, hCounted, hFree⟩

/-! ### The lock -/

/-- The thread is outside the functions of the lock, or waits at the start of one, where it has
changed nothing. -/
def Thread.IsIdle (l : Thread) : Prop :=
  l.location = .outside ∨ l.location = .lockForRead ∨ l.location = .lockRead ∨ l.location = .lockForWrite

/-- One thread reads, or one writes; `lockCnt` counts the calls of the reader, and without a lock all is
as it was at the start. -/
theorem lock_accounted {actions : List (Action τ)}
    (hRun : Runs.run MultiMutex.step (init : State τ) actions = some s) :
    (∀ t u, 0 < (s.threads t).reads → 0 < (s.threads u).reads → t = u) ∧
    (∀ t u, 0 < (s.threads t).reads → (s.threads u).writes = false) ∧
    (∀ t u, (s.threads t).writes = true → (s.threads u).writes = true → t = u) ∧
    (∀ t, 0 < (s.threads t).reads → s.lockingThread = some t) ∧
    (∀ t, s.lockingThread = some t → (s.threads t).location = .outside →
      s.lockCnt = (s.threads t).reads) ∧
    ((∀ t, (s.threads t).reads = 0 ∧ (s.threads t).writes = false ∧ (s.threads t).IsIdle) →
      s.lockCnt = 0 ∧ s.lockingThread = none ∧ s.lockedForWrite = false ∧ s.mainMutex = 0 ∧
        s.readMutex = none ∧ s.lockMutex = none) := by
  have h : Invariant s := Runs.invariant_of_forall (fun h hStep => h.step hStep) invariant_init hRun
  obtain ⟨reader, writer, hReader, hWriter, hCount⟩ := h.main
  obtain ⟨marked, hMarked, hLocked⟩ := h.marked
  refine ⟨fun t u ht hu => hReader.unique (.inl ht) (.inl hu), fun t u ht => ?_,
    fun t u ht hu => hWriter.unique (.inl ht) (.inl hu), fun t ht => h.locking.eq_of_meets (.inl ht),
    fun t hThread hLoc => ?_, fun hIdle => ?_⟩
  · refine h.notWriting ?_ u
    rw [hReader.eq_of_meets (.inl ht)] at hCount
    rcases hCount with ⟨hNone, -⟩ | ⟨-, -, hCount⟩ | ⟨hNone, -⟩
    · cases hNone
    · omega
    · cases hNone
  · rw [h.counted t ((h.locking t).mp hThread)]
    simp [Thread.count, hLoc]
  · have hNone : ∀ {P : Thread → Prop} {holder : Option τ}, Held P s.threads holder →
        (∀ t, ¬ P (s.threads t)) → holder = none := by
      intro P holder hHeld hNot
      cases holder with
      | none => rfl
      | some t => exact absurd ((hHeld t).mp rfl) (hNot t)
    have hThread : s.lockingThread = none := hNone h.locking fun t => by
      obtain ⟨hReads, -, hLoc⟩ := hIdle t
      rcases hLoc with hLoc | hLoc | hLoc | hLoc <;> simp [Thread.isLocking, hReads, hLoc]
    obtain rfl : reader = none := hNone hReader fun t => by
      obtain ⟨hReads, -, hLoc⟩ := hIdle t
      rcases hLoc with hLoc | hLoc | hLoc | hLoc <;> simp [Thread.readsMain, hReads, hLoc]
    obtain rfl : writer = none := hNone hWriter fun t => by
      obtain ⟨-, hWrites, hLoc⟩ := hIdle t
      rcases hLoc with hLoc | hLoc | hLoc | hLoc <;> simp [Thread.writesMain, hWrites, hLoc]
    obtain rfl : marked = none := hNone hMarked fun t => by
      obtain ⟨-, hWrites, hLoc⟩ := hIdle t
      rcases hLoc with hLoc | hLoc | hLoc | hLoc <;> simp [Thread.isMarked, hWrites, hLoc]
    refine ⟨h.free hThread, hThread, hLocked, ?_, hNone h.readMutex fun t => ?_,
      hNone h.lockMutex fun t => ?_⟩
    · rcases hCount with ⟨-, -, hCount⟩ | ⟨hSome, -⟩ | ⟨-, hSome, -⟩
      · exact hCount
      · cases hSome
      · cases hSome
    · obtain ⟨hReads, -, hLoc⟩ := hIdle t
      rcases hLoc with hLoc | hLoc | hLoc | hLoc <;>
        simp [Thread.hasReadMutex, Thread.readsMain, hReads, hLoc]
    · obtain ⟨-, -, hLoc⟩ := hIdle t
      rcases hLoc with hLoc | hLoc | hLoc | hLoc <;> simp [Thread.hasLockMutex, hLoc]

/-- Two nested read locks of one thread, while another one asks for the write lock. -/
theorem lock_accounted_nested :
    let actions : List (Action Nat) := [.lockForRead 0] ++ List.replicate 7 (.proceed 0) ++
      [.lockForWrite 1, .lockForRead 0] ++ List.replicate 4 (.proceed 0)
    ∃ s, Runs.run MultiMutex.step (init : State Nat) actions = some s ∧
      s.lockingThread = some 0 ∧ s.lockCnt = 2 ∧ (s.threads 1).writes = false := by
  intro actions
  obtain ⟨s, hRun, hReads, hOutside⟩ : ∃ s, Runs.run MultiMutex.step (init : State Nat) actions = some s ∧
      (s.threads 0).reads = 2 ∧ (s.threads 0).location = .outside := ⟨_, rfl, rfl, rfl⟩
  obtain ⟨-, hWriter, -, hThread, hCount, -⟩ := lock_accounted hRun
  have hPos : 0 < (s.threads 0).reads := by omega
  refine ⟨s, hRun, hThread 0 hPos, ?_, hWriter 0 1 hPos⟩
  rw [hCount 0 (hThread 0 hPos) hOutside, hReads]
  rfl

end Soprano.Redland.MultiMutex
