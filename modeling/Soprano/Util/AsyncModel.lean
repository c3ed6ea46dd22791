import Mathlib.Data.List.Nodup
import Mathlib.Data.List.Perm.Basic
import Soprano.Library.Runs

/-! The commands of an `AsyncModel` in `SingleThreaded` mode. They wait in a queue that timer events
serve, a write only while no iterator is open. A command is executed while it is still queued, and
what it runs may submit commands, open and close iterators, or deliver the next timer event. -/

namespace Soprano.Util

/-- `Command::Type` -/
inductive CommandType
  | readCommand | writeCommand
  deriving DecidableEq

/-- The classes of commands. -/
inductive CommandClass
  | statementCountCommand | isEmptyCommand | addStatementCommand | removeStatementCommand
  | removeAllStatementsCommand | containsStatementCommand | containsAnyStatementCommand
  | listStatementsCommand | listContextsCommand | executeQueryCommand | createBlankNodeCommand
  deriving DecidableEq

def CommandClass.type : CommandClass → CommandType
  | addStatementCommand | removeStatementCommand | removeAllStatementsCommand
  | createBlankNodeCommand => .writeCommand
  | _ => .readCommand

/-- An object, by the number of its allocation. -/
structure Command where
  id : Nat
  kind : CommandClass
  deriving DecidableEq

def Command.type (c : Command) : CommandType := c.kind.type

/-- Besides its queue and its iterators, the private data here has the timer events on their way to
`_s_executeNextCommand`, the commands in the calls of it that have not returned, the innermost first,
and what has been submitted, started (with the iterators open then) and deleted. -/
structure AsyncModelPrivate where
  commandQueue : List Command
  openIterators : List Nat
  timers : Nat
  executing : List Command
  submitted : List Command
  started : List (Command × List Nat)
  deleted : List Command

namespace AsyncModelPrivate

def init : AsyncModelPrivate := ⟨[], [], 0, [], [], [], []⟩

def addIterator (d : AsyncModelPrivate) (it : Nat) : AsyncModelPrivate :=
  { d with openIterators := d.openIterators ++ [it] }

def removeIterator (d : AsyncModelPrivate) (it : Nat) : AsyncModelPrivate :=
  { d with
    openIterators := d.openIterators.filter fun other => decide (other ≠ it)
    timers := d.timers + 1 }

def enqueueCommand (d : AsyncModelPrivate) (kind : CommandClass) : AsyncModelPrivate :=
  let command : Command := ⟨d.submitted.length, kind⟩
  { d with
    commandQueue := d.commandQueue ++ [command]
    timers := d.timers + 1
    submitted := d.submitted ++ [command] }

def executable (d : AsyncModelPrivate) (c : Command) : Bool :=
  d.openIterators.isEmpty || decide (c.type = .readCommand)

/-- The command that the loop of `_s_executeNextCommand` finds. -/
def nextCommand (d : AsyncModelPrivate) : Option Command := d.commandQueue.find? d.executable

/-- `_s_executeNextCommand` up to the body of `execute` -/
def startCommand (d : AsyncModelPrivate) : AsyncModelPrivate :=
  match d.nextCommand with
  | some c => { d with
      executing := c :: d.executing
      started := d.started ++ [(c, d.openIterators)] }
  | none => d

/-- `_s_executeNextCommand` from the end of the innermost `execute`. The node of the queue that it
erases has to be there. -/
def finishCommand (d : AsyncModelPrivate) : Option AsyncModelPrivate :=
  match d.executing with
  | [] => some d
  | c :: frames =>
    if c ∈ d.commandQueue then
      let rest := d.commandQueue.erase c
      some { d with
        commandQueue := rest
        timers := if rest.isEmpty then d.timers else d.timers + 1
        executing := frames
        deleted := d.deleted ++ [c] }
    else none

/-- What can happen next, at any point where client code or the event loop runs. -/
inductive Action
  | submit (kind : CommandClass)
  | addIterator (it : Nat)
  | removeIterator (it : Nat)
  | timer
  | finish

def step (d : AsyncModelPrivate) : Action → Option AsyncModelPrivate
  | .submit kind => some (d.enqueueCommand kind)
  | .addIterator it => some (d.addIterator it)
  | .removeIterator it => some (d.removeIterator it)
  | .timer => some (if d.timers = 0 then d else { d with timers := d.timers - 1 }.startCommand)
  | .finish => d.finishCommand

def outside (commands frames : List Command) : List Command :=
  commands.filter fun c => decide (c ∉ frames)

/-- The commands in the queue that are not being executed. -/
def waiting (d : AsyncModelPrivate) : List Command := outside d.commandQueue d.executing

def startedCommands (d : AsyncModelPrivate) : List Command := d.started.map Prod.fst

def writes (commands : List Command) : List Command :=
  commands.filter fun c => decide (c.type = .writeCommand)

/-- A timer event is on its way if a waiting command can be executed. -/
def Pending (d : AsyncModelPrivate) : Prop := (∃ c ∈ d.waiting, d.executable c) → 0 < d.timers

/-- Every command is started once and deleted once, and the writes have the iterators for
themselves and keep their order. -/
structure Scheduled (d : AsyncModelPrivate) : Prop where
  distinct : d.submitted.Nodup
  startedOnce : (d.startedCommands ++ d.waiting).Perm d.submitted
  deletedOnce : (d.deleted ++ d.executing).Perm d.startedCommands
  exclusive : ∀ c its, (c, its) ∈ d.started → c.type = .writeCommand → its = []
  ordered : writes d.startedCommands ++ writes d.waiting = writes d.submitted
  pending : d.executing = [] → d.Pending

/-- A timer event does not find a command that is being executed. -/
def Action.FindsWaiting (d : AsyncModelPrivate) : Action → Prop
  | .timer => 0 < d.timers → ∀ c, d.nextCommand = some c → c ∉ d.executing
  | _ => True

/-- A timer event that starts a command is not the last one while another command can be executed. -/
def Action.LeavesTimer (d : AsyncModelPrivate) : Action → Prop
  | .timer => 0 < d.timers → ∀ c, d.nextCommand = some c →
      1 < d.timers ∨ ∀ other ∈ d.waiting, other ≠ c → d.executable other = false
  | _ => True

/-- Where the submitted commands are, and what is known about those that were started. -/
structure Accounted (d : AsyncModelPrivate) : Prop where
  ids : ∀ c ∈ d.submitted, c.id < d.submitted.length
  distinct : d.submitted.Nodup
  queued : (d.deleted ++ d.commandQueue).Perm d.submitted
  frames : d.executing.Nodup
  framesQueued : ∀ c ∈ d.executing, c ∈ d.commandQueue
  started : d.startedCommands.Perm (d.deleted ++ d.executing)
  exclusive : ∀ c its, (c, its) ∈ d.started → c.type = .writeCommand → its = []
  ordered : writes d.startedCommands ++ writes d.waiting = writes d.submitted

/-- What holds at every point. -/
structure Invariant (d : AsyncModelPrivate) : Prop extends Accounted d where
  pending : d.executing = [] → d.Pending

variable {d : AsyncModelPrivate}

theorem mem_waiting {c : Command} : c ∈ d.waiting ↔ c ∈ d.commandQueue ∧ c ∉ d.executing := by
  simp [waiting, outside]

theorem writes_append (xs ys : List Command) : writes (xs ++ ys) = writes xs ++ writes ys :=
  List.filter_append ..

theorem writes_singleton_read {c : Command} (h : c.type ≠ .writeCommand) : writes [c] = [] := by
  simp [writes, h]

theorem invariant_init : Invariant init := by
  refine ⟨⟨nofun, List.nodup_nil, .nil, List.nodup_nil, nofun, .nil, nofun, rfl⟩, ?_⟩
  rintro - ⟨c, hc, -⟩
  cases hc

/-- Where nothing is executed, every command of the queue waits. -/
theorem waiting_eq_commandQueue (h : d.executing = []) : d.waiting = d.commandQueue := by
  simp [waiting, outside, h]

theorem nextCommand_spec {c : Command} (h : d.nextCommand = some c) :
    c ∈ d.commandQueue ∧ d.executable c = true :=
  ⟨List.mem_of_find?_eq_some h, List.find?_some h⟩

/-- A write is found only at the head of the queue. -/
theorem nextCommand_write {c : Command} (h : d.nextCommand = some c)
    (hWrite : c.type = .writeCommand) :
    d.openIterators = [] ∧ ∃ rest, d.commandQueue = c :: rest := by
  have hOpen : d.openIterators = [] := by
    have hExecutable := (nextCommand_spec h).2
    rw [executable, hWrite] at hExecutable
    simpa using hExecutable
  refine ⟨hOpen, ?_⟩
  rw [nextCommand] at h
  cases hQueue : d.commandQueue with
  | nil =>
    rw [hQueue] at h
    cases h
  | cons head rest =>
    rw [hQueue, List.find?_cons_of_pos (by simp [executable, hOpen])] at h
    cases h
    exact ⟨rest, rfl⟩

theorem nextCommand_none (h : d.nextCommand = none) : d.Pending := by
  intro hExecutable
  obtain ⟨c, hc, hReady⟩ := hExecutable
  exact absurd hReady (List.find?_eq_none.mp h c (mem_waiting.mp hc).1)

theorem step_timer {c : Command} (hTimers : d.timers ≠ 0) (hNext : d.nextCommand = some c) :
    d.step .timer = some { d with
      timers := d.timers - 1
      executing := c :: d.executing
      started := d.started ++ [(c, d.openIterators)] } := by
  have hFound : ({ d with timers := d.timers - 1 } : AsyncModelPrivate).nextCommand = some c := hNext
  rw [step, if_neg hTimers, startCommand, hFound]

theorem openIterators_timer {e : AsyncModelPrivate} (h : d.step .timer = some e) :
    e.openIterators = d.openIterators := by
  cases h
  split
  · rfl
  · rw [startCommand]
    split <;> rfl

theorem openIterators_finish {e : AsyncModelPrivate} (h : d.finishCommand = some e) :
    e.openIterators = d.openIterators := by
  rw [finishCommand] at h
  split at h
  · cases h
    rfl
  · split at h
    · cases h
      rfl
    · cases h

/-- A new iterator makes no command executable. -/
theorem Pending.addIterator (h : d.Pending) (it : Nat) : (d.addIterator it).Pending := by
  rintro ⟨c, hc, hExecutable⟩
  apply h
  refine ⟨c, hc, ?_⟩
  simp only [executable, AsyncModelPrivate.addIterator, Bool.or_eq_true] at hExecutable ⊢
  exact hExecutable.imp_left fun hOpen => by simp at hOpen

/-- The end of a command announces the others. -/
theorem pending_finish {e : AsyncModelPrivate} (h : d.finishCommand = some e)
    (hFrames : d.executing ≠ []) : e.Pending := by
  rintro ⟨other, hOther, -⟩
  rw [finishCommand] at h
  split at h
  · contradiction
  · rename_i c frames _
    split at h
    · cases h
      have hRest : (d.commandQueue.erase c).isEmpty = false :=
        List.isEmpty_eq_false_iff_exists_mem.mpr ⟨other, (mem_waiting.mp hOther).1⟩
      simp only [hRest, Bool.false_eq_true, if_false]
      omega
    · cases h

/-- The timer event that starts a command leaves one for the others. -/
theorem pending_step {a : Action} {e : AsyncModelPrivate} (hLeaves : a.LeavesTimer d)
    (hPending : d.Pending) (hStep : d.step a = some e) : e.Pending := by
  cases a with
  | submit kind =>
    cases hStep
    exact fun _ => Nat.succ_pos _
  | addIterator it =>
    cases hStep
    exact hPending.addIterator it
  | removeIterator it =>
    cases hStep
    exact fun _ => Nat.succ_pos _
  | finish =>
    by_cases hIdle : d.executing = []
    · rw [step, finishCommand, hIdle] at hStep
      cases hStep
      exact hPending
    · exact pending_finish hStep hIdle
  | timer =>
    by_cases hTimers : d.timers = 0
    · rw [step, if_pos hTimers] at hStep
      cases hStep
      exact hPending
    cases hNext : d.nextCommand with
    | none =>
      rw [step, if_neg hTimers] at hStep
      cases hStep
      have hNone : ({ d with timers := d.timers - 1 } : AsyncModelPrivate).nextCommand = none := hNext
      rw [startCommand, hNone]
      exact nextCommand_none hNone
    | some c =>
      rw [step_timer hTimers hNext] at hStep
      cases hStep
      rintro ⟨other, hOther, hExecutable⟩
      obtain ⟨hQueued, hNew⟩ := mem_waiting.mp hOther
      rw [List.mem_cons, not_or] at hNew
      show 0 < d.timers - 1
      rcases hLeaves (Nat.pos_of_ne_zero hTimers) c hNext with hMore | hAlone
      · omega
      · have hReady : d.executable other = true := hExecutable
        rw [hAlone other (mem_waiting.mpr ⟨hQueued, hNew.2⟩) hNew.1] at hReady
        cases hReady

namespace Accounted

theorem queue_nodup (h : Accounted d) : d.commandQueue.Nodup :=
  (List.nodup_append.mp (h.queued.nodup_iff.mpr h.distinct)).2.1

/-- The queue holds the commands that wait and those that are being executed. -/
theorem queue_perm (h : Accounted d) : (d.executing ++ d.waiting).Perm d.commandQueue := by
  refine (List.perm_ext_iff_of_nodup ?_ h.queue_nodup).mpr fun c => ?_
  · refine List.nodup_append.mpr ⟨h.frames, h.queue_nodup.filter _, ?_⟩
    rintro c hFrame other hWaiting rfl
    exact (mem_waiting.mp hWaiting).2 hFrame
  · rw [List.mem_append, mem_waiting]
    constructor
    · rintro (hFrame | ⟨hQueued, -⟩)
      · exact h.framesQueued c hFrame
      · exact hQueued
    · intro hQueued
      by_cases hFrame : c ∈ d.executing
      · exact .inl hFrame
      · exact .inr ⟨hQueued, hFrame⟩

/-- A timer event that finds a waiting command makes it the innermost one. -/
theorem startCommand (h : Accounted d)
    (hFinds : ∀ c, d.nextCommand = some c → c ∉ d.executing) : Invariant d.startCommand := by
  rw [AsyncModelPrivate.startCommand]
  cases hNext : d.nextCommand with
  | none => exact { h with pending := fun _ => nextCommand_none hNext }
  | some c =>
    have hNew := hFinds c hNext
    have hQueued := (nextCommand_spec hNext).1
    refine ⟨⟨h.ids, h.distinct, h.queued, List.nodup_cons.mpr ⟨hNew, h.frames⟩, fun e he => ?_, ?_,
      fun e its he hWrite => ?_, ?_⟩, nofun⟩
    · rcases List.mem_cons.mp he with rfl | hOld
      · exact hQueued
      · exact h.framesQueued e hOld
    · rw [startedCommands, List.map_append]
      refine (h.started.append_right _).trans ?_
      rw [List.append_assoc]
      exact List.Perm.append_left _ (List.perm_append_singleton c d.executing)
    · rcases List.mem_append.mp he with hOld | hLast
      · exact h.exclusive e its hOld hWrite
      · cases List.mem_singleton.mp hLast
        exact (nextCommand_write hNext hWrite).1
    · rw [startedCommands, List.map_append, writes_append, List.append_assoc, ← h.ordered]
      refine congrArg (writes d.startedCommands ++ ·) ?_
      by_cases hWrite : c.type = .writeCommand
      · -- The write is the first of those that wait.
        obtain ⟨-, rest, hRest⟩ := nextCommand_write hNext hWrite
        have hOnce : c ∉ rest := by
          have hNodup := h.queue_nodup
          rw [hRest] at hNodup
          exact (List.nodup_cons.mp hNodup).1
        have hOthers : outside rest (c :: d.executing) = outside rest d.executing := by
          refine List.filter_congr fun e he => ?_
          have hNe : e ≠ c := by
            rintro rfl
            exact hOnce he
          simp [hNe]
        have hFirst : outside (c :: rest) d.executing = c :: outside rest d.executing :=
          List.filter_cons_of_pos (decide_eq_true hNew)
        have hGone : outside (c :: rest) (c :: d.executing) = outside rest (c :: d.executing) :=
          List.filter_cons_of_neg (by simp)
        simp only [waiting, hRest]
        rw [hFirst, hGone, hOthers]
        simp [writes, hWrite]
      · -- A read is none of the writes that wait.
        rw [List.map_singleton, writes_singleton_read hWrite, List.nil_append]
        simp only [writes, waiting, outside, List.filter_filter]
        refine List.filter_congr fun e _ => ?_
        by_cases hOther : e.type = .writeCommand
        · have hNe : e ≠ c := by
            rintro rfl
            exact hWrite hOther
          simp [hOther, hNe]
        · simp [hOther]

theorem waiting_finish {c : Command} {frames : List Command} (h : Accounted d)
    (hFrames : d.executing = c :: frames) :
    outside (d.commandQueue.erase c) frames = d.waiting := by
  rw [waiting, hFrames, h.queue_nodup.erase_eq_filter, outside, outside, List.filter_filter]
  refine List.filter_congr fun e _ => ?_
  by_cases hEq : e = c
  · simp [hEq]
  · simp [hEq]

end Accounted

namespace Invariant

theorem scheduled (h : Invariant d) : d.Scheduled := by
  refine ⟨h.distinct, ?_, h.started.symm, h.exclusive, h.ordered, h.pending⟩
  calc (d.startedCommands ++ d.waiting).Perm (d.deleted ++ d.executing ++ d.waiting) :=
        h.started.append_right _
    _ = d.deleted ++ (d.executing ++ d.waiting) := List.append_assoc ..
    List.Perm _ (d.deleted ++ d.commandQueue) := h.queue_perm.append_left _
    List.Perm _ d.submitted := h.queued

theorem addIterator (h : Invariant d) (it : Nat) : Invariant (d.addIterator it) :=
  { h with pending := fun hIdle => (h.pending hIdle).addIterator it }

theorem removeIterator (h : Invariant d) (it : Nat) : Invariant (d.removeIterator it) :=
  { h with pending := fun _ _ => Nat.succ_pos _ }

theorem enqueueCommand (h : Invariant d) (kind : CommandClass) :
    Invariant (d.enqueueCommand kind) := by
  have hFresh : (⟨d.submitted.length, kind⟩ : Command) ∉ d.submitted := fun hMem =>
    Nat.lt_irrefl _ (h.ids _ hMem)
  have hFreshFrame : (⟨d.submitted.length, kind⟩ : Command) ∉ d.executing := fun hMem =>
    hFresh (h.queued.mem_iff.mp (List.mem_append_right _ (h.framesQueued _ hMem)))
  have hWaiting : (d.enqueueCommand kind).waiting =
      d.waiting ++ [⟨d.submitted.length, kind⟩] := by
    rw [waiting, waiting, AsyncModelPrivate.enqueueCommand]
    simp [outside, hFreshFrame]
  refine ⟨⟨fun c hc => ?_, ?_, ?_, h.frames, fun c hc => ?_, h.started, h.exclusive, ?_⟩,
    fun _ _ => Nat.succ_pos _⟩
  · rcases List.mem_append.mp hc with hOld | hNew
    · have := h.ids c hOld
      simp only [AsyncModelPrivate.enqueueCommand, List.length_append, List.length_singleton]
      omega
    · rw [List.mem_singleton.mp hNew]
      simp [AsyncModelPrivate.enqueueCommand]
  · exact List.nodup_append.mpr ⟨h.distinct, List.nodup_singleton _, fun c hc other hNew hEq =>
      hFresh (by rw [← List.mem_singleton.mp hNew, ← hEq]; exact hc)⟩
  · simp only [AsyncModelPrivate.enqueueCommand]
    rw [← List.append_assoc]
    exact h.queued.append_right _
  · exact List.mem_append_left _ (h.framesQueued c hc)
  · rw [hWaiting, writes_append, ← List.append_assoc]
    simp only [AsyncModelPrivate.enqueueCommand, writes_append]
    rw [← h.ordered]
    rfl

/-- The innermost command is still in the queue when it has been executed. -/
theorem finishCommand (h : Invariant d) : ∃ e, d.finishCommand = some e ∧ Invariant e := by
  cases hFrames : d.executing with
  | nil => exact ⟨d, by rw [AsyncModelPrivate.finishCommand, hFrames], h⟩
  | cons c frames =>
    have hQueued : c ∈ d.commandQueue := h.framesQueued c (by simp [hFrames])
    have hNodup := h.frames
    rw [hFrames, List.nodup_cons] at hNodup
    obtain ⟨e, hFinish, hEnd⟩ : ∃ e, d.finishCommand = some e ∧ e =
        { d with
          commandQueue := d.commandQueue.erase c
          timers := if (d.commandQueue.erase c).isEmpty then d.timers else d.timers + 1
          executing := frames
          deleted := d.deleted ++ [c] } := by
      rw [AsyncModelPrivate.finishCommand, hFrames]
      exact ⟨_, if_pos hQueued, rfl⟩
    have hPending := pending_finish hFinish (by simp [hFrames])
    subst hEnd
    refine ⟨_, hFinish, ⟨h.ids, h.distinct, ?_, hNodup.2, fun e he => ?_, ?_, h.exclusive, ?_⟩,
      fun _ => hPending⟩
    · rw [List.append_assoc]
      exact ((List.perm_cons_erase hQueued).symm.append_left _).trans h.queued
    · have hOld : e ∈ d.commandQueue := h.framesQueued e (by simp [hFrames, he])
      have hNe : e ≠ c := by
        rintro rfl
        exact hNodup.1 he
      exact (List.mem_erase_of_ne hNe).mpr hOld
    · rw [List.append_assoc, List.singleton_append, ← hFrames]
      exact h.started
    · rw [← h.ordered, ← h.waiting_finish hFrames]
      rfl

theorem step (h : Invariant d) {a : Action} (hFinds : a.FindsWaiting d) :
    ∃ e, d.step a = some e ∧ Invariant e := by
  cases a with
  | submit kind => exact ⟨_, rfl, h.enqueueCommand kind⟩
  | addIterator it => exact ⟨_, rfl, h.addIterator it⟩
  | removeIterator it => exact ⟨_, rfl, h.removeIterator it⟩
  | finish => exact h.finishCommand
  | timer =>
    refine ⟨_, rfl, ?_⟩
    by_cases hTimers : d.timers = 0
    · rw [if_pos hTimers]
      exact h
    · rw [if_neg hTimers]
      have hAccounted : Accounted { d with timers := d.timers - 1 } := { h.toAccounted with }
      exact hAccounted.startCommand (hFinds (Nat.pos_of_ne_zero hTimers))

/-- A turn of the event loop takes the first command off the queue. -/
theorem turn (h : Invariant d) (hIdle : d.executing = []) (hOpen : d.openIterators = [])
    {c : Command} {rest : List Command} (hQueue : d.commandQueue = c :: rest) :
    ∃ e, Runs.run AsyncModelPrivate.step d [.timer, .finish] = some e ∧ Invariant e ∧
      e.executing = [] ∧ e.openIterators = [] ∧ e.commandQueue = rest ∧
      e.submitted = d.submitted := by
  have hTimers : d.timers ≠ 0 := by
    apply Nat.ne_of_gt
    apply h.pending hIdle
    exact ⟨c, by simp [waiting_eq_commandQueue hIdle, hQueue], by simp [executable, hOpen]⟩
  have hNext : d.nextCommand = some c := by simp [nextCommand, executable, hQueue, hOpen]
  have hTimer := step_timer hTimers hNext
  rw [hIdle] at hTimer
  obtain ⟨t, hStart, hStarted⟩ := h.step (a := .timer) fun _ e _ hFrame => by
    rw [hIdle] at hFrame
    cases hFrame
  obtain rfl := Option.some.inj (hTimer.symm.trans hStart)
  obtain ⟨e, hFinish, hEnd⟩ := hStarted.finishCommand
  refine ⟨e, ?_, hEnd, ?_⟩
  · rw [Runs.run_cons_of_step hTimer, Runs.run_cons_of_step hFinish]
    rfl
  · rw [AsyncModelPrivate.finishCommand] at hFinish
    simp only [hQueue, List.mem_cons, true_or, if_true, List.erase_cons_head] at hFinish
    cases hFinish
    exact ⟨rfl, hOpen, rfl, rfl⟩

/-- One turn for each command empties the queue. -/
theorem drain (h : Invariant d) (hIdle : d.executing = []) (hOpen : d.openIterators = []) :
    ∃ e, Runs.run AsyncModelPrivate.step d
        (List.replicate d.commandQueue.length [Action.timer, .finish]).flatten = some e ∧
      e.commandQueue = [] ∧ e.deleted.Perm d.submitted := by
  generalize hQueue : d.commandQueue = queue
  induction queue generalizing d with
  | nil =>
    refine ⟨d, rfl, hQueue, ?_⟩
    simpa [hQueue] using h.queued
  | cons c rest ih =>
    obtain ⟨t, hTurn, hNext, hNextIdle, hNextOpen, hRest, hSubmitted⟩ := h.turn hIdle hOpen hQueue
    obtain ⟨e, hRun, hEmpty, hDeleted⟩ := ih hNext hNextIdle hNextOpen hRest
    refine ⟨e, ?_, hEmpty, hSubmitted ▸ hDeleted⟩
    rw [List.length_cons, List.replicate_succ, List.flatten_cons, Runs.run_append hTurn]
    exact hRun

/-- A timer event that finds a command that is being executed executes it again. -/
theorem not_scheduled_step (h : Invariant d) {a : Action} {e : AsyncModelPrivate}
    (hFinds : ¬ a.FindsWaiting d) (hStep : d.step a = some e) : ¬ e.Scheduled := by
  cases a with
  | timer =>
    simp only [Action.FindsWaiting, not_forall, not_not] at hFinds
    obtain ⟨hTimers, c, hNext, hFrame⟩ := hFinds
    rw [step_timer (Nat.ne_of_gt hTimers) hNext] at hStep
    cases hStep
    intro hScheduled
    have hTwice := hScheduled.startedOnce.nodup_iff.mpr hScheduled.distinct
    rw [startedCommands, List.map_append, List.append_assoc] at hTwice
    have hFirst : c ∈ d.started.map Prod.fst :=
      h.started.mem_iff.mpr (List.mem_append_right _ hFrame)
    exact (List.nodup_append.mp hTwice).2.2 c hFirst c (by simp) rfl
  | _ => exact absurd trivial hFinds

end Invariant

/-- The last timer event is gone while another command can be executed. -/
theorem not_pending_step {a : Action} {e : AsyncModelPrivate} (hLeaves : ¬ a.LeavesTimer d)
    (hStep : d.step a = some e) : ¬ e.Pending := by
  cases a with
  | timer =>
    simp only [Action.LeavesTimer, not_forall, not_or, Bool.not_eq_false] at hLeaves
    obtain ⟨hTimers, c, hNext, hLast, other, hOther, hNe, hExecutable⟩ := hLeaves
    obtain ⟨hQueued, hNew⟩ := mem_waiting.mp hOther
    rw [step_timer (Nat.ne_of_gt hTimers) hNext] at hStep
    cases hStep
    intro hPending
    have hLeft : 0 < d.timers - 1 := by
      apply hPending
      refine ⟨other, mem_waiting.mpr ⟨hQueued, ?_⟩, hExecutable⟩
      rw [List.mem_cons, not_or]
      exact ⟨hNe, hNew⟩
    omega
  | _ => exact absurd trivial hLeaves

/-- While timer events find waiting commands only, every submitted command is started and deleted
once, and the end of the run of commands is announced; no other timer event keeps this up. -/
theorem commands_scheduled {actions : List Action}
    (hFinds : Runs.AllMeet step (fun d a => a.FindsWaiting d) init actions) :
    ∃ d, Runs.run step init actions = some d ∧ d.Scheduled ∧
      (Runs.AllMeet step (fun d a => a.LeavesTimer d) init actions → d.Pending) ∧
      (d.executing = [] → d.openIterators = [] →
        (d.timers = 0 → d.deleted.Perm d.submitted) ∧
        ∃ e, Runs.run step d
            (List.replicate d.commandQueue.length [Action.timer, .finish]).flatten = some e ∧
          e.commandQueue = [] ∧ e.deleted.Perm d.submitted) ∧
      (∀ a e, d.step a = some e → (e.Scheduled ↔ a.FindsWaiting d)) ∧
      ∀ a e, d.step a = some e → d.Pending → (e.Pending ↔ a.LeavesTimer d) := by
  obtain ⟨d, hRun, h⟩ := Runs.exists_run (fun h hFinds => Invariant.step h hFinds)
    invariant_init hFinds
  refine ⟨d, hRun, h.scheduled, fun hLeaves => ?_, fun hIdle hOpen => ⟨fun hTimers => ?_, ?_⟩,
    fun a e hStep => ⟨fun hScheduled => ?_, fun hFinds => ?_⟩,
    fun a e hStep hPending => ⟨fun hLater => ?_, fun hLeaves => ?_⟩⟩
  · exact Runs.invariant (fun hPending hLeaves hStep => pending_step hLeaves hPending hStep)
      (fun hReady => by simp [init, waiting, outside] at hReady) hLeaves hRun
  · have hQueue : d.commandQueue = [] := by
      rcases hFirst : d.commandQueue with - | ⟨c, rest⟩
      · rfl
      · have hTimer := h.pending hIdle
          ⟨c, by simp [waiting_eq_commandQueue hIdle, hFirst], by simp [executable, hOpen]⟩
        omega
    simpa [hQueue] using h.queued
  · exact h.drain hIdle hOpen
  · by_contra hNot
    exact h.not_scheduled_step hNot hStep hScheduled
  · obtain ⟨t, ht, hNext⟩ := h.step hFinds
    obtain rfl := Option.some.inj (ht.symm.trans hStep)
    exact hNext.scheduled
  · by_contra hNot
    exact not_pending_step hNot hStep hLater
  · exact pending_step hLeaves hPending hStep

/-- A read closes the iterator that a write waits for and delivers the next timer event. -/
theorem commands_scheduled_nested :
    let actions : List Action := [.addIterator 0, .submit .addStatementCommand,
      .submit .isEmptyCommand, .timer, .removeIterator 0, .timer, .finish, .finish, .timer, .timer]
    ∃ d, Runs.run step init actions = some d ∧
      d.deleted = [⟨0, .addStatementCommand⟩, ⟨1, .isEmptyCommand⟩] ∧
      d.deleted.Perm d.submitted := by
  intro actions
  have hFinds : Runs.AllMeet step (fun d a => a.FindsWaiting d) init actions := by
    refine .cons trivial rfl (.cons trivial rfl (.cons trivial rfl (.cons ?_ rfl (.cons trivial rfl
      (.cons ?_ rfl (.cons trivial rfl (.cons trivial rfl (.cons nofun rfl
        (.cons nofun rfl trivial)))))))))
    · intro _ c _
      exact List.not_mem_nil
    · intro _ c hNext
      cases hNext
      decide
  obtain ⟨d, hRun, -, -, hEnd, -⟩ := commands_scheduled hFinds
  refine ⟨d, hRun, by cases hRun; rfl, ?_⟩
  apply (hEnd (by cases hRun; rfl) (by cases hRun; rfl)).1
  cases hRun
  rfl

/-- The slot of a change signal submits a command and waits for its result in an event loop of its
own: the command that emits the signal is executed again. -/
theorem commands_scheduled_twice :
    ∃ d, Runs.run step init [.submit .addStatementCommand, .timer, .submit .addStatementCommand,
        .timer] = some d ∧
      d.startedCommands = [⟨0, .addStatementCommand⟩, ⟨0, .addStatementCommand⟩] ∧
      ¬ d.Scheduled ∧ Runs.run step d [.finish, .finish] = none := by
  refine ⟨_, rfl, rfl, fun hScheduled => ?_, rfl⟩
  have hTwice := hScheduled.startedOnce.nodup_iff.mpr hScheduled.distinct
  revert hTwice
  decide

end AsyncModelPrivate

end Soprano.Util
