import Soprano.Library.Runs
import Mathlib.Data.List.Chain
import Mathlib.Logic.Function.Basic

/-! `SignalCacheModel`: each signal of the parent starts a timer, and the timer's event announces it. The
slots that an emission calls may change the parent again, or run an event loop of their own. -/

namespace Soprano.Util.SignalCacheModel

open Runs

/-- The signals of the parent that are cached, and the emissions that announce them. -/
inductive Signal
  | statementsAdded
  | statementsRemoved
  deriving DecidableEq

/-- `timerId` is 0 unless the timer is active. -/
structure QBasicTimer where
  timerId : Nat
  msec : Int

namespace QBasicTimer

def isActive (timer : QBasicTimer) : Bool := timer.timerId != 0

/-- `startTimer` has returned `id`. -/
def start (msec : Int) (id : Nat) : QBasicTimer := ⟨id, msec⟩

def stop (timer : QBasicTimer) : QBasicTimer := { timer with timerId := 0 }

end QBasicTimer

structure Private where
  addTimer : QBasicTimer
  removeTimer : QBasicTimer
  cacheTime : Int

namespace Private

def timer (d : Private) : Signal → QBasicTimer
  | .statementsAdded => d.addTimer
  | .statementsRemoved => d.removeTimer

def setTimer (d : Private) (signal : Signal) (timer : QBasicTimer) : Private :=
  match signal with
  | .statementsAdded => { d with addTimer := timer }
  | .statementsRemoved => { d with removeTimer := timer }

@[simp] theorem timer_setTimer_same (d : Private) (signal : Signal) (timer : QBasicTimer) :
    (d.setTimer signal timer).timer signal = timer := by
  cases signal <;> rfl

theorem timer_setTimer_ne (d : Private) {signal other : Signal} (timer : QBasicTimer)
    (h : other ≠ signal) : (d.setTimer signal timer).timer other = d.timer other := by
  cases signal <;> cases other <;> first | rfl | exact absurd rfl h

/-- `parentStatementsAdded` and `parentStatementsRemoved`. -/
def parentSignal (d : Private) (signal : Signal) (id : Nat) : Private :=
  if (d.timer signal).isActive then d else d.setTimer signal (.start d.cacheTime id)

def parentStatementsAdded (d : Private) (id : Nat) : Private := d.parentSignal .statementsAdded id

def parentStatementsRemoved (d : Private) (id : Nat) : Private := d.parentSignal .statementsRemoved id

def setCacheTime (d : Private) (msec : Int) : Private := { d with cacheTime := max 0 msec }

/-- What the handler of the timer event emits. -/
def emits (d : Private) (timerId : Nat) : Option Signal :=
  if timerId = d.addTimer.timerId then some .statementsAdded
  else if timerId = d.removeTimer.timerId then some .statementsRemoved
  else none

theorem active_of_emits {d : Private} {timerId : Nat} {signal : Signal} (h : d.emits timerId = some signal)
    (hId : timerId ≠ 0) : (d.timer signal).isActive = true := by
  unfold emits at h
  split at h
  · next hAdd =>
    cases h
    simp [timer, QBasicTimer.isActive, ← hAdd, hId]
  · split at h
    · next hRemove =>
      cases h
      simp [timer, QBasicTimer.isActive, ← hRemove, hId]
    · cases h

theorem active_parentSignal (d : Private) (signal : Signal) {id : Nat} (hId : id ≠ 0) :
    ((d.parentSignal signal id).timer signal).isActive = true := by
  unfold parentSignal
  split
  · assumption
  · simp [QBasicTimer.start, QBasicTimer.isActive, hId]

theorem timer_parentSignal_ne (d : Private) {signal other : Signal} (id : Nat) (h : other ≠ signal) :
    (d.parentSignal signal id).timer other = d.timer other := by
  unfold parentSignal
  split
  · rfl
  · exact timer_setTimer_ne d _ h

end Private

/-- A call in progress: a handler whose emission calls slots, or an event loop that a slot runs. -/
inductive Call
  | emitting (signal : Signal)
  | eventLoop
  deriving DecidableEq

/-- `calls` has the innermost call first; the event loop of the application is below all of them. `pending`
is whether the parent's signal came after the latest emission of that kind began, and `emissions` records
each emission with what `pending` was when it began. -/
structure State where
  d : Private
  calls : List Call
  pending : Signal → Bool
  emissions : List (Signal × Bool)

def init : State := ⟨⟨⟨0, 0⟩, ⟨0, 0⟩, 50⟩, [], fun _ => false, []⟩

/-- The parent's signal comes with the identifier that `startTimer` returns if it is called. In `returned`
the slots of the innermost emission have returned. -/
inductive Action
  | parentSignal (signal : Signal) (id : Nat)
  | setCacheTime (msec : Int)
  | timerEvent (timerId : Nat)
  | returned
  | enterLoop
  | leaveLoop

namespace State

/-- Control is in an event loop, and not in a slot. -/
def InEventLoop (s : State) : Prop := ∀ signal, s.calls.head? ≠ some (.emitting signal)

instance (s : State) : Decidable s.InEventLoop :=
  decidable_of_iff
    (s.calls.head? ≠ some (.emitting .statementsAdded) ∧ s.calls.head? ≠ some (.emitting .statementsRemoved))
    ⟨fun h => fun | .statementsAdded => h.1 | .statementsRemoved => h.2, fun h => ⟨h _, h _⟩⟩

/-- The slot of the parent's signal. -/
def parentSignal (s : State) (signal : Signal) (id : Nat) : State :=
  { s with d := s.d.parentSignal signal id, pending := Function.update s.pending signal true }

/-- The handler up to the emission. -/
def emit (s : State) (signal : Signal) : State :=
  { s with
    calls := .emitting signal :: s.calls
    pending := Function.update s.pending signal false
    emissions := s.emissions ++ [(signal, s.pending signal)] }

/-- `timerEvent`. Another timer's event goes to `QObject::timerEvent`, which does nothing. -/
def timerEvent (s : State) (timerId : Nat) : State :=
  match s.d.emits timerId with
  | some signal => s.emit signal
  | none => s

/-- The handler behind the emission. -/
def stop (s : State) (signal : Signal) (calls : List Call) : State :=
  { s with d := s.d.setTimer signal (s.d.timer signal).stop, calls }

end State

/-- The identifier of a timer is not 0, and events come from an event loop. -/
def step (s : State) : Action → Option State
  | .parentSignal signal id => if id ≠ 0 then some (s.parentSignal signal id) else none
  | .setCacheTime msec => some { s with d := s.d.setCacheTime msec }
  | .timerEvent timerId => if timerId ≠ 0 ∧ s.InEventLoop then some (s.timerEvent timerId) else none
  | .returned =>
    match s.calls with
    | .emitting signal :: calls => some (s.stop signal calls)
    | _ => none
  | .enterLoop => some { s with calls := .eventLoop :: s.calls }
  | .leaveLoop =>
    match s.calls with
    | .eventLoop :: calls => some { s with calls }
    | _ => none

/-- What the cache promises: a change that was not announced has its timer running, and what is announced
has changed. -/
structure Announces (s : State) : Prop where
  active : s.InEventLoop → ∀ signal, s.pending signal = true → (s.d.timer signal).isActive = true
  changed : ∀ emission ∈ s.emissions, emission.2 = true

/-- Neither the parent's signal nor the timer's event comes while an emission of that kind is in progress. -/
def Action.AfterEmission (s : State) : Action → Prop
  | .parentSignal signal _ => .emitting signal ∉ s.calls
  | .timerEvent timerId => ∀ signal ∈ s.d.emits timerId, .emitting signal ∉ s.calls
  | _ => True

instance (s : State) : (a : Action) → Decidable (a.AfterEmission s)
  | .parentSignal signal _ => inferInstanceAs (Decidable (.emitting signal ∉ s.calls))
  | .timerEvent timerId =>
    inferInstanceAs (Decidable (∀ signal ∈ s.d.emits timerId, .emitting signal ∉ s.calls))
  | .setCacheTime _ | .returned | .enterLoop | .leaveLoop => .isTrue trivial

/-- The handler is called by an event loop, and not by a slot. -/
def Call.CalledBy : Call → Call → Prop
  | .emitting _, .emitting _ => False
  | _, _ => True

/-- Outside of an emission of that kind, a timer runs exactly while a change waits; within one, none waits. -/
structure Waiting (s : State) : Prop where
  active : ∀ signal, .emitting signal ∉ s.calls →
    (s.pending signal = true ↔ (s.d.timer signal).isActive = true)
  emitting : ∀ signal, .emitting signal ∈ s.calls → s.pending signal = false
  once : ∀ signal, s.calls.count (.emitting signal) ≤ 1
  nested : s.calls.IsChain Call.CalledBy
  changed : ∀ emission ∈ s.emissions, emission.2 = true

theorem waiting_init : Waiting init where
  active signal _ := by cases signal <;> decide
  emitting _ h := absurd h List.not_mem_nil
  once _ := Nat.zero_le 1
  nested := .nil
  changed _ h := absurd h List.not_mem_nil

theorem Waiting.announces {s : State} (h : Waiting s) : Announces s where
  active _ signal hPending := by
    refine (h.active signal fun hEmitting => ?_).mp hPending
    rw [h.emitting signal hEmitting] at hPending
    cases hPending
  changed := h.changed

variable {s t : State} {signal : Signal}

theorem waiting_parentSignal (h : Waiting s) {id : Nat} (hId : id ≠ 0)
    (hAfter : .emitting signal ∉ s.calls) : Waiting (s.parentSignal signal id) where
  active other hOther := by
    by_cases hSame : other = signal
    · subst hSame
      simp [State.parentSignal, Private.active_parentSignal s.d other hId]
    · simp only [State.parentSignal, Function.update_of_ne hSame,
        Private.timer_parentSignal_ne s.d id hSame]
      exact h.active other hOther
  emitting other hOther := by
    have hNe : other ≠ signal := fun hSame => hAfter (hSame ▸ hOther)
    simp only [State.parentSignal, Function.update_of_ne hNe]
    exact h.emitting other hOther
  once := h.once
  nested := h.nested
  changed := h.changed

theorem waiting_emit (h : Waiting s) (hActive : (s.d.timer signal).isActive = true)
    (hLoop : s.InEventLoop) (hAfter : .emitting signal ∉ s.calls) : Waiting (s.emit signal) where
  active other hOther := by
    have hNe : other ≠ signal := fun hSame => hOther (hSame ▸ List.mem_cons_self)
    simp only [State.emit, Function.update_of_ne hNe]
    exact h.active other fun hRest => hOther (List.mem_cons_of_mem _ hRest)
  emitting other hOther := by
    by_cases hSame : other = signal
    · rw [hSame]
      exact Function.update_self signal false s.pending
    · rcases List.mem_cons.mp hOther with hHead | hRest
      · exact absurd (Call.emitting.inj hHead) hSame
      · simp only [State.emit, Function.update_of_ne hSame]
        exact h.emitting other hRest
  once other := by
    simp only [State.emit, List.count_cons]
    split
    · next hSame =>
      rw [beq_iff_eq, Call.emitting.injEq] at hSame
      simp [← hSame, List.count_eq_zero_of_not_mem hAfter]
    · exact h.once other
  nested := by
    refine List.isChain_cons.mpr ⟨fun call hCall => ?_, h.nested⟩
    cases call with
    | emitting other => exact absurd hCall (hLoop other)
    | eventLoop => trivial
  changed emission hMem := by
    rcases List.mem_append.mp hMem with hMem | hMem
    · exact h.changed emission hMem
    · rw [List.mem_singleton.mp hMem]
      exact (h.active signal hAfter).mpr hActive

/-- The innermost emission ends, and stops its timer: no change waits for it. -/
theorem waiting_stop (h : Waiting s) {calls : List Call} (hCalls : s.calls = .emitting signal :: calls) :
    Waiting (s.stop signal calls) where
  active other hOther := by
    by_cases hSame : other = signal
    · subst hSame
      have hNone : s.pending other = false := h.emitting other (by simp [hCalls])
      simp [State.stop, hNone, QBasicTimer.stop, QBasicTimer.isActive]
    · simp only [State.stop, Private.timer_setTimer_ne s.d _ hSame]
      refine h.active other fun hMem => ?_
      rw [hCalls] at hMem
      rcases List.mem_cons.mp hMem with hHead | hRest
      · exact hSame (Call.emitting.inj hHead)
      · exact hOther hRest
  emitting other hOther := h.emitting other (hCalls ▸ List.mem_cons_of_mem _ hOther)
  once other := by
    have hOnce := h.once other
    rw [hCalls] at hOnce
    exact Nat.le_trans List.count_le_count_cons hOnce
  nested := (hCalls ▸ h.nested).tail
  changed := h.changed

/-- The calls of event loops play no part. -/
theorem waiting_calls (h : Waiting s) {calls : List Call}
    (hCalls : ∀ signal, calls.count (.emitting signal) = s.calls.count (.emitting signal))
    (hNested : calls.IsChain Call.CalledBy) : Waiting { s with calls } := by
  have hMem : ∀ signal, .emitting signal ∈ calls ↔ .emitting signal ∈ s.calls := fun signal => by
    rw [← List.count_pos_iff, ← List.count_pos_iff, hCalls]
  exact
    { active := fun signal hNot => h.active signal fun hIn => hNot ((hMem signal).mpr hIn)
      emitting := fun signal hIn => h.emitting signal ((hMem signal).mp hIn)
      once := fun signal => hCalls signal ▸ h.once signal
      nested := hNested
      changed := h.changed }

theorem waiting_step {a : Action} (h : Waiting s) (hAfter : a.AfterEmission s) (hStep : step s a = some t) :
    Waiting t := by
  cases a with
  | parentSignal signal id =>
    simp only [step, Option.ite_none_right_eq_some] at hStep
    cases hStep.2
    exact waiting_parentSignal h hStep.1 hAfter
  | setCacheTime msec =>
    cases hStep
    refine ⟨fun signal hNot => ?_, h.emitting, h.once, h.nested, h.changed⟩
    cases signal <;> exact h.active _ hNot
  | timerEvent timerId =>
    simp only [step, Option.ite_none_right_eq_some] at hStep
    obtain ⟨⟨hId, hLoop⟩, hStep⟩ := hStep
    cases hStep
    cases hEmits : s.d.emits timerId with
    | none =>
      rw [State.timerEvent, hEmits]
      exact h
    | some signal =>
      rw [State.timerEvent, hEmits]
      exact waiting_emit h (Private.active_of_emits hEmits hId) hLoop (hAfter signal hEmits)
  | returned =>
    simp only [step] at hStep
    split at hStep
    · next signal calls hCalls =>
      cases hStep
      exact waiting_stop h hCalls
    · cases hStep
  | enterLoop =>
    cases hStep
    refine waiting_calls h (fun signal => by simp) (List.isChain_cons.mpr ⟨fun call _ => ?_, h.nested⟩)
    cases call <;> trivial
  | leaveLoop =>
    simp only [step] at hStep
    split at hStep
    · next calls hCalls =>
      cases hStep
      exact waiting_calls h (fun signal => by simp [hCalls]) (hCalls ▸ h.nested).tail
    · cases hStep

/-- A change that waits within an emission of its kind is lost when that emission returns, once the calls
above it have. -/
theorem lost_of_pending {above calls : List Call} (hCalls : s.calls = above ++ .emitting signal :: calls)
    (hPending : s.pending signal = true) (hNested : s.calls.IsChain Call.CalledBy) :
    ∃ later u, run step s later = some u ∧ ¬ Announces u := by
  induction above generalizing s with
  | nil =>
    refine ⟨[.returned], s.stop signal calls, ?_, fun h => ?_⟩
    · rw [run_cons_of_step (t := s.stop signal calls) (by simp [step, hCalls])]
      rfl
    · rw [hCalls] at hNested
      have hLoop : (s.stop signal calls).InEventLoop := fun other hOther =>
        (List.isChain_cons.mp hNested).1 (.emitting other) hOther
      have hActive := h.active hLoop signal hPending
      simp [State.stop, QBasicTimer.stop, QBasicTimer.isActive] at hActive
  | cons call above ih =>
    have hRest : (above ++ .emitting signal :: calls).IsChain Call.CalledBy := (hCalls ▸ hNested).tail
    cases call with
    | emitting other =>
      obtain ⟨later, u, hRun, hLost⟩ := ih (s := s.stop other _) rfl hPending hRest
      refine ⟨.returned :: later, u, ?_, hLost⟩
      have hStep : step s .returned = some (s.stop other (above ++ .emitting signal :: calls)) := by
        simp only [step, hCalls, List.cons_append]
      exact (run_cons_of_step hStep).trans hRun
    | eventLoop =>
      obtain ⟨later, u, hRun, hLost⟩ := ih (s := { s with calls := _ }) rfl hPending hRest
      refine ⟨.leaveLoop :: later, u, ?_, hLost⟩
      have hStep : step s .leaveLoop = some { s with calls := above ++ .emitting signal :: calls } := by
        simp only [step, hCalls, List.cons_append]
      exact (run_cons_of_step hStep).trans hRun

/-- The first step that does not keep clear of an emission may lose a change, or announces none. -/
theorem lost_of_not_afterEmission {a : Action} (h : Waiting s) (hAfter : ¬ a.AfterEmission s)
    (hStep : step s a = some t) : ∃ later u, run step t later = some u ∧ ¬ Announces u := by
  cases a with
  | parentSignal signal id =>
    simp only [step, Option.ite_none_right_eq_some] at hStep
    cases hStep.2
    obtain ⟨above, calls, hCalls⟩ := List.append_of_mem (not_not.mp hAfter)
    exact lost_of_pending (s := s.parentSignal signal id) hCalls (by simp [State.parentSignal]) h.nested
  | timerEvent timerId =>
    simp only [step, Option.ite_none_right_eq_some] at hStep
    cases hStep.2
    simp only [Action.AfterEmission, not_forall, not_not] at hAfter
    obtain ⟨signal, hEmits, hIn⟩ := hAfter
    rw [Option.mem_def] at hEmits
    refine ⟨[], _, rfl, fun hAnnounces => ?_⟩
    have hTrue : s.pending signal = true := by
      refine hAnnounces.changed (signal, s.pending signal) ?_
      simp [State.timerEvent, hEmits, State.emit]
    rw [h.emitting signal hIn] at hTrue
    cases hTrue
  | _ => exact absurd trivial hAfter

/-- Where signals and timer events keep clear of the emissions of their kind, no change is lost and none is
made up; the first that does not keep clear can lose one. -/
theorem announces_of_afterEmission (actions : List Action) (hRun : run step init actions = some s)
    (hAfter : AllMeet step (fun s a => a.AfterEmission s) init actions) :
    Announces s ∧ ∀ a t, ¬ a.AfterEmission s → step s a = some t →
      ∃ later u, run step t later = some u ∧ ¬ Announces u := by
  have hWaiting : Waiting s := Runs.invariant waiting_step waiting_init hAfter hRun
  exact ⟨hWaiting.announces, fun _ _ => lost_of_not_afterEmission hWaiting⟩

/-- Both kinds are cached, and the second is announced from an event loop within the slots of the first. -/
theorem announces_of_afterEmission_example :
    ∃ s, run step init
        [.parentSignal .statementsAdded 1, .parentSignal .statementsAdded 2, .timerEvent 1,
          .parentSignal .statementsRemoved 3, .enterLoop, .timerEvent 3, .returned, .leaveLoop, .returned,
          .parentSignal .statementsAdded 4] = some s ∧
      s.emissions = [(.statementsAdded, true), (.statementsRemoved, true)] ∧ Announces s :=
  ⟨_, rfl, rfl, (announces_of_afterEmission
    [.parentSignal .statementsAdded 1, .parentSignal .statementsAdded 2, .timerEvent 1,
      .parentSignal .statementsRemoved 3, .enterLoop, .timerEvent 3, .returned, .leaveLoop, .returned,
      .parentSignal .statementsAdded 4] rfl (by decide)).1⟩

/-- A slot that is told of new statements adds another one, and that change is never announced. -/
theorem announces_lost :
    ¬ ∀ actions s, run step init actions = some s → Announces s := fun h =>
  absurd
    ((h [.parentSignal .statementsAdded 1, .timerEvent 1, .parentSignal .statementsAdded 2, .returned] _
      rfl).active nofun .statementsAdded rfl)
    (by decide)

end Soprano.Util.SignalCacheModel
