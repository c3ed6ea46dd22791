import Soprano.Library.Runs
import Soprano.PrefixExpansion
import Soprano.Qt.Arg
import Soprano.Server.LockFile

/-! `VirtuosoController`, which starts and stops a Virtuoso server, in every run of its calls, of the
server's ends and of what else happens to descriptors and to the lock. -/

namespace Soprano

namespace Virtuoso

/-- `VirtuosoController::Status` -/
inductive Status where
  | notRunning
  | startingUp
  | running
  | shuttingDown
  | killing
deriving DecidableEq

/-- `VirtuosoController::ExitStatus` -/
inductive ExitStatus where
  | normalExit
  | forcedExit
  | crashExit
  | thirdPartyExit
deriving DecidableEq

/-- `QProcess::ExitStatus` -/
inductive ProcessExit where
  | normalExit
  | crashExit
deriving DecidableEq

/-- What comes of starting the process: it fails to start, or it writes lines to its standard error, and
ends that way if it is not stopped before. -/
inductive ProcessRun where
  | failsToStart
  | started (lines : List QString) (exit : ProcessExit)

/-- What the lines of a process lead to. -/
inductive Verdict where
  | online
  | restart
  | ended
deriving DecidableEq

/-- The loop over the lines of a process in `waitForVirtuosoToInitialize`. -/
def verdict : List QString → Verdict
  | [] => .ended
  | line :: lines =>
    if line.contains "Delete transaction log".toList then .restart
    else if line.contains "Server online at".toList then .online
    else verdict lines

structure VirtuosoController where
  m_status : Status
  m_lastExitStatus : ExitStatus
  m_virtuosoLock : LockFile
  /-- whether `m_runFlags` has `DebugMode` -/
  debugMode : Bool
  /-- whether the file `m_configFilePath` exists -/
  configFile : Bool
  /-- how many config files exist in the temporary directory -/
  configFiles : Nat
  /-- whether `m_virtuosoProcess` is running -/
  process : Bool
  lastError : QString
  /-- the signals `stopped` -/
  stopped : List ExitStatus
  os : Descriptors

namespace VirtuosoController

variable (c : VirtuosoController)

/-- A new controller, in a process with those descriptors. -/
def init (descriptors : Nat → Option Descriptor) (holder : Option Holder) : VirtuosoController where
  m_status := .notRunning
  m_lastExitStatus := .normalExit
  m_virtuosoLock := ⟨none⟩
  debugMode := false
  configFile := false
  configFiles := 0
  process := false
  lastError := []
  stopped := []
  os := ⟨descriptors, holder⟩

def setError (text : QString) : VirtuosoController := { c with lastError := text }

def clearError : VirtuosoController := { c with lastError := [] }

def releaseLock : VirtuosoController :=
  { c with m_virtuosoLock := (c.m_virtuosoLock.releaseLock c.os).1, os := (c.m_virtuosoLock.releaseLock c.os).2 }

/-- `m_lastExitStatus` behind `slotProcessFinished`. -/
def exitStatus (exit : ProcessExit) : ExitStatus :=
  if exit = .crashExit then .crashExit
  else if c.m_status = .killing then .forcedExit
  else if c.m_status ≠ .shuttingDown then .thirdPartyExit
  else .normalExit

/-- The process ends, and `slotProcessFinished` is called. -/
def slotProcessFinished (exit : ProcessExit) : VirtuosoController :=
  let c := { c with process := false }
  let c := if !c.debugMode && c.configFile then
    { c with configFile := false, configFiles := c.configFiles - 1 } else c
  let c := c.releaseLock
  { c with
    m_lastExitStatus := c.exitStatus exit
    m_status := .notRunning
    stopped := c.stopped ++ [c.exitStatus exit] }

/-- The loop of `waitForVirtuosoToInitialize`, where a process that asks for it is closed and started again,
with the signal `finished` disconnected in between. -/
def follow : List ProcessRun → VirtuosoController → Option (Bool × VirtuosoController)
  | [], _ => none
  | .failsToStart :: _, c => some (c.m_status == .running, { c with process := false })
  | .started lines exit :: later, c =>
    let c := { c with process := true }
    match verdict lines with
    | .online => some (true, { c with m_status := .running })
    | .restart => follow later { c with process := false }
    | .ended =>
      let c := c.slotProcessFinished exit
      some (c.m_status == .running, c)

def waitForVirtuosoToInitialize (processes : List ProcessRun) : Option (Bool × VirtuosoController) :=
  match processes with
  | .failsToStart :: _ => some (false, c)
  | processes => follow processes c

/-- `start`, where `file` is what `open` returns for the lock file, and `processes` are the processes that
are started. -/
def start (storageDir : QString) (debugMode : Bool) (file : Option Nat) (processes : List ProcessRun) :
    Option (Bool × VirtuosoController) :=
  match c.m_status with
  | .startingUp => some (false, c.setError "Virtuoso is already starting up.".toList)
  | .running => some (false, c.setError "Virtuoso is already running.".toList)
  | .shuttingDown | .killing => some (false, c.setError "Virtuoso is not stopped yet.".toList)
  | .notRunning =>
    -- `setFileName` and `aquireLock` release the lock each; the second time there is nothing to release.
    let c := { c with configFile := true, configFiles := c.configFiles + 1, debugMode := debugMode,
                      m_status := .startingUp }
    let c := c.releaseLock
    if c.m_virtuosoLock.Opens c.os file then
      let aquired := c.m_virtuosoLock.aquireLock c.os file
      let c := { c with m_virtuosoLock := aquired.2.1, os := aquired.2.2 }
      if aquired.1.1 then
        (c.waitForVirtuosoToInitialize processes).map fun x =>
          if x.1 then (true, { x.2.clearError with m_status := .running })
          else (false, x.2.setError "Failed to start Virtuoso".toList)
      else
        some (false, c.setError
          (QString.arg (QString.arg
            "Another instance of Soprano (%1) is already running on the data in '%2'.".toList
            (QString.number aquired.1.2)) storageDir))
    else none

/-- `shutdown`, where the process ends within 30 seconds or is killed then. -/
def shutdown (inTime : Bool) (exit : ProcessExit) : Bool × VirtuosoController :=
  if c.process then
    let c := { c with m_status := .shuttingDown }
    if inTime then (true, ((c.slotProcessFinished exit).clearError).releaseLock)
    else
      let c := c.setError "Virtuoso did not shut down after 30 seconds. Process killed.".toList
      (false, (({ c with m_status := .killing }).slotProcessFinished exit).releaseLock)
  else (false, (c.setError "Virtuoso not running. Cannot shutdown.".toList).releaseLock)

/-- What happens: calls of the controller, the end of the process, and what other code of this process and other
processes do. -/
inductive Action where
  | start (storageDir : QString) (debugMode : Bool) (file : Option Nat) (processes : List ProcessRun)
  | shutdown (inTime : Bool) (exit : ProcessExit)
  | exit (exit : ProcessExit)
  | openOther (fd : Nat)
  | closeOther (fd : Nat)
  | lockOther (pid : Nat)
  | unlockOther

def step (c : VirtuosoController) : Action → Option VirtuosoController
  | .start storageDir debugMode file processes =>
    (c.start storageDir debugMode file processes).map Prod.snd
  | .shutdown inTime exit => some (c.shutdown inTime exit).2
  | .exit exit => if c.process then some (c.slotProcessFinished exit) else none
  | .openOther fd =>
    if c.os.descriptors fd = none then
      some { c with os := { c.os with descriptors := Function.update c.os.descriptors fd (some .other) } }
    else none
  | .closeOther fd =>
    if c.os.descriptors fd = some .other then some { c with os := c.os.close fd } else none
  | .lockOther pid =>
    if c.os.holder = none then some { c with os := { c.os with holder := some (.other pid) } } else none
  | .unlockOther =>
    match c.os.holder with
    | some (.other _) => some { c with os := { c.os with holder := none } }
    | _ => none

/-! ### The status -/

/-- The processes end with one that fails to start. -/
def neverStarts : List ProcessRun → Bool
  | [] => false
  | .failsToStart :: _ => true
  | .started lines _ :: later => verdict lines == .restart && neverStarts later

/-- A call of `start` that gets past the status, and fails before a process that would say when it ends. -/
def Stalls (c : VirtuosoController) : Action → Prop
  | .start _ _ file processes => c.m_status = .notRunning ∧
      (file = none ∨ (∃ pid, c.os.holder = some (.other pid)) ∨ neverStarts processes = true)
  | _ => False

/-- Between two actions the process runs exactly in the status that says so. -/
structure Settled (c : VirtuosoController) : Prop where
  process : c.process = true ↔ c.m_status = .running
  status : c.m_status = .notRunning ∨ c.m_status = .running ∨ c.m_status = .startingUp

variable {c} {c' : VirtuosoController}

@[simp] theorem m_status_releaseLock : c.releaseLock.m_status = c.m_status := rfl

@[simp] theorem process_releaseLock : c.releaseLock.process = c.process := rfl

@[simp] theorem m_status_slotProcessFinished (exit : ProcessExit) :
    (c.slotProcessFinished exit).m_status = .notRunning := rfl

@[simp] theorem process_slotProcessFinished (exit : ProcessExit) :
    (c.slotProcessFinished exit).process = false := by
  unfold slotProcessFinished
  simp only [process_releaseLock]
  split <;> rfl

/-- What waiting for the server ends with. -/
theorem follow_spec {processes : List ProcessRun} {b : Bool} (hStatus : c.m_status = .startingUp)
    (h : follow processes c = some (b, c')) :
    (neverStarts processes = true ∧ b = false ∧ c'.m_status = .startingUp ∧ c'.process = false) ∨
      (neverStarts processes = false ∧
        ((b = true ∧ c'.m_status = .running ∧ c'.process = true) ∨
          (b = false ∧ c'.m_status = .notRunning ∧ c'.process = false))) := by
  induction processes generalizing c with
  | nil => cases h
  | cons first later ih =>
    cases first with
    | failsToStart =>
      simp only [follow, Option.some.injEq, Prod.mk.injEq] at h
      obtain ⟨rfl, rfl⟩ := h
      exact .inl ⟨rfl, by simp [hStatus], hStatus, rfl⟩
    | started lines exit =>
      simp only [follow] at h
      cases hVerdict : verdict lines with
      | online =>
        simp only [hVerdict, Option.some.injEq, Prod.mk.injEq] at h
        obtain ⟨rfl, rfl⟩ := h
        exact .inr ⟨by simp [neverStarts, hVerdict], .inl ⟨rfl, rfl, rfl⟩⟩
      | restart =>
        simp only [hVerdict] at h
        have hNext := ih (c := { c with process := false }) hStatus h
        simpa [neverStarts, hVerdict] using hNext
      | ended =>
        simp only [hVerdict, Option.some.injEq, Prod.mk.injEq] at h
        obtain ⟨rfl, rfl⟩ := h
        exact .inr ⟨by simp [neverStarts, hVerdict], .inr ⟨rfl, rfl, process_slotProcessFinished exit⟩⟩

theorem waitForVirtuosoToInitialize_spec {processes : List ProcessRun} {b : Bool}
    (hStatus : c.m_status = .startingUp) (hProcess : c.process = false)
    (h : c.waitForVirtuosoToInitialize processes = some (b, c')) :
    (neverStarts processes = true ∧ b = false ∧ c'.m_status = .startingUp ∧ c'.process = false) ∨
      (neverStarts processes = false ∧
        ((b = true ∧ c'.m_status = .running ∧ c'.process = true) ∨
          (b = false ∧ c'.m_status = .notRunning ∧ c'.process = false))) := by
  unfold waitForVirtuosoToInitialize at h
  split at h
  · cases h
    exact .inl ⟨rfl, rfl, hStatus, hProcess⟩
  · exact follow_spec hStatus h

/-- The controller at the call of `aquireLock`. -/
def starting (c : VirtuosoController) (debugMode : Bool) : VirtuosoController :=
  ({ c with configFile := true, configFiles := c.configFiles + 1, debugMode := debugMode,
            m_status := .startingUp } : VirtuosoController).releaseLock

/-- The controller behind `aquireLock`. -/
def locking (c : VirtuosoController) (debugMode : Bool) (file : Option Nat) : VirtuosoController :=
  let c := c.starting debugMode
  { c with
    m_virtuosoLock := (c.m_virtuosoLock.aquireLock c.os file).2.1
    os := (c.m_virtuosoLock.aquireLock c.os file).2.2 }

variable {storageDir : QString} {debugMode : Bool} {file : Option Nat} {processes : List ProcessRun} {b : Bool}

/-- A call of `start` in another status sets an error and nothing else. -/
theorem start_refused (hStatus : c.m_status ≠ .notRunning)
    (h : c.start storageDir debugMode file processes = some (b, c')) :
    b = false ∧ ∃ text, c' = c.setError text := by
  unfold start at h
  split at h
  · cases h
    exact ⟨rfl, _, rfl⟩
  · cases h
    exact ⟨rfl, _, rfl⟩
  · cases h
    exact ⟨rfl, _, rfl⟩
  · cases h
    exact ⟨rfl, _, rfl⟩
  · exact absurd ‹_› hStatus

/-- What `aquireLock` returns to `start`. -/
def aquired (c : VirtuosoController) (debugMode : Bool) (file : Option Nat) : Bool × Nat :=
  ((c.starting debugMode).m_virtuosoLock.aquireLock (c.starting debugMode).os file).1

theorem start_eq (hStatus : c.m_status = .notRunning) :
    c.start storageDir debugMode file processes =
      if (c.starting debugMode).m_virtuosoLock.Opens (c.starting debugMode).os file then
        if (c.aquired debugMode file).1 then
          ((c.locking debugMode file).waitForVirtuosoToInitialize processes).map fun x =>
            if x.1 then (true, { x.2.clearError with m_status := .running })
            else (false, x.2.setError "Failed to start Virtuoso".toList)
        else
          some (false, (c.locking debugMode file).setError
            (QString.arg (QString.arg
              "Another instance of Soprano (%1) is already running on the data in '%2'.".toList
              (QString.number (c.aquired debugMode file).2)) storageDir))
      else none := by
  simp only [start, hStatus]
  rfl

theorem aquired_iff :
    (c.aquired debugMode file).1 = true ↔ file ≠ none ∧ ∀ pid, c.os.holder ≠ some (.other pid) := by
  have hHolder : ∀ pid, (c.starting debugMode).os.holder = some (.other pid) ↔
      c.os.holder = some (.other pid) := fun pid => LockFile.holder_releaseLock
  rw [aquired]
  rcases LockFile.aquireLock_cases (c.starting debugMode).m_virtuosoLock (c.starting debugMode).os file with
    ⟨rfl, hResult⟩ | ⟨fd, pid, rfl, hOther, hResult⟩ | ⟨fd, rfl, hFree, hResult⟩
  · simp [hResult]
  · rw [hResult]
    exact iff_of_false Bool.false_ne_true fun hNot => hNot.2 pid ((hHolder pid).mp hOther)
  · rw [hResult]
    exact iff_of_true rfl ⟨Option.some_ne_none fd, fun pid hOther => hFree pid ((hHolder pid).mpr hOther)⟩

/-- A call of `start` in the status `NotRunning` is refused the lock, or waits for the server. -/
theorem start_cases (hStatus : c.m_status = .notRunning)
    (h : c.start storageDir debugMode file processes = some (b, c')) :
    (c.starting debugMode).m_virtuosoLock.Opens (c.starting debugMode).os file ∧
      (((c.aquired debugMode file).1 = false ∧ b = false ∧
          ∃ text, c' = (c.locking debugMode file).setError text) ∨
        ((c.aquired debugMode file).1 = true ∧
          ∃ c'', (c.locking debugMode file).waitForVirtuosoToInitialize processes = some (b, c'') ∧
            ((b = true ∧ c' = { c''.clearError with m_status := .running }) ∨
              (b = false ∧ ∃ text, c' = c''.setError text)))) := by
  rw [start_eq hStatus] at h
  split at h
  · rename_i hOpens
    refine ⟨hOpens, ?_⟩
    split at h
    · rename_i hLocked
      obtain ⟨⟨b', c''⟩, hWait, hEq⟩ := Option.map_eq_some_iff.mp h
      cases b' with
      | true =>
        cases hEq
        exact .inr ⟨hLocked, c'', hWait, .inl ⟨rfl, rfl⟩⟩
      | false =>
        cases hEq
        exact .inr ⟨hLocked, c'', hWait, .inr ⟨rfl, _, rfl⟩⟩
    · rename_i hRefused
      cases h
      exact .inl ⟨by simpa using hRefused, rfl, _, rfl⟩
  · cases h

theorem settled_init (descriptors : Nat → Option Descriptor) (holder : Option Holder) :
    (init descriptors holder).Settled :=
  ⟨iff_of_false Bool.false_ne_true (by rintro ⟨⟩), .inl rfl⟩

theorem Settled.of_process (hProcess : c'.process = false)
    (h : c'.m_status = .notRunning ∨ c'.m_status = .startingUp) : c'.Settled := by
  refine ⟨?_, ?_⟩
  · rw [hProcess]
    refine iff_of_false Bool.false_ne_true fun hRunning => ?_
    rcases h with hStatus | hStatus
    · rw [hStatus] at hRunning
      cases hRunning
    · rw [hStatus] at hRunning
      cases hRunning
  · exact h.imp_right .inr

/-- A call of `start` in the status `NotRunning` ends in `StartingUp` exactly if it stalls. -/
theorem Settled.start (h : c.Settled) (hStatus : c.m_status = .notRunning)
    (hCall : c.start storageDir debugMode file processes = some (b, c')) :
    c'.Settled ∧
      (c'.m_status = .startingUp ↔ Stalls c (.start storageDir debugMode file processes)) := by
  have hProcess : c.process = false := by
    rw [← Bool.not_eq_true, h.process, hStatus]
    rintro ⟨⟩
  have hStalls : Stalls c (.start storageDir debugMode file processes) ↔
      (c.aquired debugMode file).1 = false ∨ neverStarts processes = true := by
    rw [← Bool.not_eq_true, aquired_iff]
    simp only [Stalls, hStatus, true_and, not_and, not_forall, not_not]
    by_cases hFile : file = none
    · simp [hFile]
    · simp [hFile]
  rw [hStalls]
  obtain ⟨-, ⟨hRefused, -, text, rfl⟩ | ⟨hLocked, c'', hWait, hEnd⟩⟩ := start_cases hStatus hCall
  · exact ⟨.of_process hProcess (.inr rfl), iff_of_true rfl (.inl hRefused)⟩
  · rw [hLocked]
    rcases waitForVirtuosoToInitialize_spec (c := c.locking debugMode file) rfl hProcess hWait with
      ⟨hNever, rfl, hStalled, hStopped⟩ | ⟨hStarts, ⟨rfl, hRunning, hRuns⟩ | ⟨rfl, hEnded, hStopped⟩⟩
    · obtain ⟨text, rfl⟩ := (hEnd.resolve_left (by simp)).2
      exact ⟨.of_process hStopped (.inr hStalled), iff_of_true hStalled (.inr hNever)⟩
    · obtain rfl := (hEnd.resolve_right (by simp)).2
      refine ⟨⟨iff_of_true hRuns rfl, .inr (.inl rfl)⟩, iff_of_false (by rintro ⟨⟩) ?_⟩
      simp [hStarts]
    · obtain ⟨text, rfl⟩ := (hEnd.resolve_left (by simp)).2
      refine ⟨.of_process hStopped (.inl hEnded), iff_of_false (fun hEq => ?_) (by simp [hStarts])⟩
      have hStatus'' : c''.m_status = .startingUp := hEq
      rw [hEnded] at hStatus''
      cases hStatus''

/-- One action: the status `StartingUp` is reached by a stalled start, and not left. -/
theorem Settled.step {a : Action} (h : c.Settled) (hStep : step c a = some c') :
    c'.Settled ∧ (c'.m_status = .startingUp ↔ c.m_status = .startingUp ∨ Stalls c a) := by
  cases a with
  | start storageDir debugMode file processes =>
    obtain ⟨⟨b, c''⟩, hCall, rfl⟩ := Option.map_eq_some_iff.mp hStep
    by_cases hStatus : c.m_status = .notRunning
    · obtain ⟨hSettled, hIff⟩ := h.start hStatus hCall
      refine ⟨hSettled, hIff.trans (or_iff_right ?_).symm⟩
      rw [hStatus]
      rintro ⟨⟩
    · obtain ⟨-, text, rfl⟩ := start_refused hStatus hCall
      refine ⟨⟨h.process, h.status⟩, (or_iff_left ?_).symm⟩
      exact fun hStalls => hStatus hStalls.1
  | shutdown inTime exit =>
    cases hStep
    simp only [Stalls, or_false, shutdown]
    split
    · rename_i hProcess
      have hRunning := h.process.mp hProcess
      rw [hRunning]
      split
      · exact ⟨.of_process (process_slotProcessFinished exit) (.inl rfl), by simp [clearError]⟩
      · exact ⟨.of_process (process_slotProcessFinished exit) (.inl rfl), by simp⟩
    · exact ⟨⟨h.process, h.status⟩, Iff.rfl⟩
  | exit exit =>
    simp only [VirtuosoController.step, Option.ite_none_right_eq_some] at hStep
    obtain ⟨hProcess, hEq⟩ := hStep
    cases hEq
    refine ⟨.of_process (process_slotProcessFinished exit) (.inl rfl), iff_of_false (by simp) ?_⟩
    rw [h.process.mp hProcess]
    simp [Stalls]
  | openOther fd | closeOther fd | lockOther pid =>
    simp only [VirtuosoController.step, Option.ite_none_right_eq_some] at hStep
    cases hStep.2
    exact ⟨⟨h.process, h.status⟩, by simp [Stalls]⟩
  | unlockOther =>
    simp only [VirtuosoController.step] at hStep
    split at hStep
    · cases hStep
      exact ⟨⟨h.process, h.status⟩, by simp [Stalls]⟩
    · cases hStep

/-- In every run the process runs exactly in the status that says so, and the status is `StartingUp` exactly
if a call of `start` was refused the lock or its process failed to start; no later action leaves it. -/
theorem startingUp_iff {descriptors : Nat → Option Descriptor} {holder : Option Holder}
    {actions : List Action} (hRun : Runs.run step (init descriptors holder) actions = some c) :
    (c.process = true ↔ c.m_status = .running) ∧
      (c.m_status = .notRunning ∨ c.m_status = .running ∨ c.m_status = .startingUp) ∧
      (c.m_status = .startingUp ↔
        ¬ Runs.AllMeet step (fun c a => ¬ Stalls c a) (init descriptors holder) actions) := by
  have hAll : ∀ (actions : List Action) (c₀ : VirtuosoController), c₀.Settled →
      Runs.run step c₀ actions = some c →
      c.Settled ∧ (c.m_status = .startingUp ↔ c₀.m_status = .startingUp ∨
        ¬ Runs.AllMeet step (fun c a => ¬ Stalls c a) c₀ actions) := by
    intro actions
    induction actions with
    | nil =>
      intro c₀ hSettled hRun
      cases hRun
      exact ⟨hSettled, (or_iff_left (not_not.mpr trivial)).symm⟩
    | cons a actions ih =>
      intro c₀ hSettled hRun
      obtain ⟨c₁, hStep, hRest⟩ := Runs.run_cons hRun
      obtain ⟨hSettled₁, hIff⟩ := hSettled.step hStep
      obtain ⟨hEnd, hLast⟩ := ih c₁ hSettled₁ hRest
      refine ⟨hEnd, hLast.trans ?_⟩
      rw [hIff, or_assoc]
      refine or_congr_right ?_
      constructor
      · rintro (hStalls | hNot) hMeets
        · exact hMeets.1 hStalls
        · exact hNot (hMeets.2 c₁ hStep)
      · intro hNot
        by_cases hStalls : Stalls c₀ a
        · exact .inl hStalls
        · exact .inr fun hMeets => hNot (hMeets.cons hStalls hStep)
  obtain ⟨hSettled, hIff⟩ := hAll actions _ (settled_init descriptors holder) hRun
  refine ⟨hSettled.process, hSettled.status, hIff.trans (or_iff_right ?_)⟩
  rintro ⟨⟩

theorem startingUp_iff_refused : ∃ c,
    Runs.run step (init (fun _ => none) (some (.other 7))) [.start [] false (some 3) []] = some c ∧
      (c.m_status = .startingUp ↔ ¬ Runs.AllMeet step (fun c a => ¬ Stalls c a)
        (init (fun _ => none) (some (.other 7))) [.start [] false (some 3) []]) :=
  ⟨_, rfl, (startingUp_iff rfl).2.2⟩

/-! ### Descriptors of others -/

/-- The lock and the descriptors of the controllers are the same. -/
def SameLock (c c' : VirtuosoController) : Prop := c'.m_virtuosoLock = c.m_virtuosoLock ∧ c'.os = c.os

/-- Waiting for the server leaves the lock as it is, or releases it when the process ends. -/
theorem follow_lock (h : follow processes c = some (b, c')) :
    SameLock c c' ∨ b = false ∧ SameLock c.releaseLock c' := by
  induction processes generalizing c with
  | nil => cases h
  | cons first later ih =>
    cases first with
    | failsToStart =>
      cases h
      exact .inl ⟨rfl, rfl⟩
    | started lines exit =>
      simp only [follow] at h
      cases hVerdict : verdict lines with
      | online =>
        simp only [hVerdict, Option.some.injEq, Prod.mk.injEq] at h
        obtain ⟨-, rfl⟩ := h
        exact .inl ⟨rfl, rfl⟩
      | restart =>
        simp only [hVerdict] at h
        exact ih (c := { c with process := false }) h
      | ended =>
        simp only [hVerdict, Option.some.injEq, Prod.mk.injEq] at h
        obtain ⟨rfl, rfl⟩ := h
        refine .inr ⟨rfl, ?_⟩
        unfold slotProcessFinished
        simp only
        split
        · exact ⟨rfl, rfl⟩
        · exact ⟨rfl, rfl⟩

theorem waitForVirtuosoToInitialize_lock (h : c.waitForVirtuosoToInitialize processes = some (b, c')) :
    SameLock c c' ∨ b = false ∧ SameLock c.releaseLock c' := by
  unfold waitForVirtuosoToInitialize at h
  split at h
  · cases h
    exact .inl ⟨rfl, rfl⟩
  · exact follow_lock h

theorem slotProcessFinished_lock (exit : ProcessExit) : SameLock c.releaseLock (c.slotProcessFinished exit) := by
  unfold slotProcessFinished
  simp only
  split
  · exact ⟨rfl, rfl⟩
  · exact ⟨rfl, rfl⟩

section Lock

variable {P : LockFile → Descriptors → Prop}

theorem SameLock.iff (h : SameLock c c') :
    P c'.m_virtuosoLock c'.os ↔ P c.m_virtuosoLock c.os := by rw [h.1, h.2]

/-- What `releaseLock` keeps, and `aquireLock` keeps too, is kept by `start`. -/
theorem lock_start (hRelease : ∀ {d os}, P d os → P (d.releaseLock os).1 (d.releaseLock os).2)
    (hLocking : c.m_status = .notRunning →
      (c.starting debugMode).m_virtuosoLock.Opens (c.starting debugMode).os file →
      P (c.starting debugMode).m_virtuosoLock (c.starting debugMode).os →
      P (c.locking debugMode file).m_virtuosoLock (c.locking debugMode file).os)
    (hCall : c.start storageDir debugMode file processes = some (b, c')) (h : P c.m_virtuosoLock c.os) :
    P c'.m_virtuosoLock c'.os := by
  by_cases hStatus : c.m_status = .notRunning
  · obtain ⟨hOpens, hEnd⟩ := start_cases hStatus hCall
    have hLocked := hLocking hStatus hOpens (hRelease h)
    rcases hEnd with ⟨-, -, text, rfl⟩ | ⟨-, c'', hWait, hEnd⟩
    · exact hLocked
    · have hWaited : P c''.m_virtuosoLock c''.os := by
        rcases waitForVirtuosoToInitialize_lock hWait with hSame | ⟨-, hSame⟩
        · exact hSame.iff.mpr hLocked
        · exact hSame.iff.mpr (hRelease hLocked)
      rcases hEnd with ⟨-, rfl⟩ | ⟨-, text, rfl⟩
      · exact hWaited
      · exact hWaited
  · obtain ⟨-, text, rfl⟩ := start_refused hStatus hCall
    exact h

theorem lock_exit (hRelease : ∀ {d os}, P d os → P (d.releaseLock os).1 (d.releaseLock os).2)
    (exit : ProcessExit) (h : P c.m_virtuosoLock c.os) :
    P (c.slotProcessFinished exit).m_virtuosoLock (c.slotProcessFinished exit).os :=
  (slotProcessFinished_lock exit).iff.mpr (hRelease h)

theorem lock_shutdown (hRelease : ∀ {d os}, P d os → P (d.releaseLock os).1 (d.releaseLock os).2)
    (inTime : Bool) (exit : ProcessExit) (h : P c.m_virtuosoLock c.os) :
    P (c.shutdown inTime exit).2.m_virtuosoLock (c.shutdown inTime exit).2.os := by
  unfold shutdown
  split
  · split
    · exact hRelease (lock_exit (c := { c with m_status := .shuttingDown }) hRelease exit h)
    · exact hRelease (lock_exit (c := { c with m_status := .killing, lastError := _ }) hRelease exit h)
  · exact hRelease h

end Lock

/-- A call of `start` that the lock is refused to. -/
def Refused (c : VirtuosoController) : Action → Prop
  | .start _ _ file _ => c.m_status = .notRunning ∧ file ≠ none ∧ ∃ pid, c.os.holder = some (.other pid)
  | _ => False

/-- The controller remembers no descriptor but one of its own. -/
def Own (d : LockFile) (os : Descriptors) : Prop := ∀ fd, d.fd = some fd → os.descriptors fd = some .lockFile

theorem own_releaseLock {d : LockFile} {os : Descriptors} : Own (d.releaseLock os).1 (d.releaseLock os).2 := by
  intro fd hFd
  rw [LockFile.fd_releaseLock] at hFd
  cases hFd

theorem own_step {a : Action} (hNot : ¬ Refused c a) (hStep : step c a = some c')
    (h : Own c.m_virtuosoLock c.os) : Own c'.m_virtuosoLock c'.os := by
  cases a with
  | start storageDir debugMode file processes =>
    obtain ⟨⟨b, c''⟩, hCall, rfl⟩ := Option.map_eq_some_iff.mp hStep
    refine lock_start (fun _ => own_releaseLock) (fun hStatus _ _ => ?_) hCall h
    have hHolder : ∀ pid, (c.starting debugMode).os.holder = some (.other pid) ↔
        c.os.holder = some (.other pid) := fun pid => LockFile.holder_releaseLock
    simp only [locking]
    rcases LockFile.aquireLock_cases (c.starting debugMode).m_virtuosoLock (c.starting debugMode).os file with
      ⟨rfl, hResult⟩ | ⟨fd, pid, rfl, hOther, -⟩ | ⟨fd, rfl, -, hResult⟩
    · rw [hResult]
      rintro _ ⟨⟩
    · exact absurd ⟨hStatus, Option.some_ne_none fd, pid, (hHolder pid).mp hOther⟩ hNot
    · rw [hResult]
      rintro _ ⟨⟩
      exact Descriptors.opened_self _ fd
  | shutdown inTime exit =>
    cases hStep
    exact lock_shutdown (fun _ => own_releaseLock) inTime exit h
  | exit exit =>
    simp only [step, Option.ite_none_right_eq_some] at hStep
    cases hStep.2
    exact lock_exit (fun _ => own_releaseLock) exit h
  | openOther n =>
    simp only [step, Option.ite_none_right_eq_some] at hStep
    obtain ⟨hFree, hEq⟩ := hStep
    cases hEq
    intro fd hFd
    have hOpen := h fd hFd
    have hNe : fd ≠ n := by
      rintro rfl
      rw [hFree] at hOpen
      cases hOpen
    exact (Function.update_of_ne hNe _ _).trans hOpen
  | closeOther n =>
    simp only [step, Option.ite_none_right_eq_some] at hStep
    obtain ⟨hOther, hEq⟩ := hStep
    cases hEq
    intro fd hFd
    have hOpen := h fd hFd
    have hNe : fd ≠ n := by
      rintro rfl
      rw [hOther] at hOpen
      cases hOpen
    exact (Descriptors.close_of_ne hNe).trans hOpen
  | lockOther pid =>
    simp only [step, Option.ite_none_right_eq_some] at hStep
    cases hStep.2
    exact h
  | unlockOther =>
    simp only [step] at hStep
    split at hStep
    · cases hStep
      exact h
    · cases hStep

/-- The descriptor is open for other code, and `releaseLock` does not close it. -/
def Spared (n : Nat) (d : LockFile) (os : Descriptors) : Prop :=
  os.descriptors n = some .other ∧ (d.fd ≠ some n ∨ n = 0)

theorem spared_releaseLock {n : Nat} {d : LockFile} {os : Descriptors} (h : Spared n d os) :
    Spared n (d.releaseLock os).1 (d.releaseLock os).2 := by
  refine ⟨?_, .inl (by simp)⟩
  by_cases hFd : d.fd = some n
  · obtain rfl := h.2.resolve_left (not_not.mpr hFd)
    simpa [LockFile.releaseLock, hFd] using h.1
  · rw [LockFile.releaseLock_of_ne hFd]
    exact h.1

theorem spared_step {n : Nat} {a : Action} (hNot : a ≠ .closeOther n) (hStep : step c a = some c')
    (h : Spared n c.m_virtuosoLock c.os) : Spared n c'.m_virtuosoLock c'.os := by
  cases a with
  | start storageDir debugMode file processes =>
    obtain ⟨⟨b, c''⟩, hCall, rfl⟩ := Option.map_eq_some_iff.mp hStep
    refine lock_start spared_releaseLock (fun _ hOpens hStart => ?_) hCall h
    have hReleased := spared_releaseLock hStart
    have hNe : ∀ fd, file = some fd → n ≠ fd := by
      rintro fd hFile rfl
      have hFree := hOpens n (by rw [hFile]; rfl)
      rw [hReleased.1] at hFree
      cases hFree
    simp only [locking]
    rcases LockFile.aquireLock_cases (c.starting debugMode).m_virtuosoLock (c.starting debugMode).os file with
      ⟨rfl, hResult⟩ | ⟨fd, pid, rfl, -, hResult⟩ | ⟨fd, rfl, -, hResult⟩
    · rw [hResult]
      exact ⟨hReleased.1, .inl (by rintro ⟨⟩)⟩
    · rw [hResult]
      have hOther := hNe fd rfl
      refine ⟨?_, .inl fun hEq => hOther (Option.some.inj hEq).symm⟩
      rw [Descriptors.close_of_ne hOther, Descriptors.opened_of_ne hOther]
      exact hReleased.1
    · rw [hResult]
      have hOther := hNe fd rfl
      refine ⟨?_, .inl fun hEq => hOther (Option.some.inj hEq).symm⟩
      exact (Descriptors.opened_of_ne hOther).trans hReleased.1
  | shutdown inTime exit =>
    cases hStep
    exact lock_shutdown spared_releaseLock inTime exit h
  | exit exit =>
    simp only [step, Option.ite_none_right_eq_some] at hStep
    cases hStep.2
    exact lock_exit spared_releaseLock exit h
  | openOther fd =>
    simp only [step, Option.ite_none_right_eq_some] at hStep
    obtain ⟨hFree, hEq⟩ := hStep
    cases hEq
    have hNe : n ≠ fd := by
      rintro rfl
      rw [h.1] at hFree
      cases hFree
    exact ⟨(Function.update_of_ne hNe _ _).trans h.1, h.2⟩
  | closeOther fd =>
    simp only [step, Option.ite_none_right_eq_some] at hStep
    cases hStep.2
    have hNe : n ≠ fd := fun hEq => hNot (hEq ▸ rfl)
    exact ⟨(Descriptors.close_of_ne hNe).trans h.1, h.2⟩
  | lockOther pid =>
    simp only [step, Option.ite_none_right_eq_some] at hStep
    cases hStep.2
    exact h
  | unlockOther =>
    simp only [step] at hStep
    split at hStep
    · cases hStep
      exact h
    · cases hStep

/-- The lock is taken, through a descriptor of the controller. -/
def Locked (d : LockFile) (os : Descriptors) : Prop :=
  ∃ fd, d.fd = some fd ∧ os.descriptors fd = some .lockFile ∧ os.holder = some .us

theorem locked_of_aquired (h : (c.aquired debugMode file).1 = true) :
    Locked (c.locking debugMode file).m_virtuosoLock (c.locking debugMode file).os := by
  simp only [locking]
  rw [aquired] at h
  rcases LockFile.aquireLock_cases (c.starting debugMode).m_virtuosoLock (c.starting debugMode).os file with
    ⟨rfl, hResult⟩ | ⟨fd, pid, rfl, -, hResult⟩ | ⟨fd, rfl, -, hResult⟩
  · rw [hResult] at h
    cases h
  · rw [hResult] at h
    cases h
  · rw [hResult]
    exact ⟨fd, rfl, Descriptors.opened_self _ fd, rfl⟩

/-- What other code and other processes do leaves the lock taken. -/
theorem Locked.openOther {d : LockFile} {os : Descriptors} {n : Nat} (h : Locked d os)
    (hFree : os.descriptors n = none) :
    Locked d { os with descriptors := Function.update os.descriptors n (some .other) } := by
  obtain ⟨fd, hFd, hOpen, hHolder⟩ := h
  refine ⟨fd, hFd, (Function.update_of_ne ?_ _ _).trans hOpen, hHolder⟩
  rintro rfl
  rw [hFree] at hOpen
  cases hOpen

theorem Locked.closeOther {d : LockFile} {os : Descriptors} {n : Nat} (h : Locked d os)
    (hOther : os.descriptors n = some .other) : Locked d (os.close n) := by
  obtain ⟨fd, hFd, hOpen, hHolder⟩ := h
  refine ⟨fd, hFd, (Descriptors.close_of_ne ?_).trans hOpen, ?_⟩
  · rintro rfl
    rw [hOther] at hOpen
    cases hOpen
  · simp [Descriptors.close, hOther, hHolder]

theorem locked_step {a : Action} (hSettled : c.Settled) (hStep : step c a = some c')
    (h : c.m_status = .running → Locked c.m_virtuosoLock c.os) (hRunning : c'.m_status = .running) :
    Locked c'.m_virtuosoLock c'.os := by
  cases a with
  | start storageDir debugMode file processes =>
    obtain ⟨⟨b, c''⟩, hCall, rfl⟩ := Option.map_eq_some_iff.mp hStep
    by_cases hStatus : c.m_status = .notRunning
    · obtain ⟨-, ⟨-, -, text, rfl⟩ | ⟨hLocked, c'', hWait, hEnd⟩⟩ := start_cases hStatus hCall
      · cases hRunning
      · rcases waitForVirtuosoToInitialize_lock hWait with hSame | ⟨rfl, -⟩
        · have hWaited := hSame.iff.mpr (locked_of_aquired hLocked)
          rcases hEnd with ⟨-, rfl⟩ | ⟨-, text, rfl⟩
          · exact hWaited
          · exact hWaited
        · obtain ⟨text, rfl⟩ := (hEnd.resolve_left (by simp)).2
          have hProcess : (c.locking debugMode file).process = false := by
            show c.process = false
            rw [← Bool.not_eq_true, hSettled.process, hStatus]
            rintro ⟨⟩
          have hStatus'' : c''.m_status = .running := hRunning
          rcases waitForVirtuosoToInitialize_spec (c := c.locking debugMode file) rfl hProcess hWait with
            ⟨-, -, hStalled, -⟩ | ⟨-, ⟨hFalse, -⟩ | ⟨-, hEnded, -⟩⟩
          · rw [hStalled] at hStatus''
            cases hStatus''
          · cases hFalse
          · rw [hEnded] at hStatus''
            cases hStatus''
    · obtain ⟨-, text, rfl⟩ := start_refused hStatus hCall
      exact h hRunning
  | shutdown inTime exit =>
    cases hStep
    by_cases hProcess : c.process = true
    · cases inTime with
      | true =>
        simp only [shutdown, if_pos hProcess] at hRunning
        cases hRunning
      | false =>
        simp only [shutdown, if_pos hProcess] at hRunning
        cases hRunning
    · simp only [shutdown, if_neg hProcess] at hRunning
      exact absurd (hSettled.process.mpr hRunning) hProcess
  | exit exit =>
    simp only [step, Option.ite_none_right_eq_some] at hStep
    cases hStep.2
    cases hRunning
  | openOther n =>
    simp only [step, Option.ite_none_right_eq_some] at hStep
    obtain ⟨hFree, hEq⟩ := hStep
    cases hEq
    exact (h hRunning).openOther hFree
  | closeOther n =>
    simp only [step, Option.ite_none_right_eq_some] at hStep
    obtain ⟨hOther, hEq⟩ := hStep
    cases hEq
    exact (h hRunning).closeOther hOther
  | lockOther pid =>
    simp only [step, Option.ite_none_right_eq_some] at hStep
    obtain ⟨hFree, hEq⟩ := hStep
    cases hEq
    obtain ⟨fd, -, -, hHolder⟩ := h hRunning
    rw [hFree] at hHolder
    cases hHolder
  | unlockOther =>
    simp only [step] at hStep
    split at hStep
    · rename_i pid hOther
      cases hStep
      obtain ⟨fd, -, -, hHolder⟩ := h hRunning
      rw [hOther] at hHolder
      cases hHolder
    · cases hStep

/-- A descriptor of other code stays open until that code closes it, whatever is called, exactly if the
controller does not remember its number; and it remembers none that is not its own before it was refused the
lock. -/
theorem other_open_iff {descriptors : Nat → Option Descriptor} {holder : Option Holder} {actions : List Action}
    (hRun : Runs.run step (init descriptors holder) actions = some c) {n : Nat}
    (hOther : c.os.descriptors n = some .other) :
    ((∀ later c', (∀ a ∈ later, a ≠ .closeOther n) → Runs.run step c later = some c' →
        c'.os.descriptors n = some .other) ↔ c.m_virtuosoLock.fd ≠ some n ∨ n = 0) ∧
      (Runs.AllMeet step (fun c a => ¬ Refused c a) (init descriptors holder) actions →
        c.m_virtuosoLock.fd ≠ some n) := by
  have hInvariant : c.Settled ∧ (c.m_status = .running → Locked c.m_virtuosoLock c.os) := by
    refine Runs.invariant_of_forall (I := fun c => c.Settled ∧ (c.m_status = .running →
      Locked c.m_virtuosoLock c.os)) (fun h hStep => ?_) ⟨settled_init descriptors holder, ?_⟩ hRun
    · exact ⟨(h.1.step hStep).1, locked_step h.1 hStep h.2⟩
    · rintro ⟨⟩
  obtain ⟨hSettled, hLocked⟩ := hInvariant
  refine ⟨⟨fun hAll => ?_, fun hSpared later c' hNot hLater => ?_⟩, fun hMeets hFd => ?_⟩
  · by_contra hRemembered
    rw [not_or, not_not] at hRemembered
    obtain ⟨hFd, hPos⟩ := hRemembered
    have hProcess : ¬ c.process = true := by
      intro hProcess
      obtain ⟨fd, hFd', hOpen, -⟩ := hLocked (hSettled.process.mp hProcess)
      obtain rfl := Option.some.inj (hFd.symm.trans hFd')
      rw [hOther] at hOpen
      cases hOpen
    have hClosed := hAll [.shutdown true .normalExit] _ (by simp) rfl
    simp only [shutdown, if_neg hProcess, releaseLock] at hClosed
    have hRelease : (c.m_virtuosoLock.releaseLock c.os).2 = c.os.close n :=
      LockFile.releaseLock_self hFd (Nat.pos_of_ne_zero hPos)
    have hSame : (c.setError "Virtuoso not running. Cannot shutdown.".toList).os = c.os := rfl
    have hSameLock : (c.setError "Virtuoso not running. Cannot shutdown.".toList).m_virtuosoLock =
        c.m_virtuosoLock := rfl
    rw [hSame, hSameLock, hRelease, Descriptors.close_self] at hClosed
    cases hClosed
  · have hKept : Spared n c'.m_virtuosoLock c'.os := by
      refine Runs.invariant (I := fun c => Spared n c.m_virtuosoLock c.os) (fun h hMeets hStep => spared_step hMeets hStep h)
        ⟨hOther, hSpared⟩ (.of_forall fun a ha _ => hNot a ha) hLater
    exact hKept.1
  · have hOwn : Own c.m_virtuosoLock c.os := by
      refine Runs.invariant (I := fun c => Own c.m_virtuosoLock c.os)
        (fun h hMeets hStep => own_step hMeets hStep h) ?_ hMeets hRun
      rintro _ ⟨⟩
    have hOpen := hOwn n hFd
    rw [hOther] at hOpen
    cases hOpen

theorem other_open_iff_stale : ∃ c,
    Runs.run step (init (fun _ => none) (some (.other 7))) [.start [] false (some 3) [], .openOther 3] =
      some c ∧
    ((∀ later c', (∀ a ∈ later, a ≠ .closeOther 3) → Runs.run step c later = some c' →
        c'.os.descriptors 3 = some .other) ↔ c.m_virtuosoLock.fd ≠ some 3 ∨ 3 = 0) := by
  have hRun : ∃ c, Runs.run step (init (fun _ => none) (some (.other 7)))
      [.start [] false (some 3) [], .openOther 3] = some c ∧ c.os.descriptors 3 = some .other := ⟨_, rfl, rfl⟩
  obtain ⟨c, hRun, hOther⟩ := hRun
  exact ⟨c, hRun, (other_open_iff hRun hOther).1⟩

/-! ### What a server leaves behind -/

/-- The descriptor of the lock is the one that the controller remembers, and the lock is taken through it
alone. -/
structure Clean (d : LockFile) (os : Descriptors) : Prop where
  descriptor : ∀ n, os.descriptors n = some .lockFile ↔ d.fd = some n
  positive : d.fd ≠ some 0
  holder : os.holder = some .us → d.fd ≠ none

theorem clean_releaseLock {d : LockFile} {os : Descriptors} (h : Clean d os) :
    Clean (d.releaseLock os).1 (d.releaseLock os).2 := by
  cases hFd : d.fd with
  | none =>
    have hSame : d.releaseLock os = (d, os) := by
      cases d
      simp_all [LockFile.releaseLock]
    rw [hSame]
    exact h
  | some fd =>
    have hPos : 0 < fd := Nat.pos_of_ne_zero fun hZero => h.positive (hZero ▸ hFd)
    rw [LockFile.releaseLock_self hFd hPos]
    refine ⟨fun n => ?_, by simp, fun hHolder => ?_⟩
    · rw [LockFile.fd_releaseLock]
      refine iff_of_false (fun hOpen => ?_) (by rintro ⟨⟩)
      by_cases hEq : n = fd
      · rw [hEq, Descriptors.close_self] at hOpen
        cases hOpen
      · rw [Descriptors.close_of_ne hEq, h.descriptor, hFd] at hOpen
        exact hEq (Option.some.inj hOpen).symm
    · simp [Descriptors.close, (h.descriptor fd).mpr hFd] at hHolder

/-- What holds between two actions unless a start stalled, where none was in debug mode and none was given the
descriptor 0. -/
structure Tidy (c : VirtuosoController) : Prop where
  debugMode : c.debugMode = false
  clean : c.m_status ≠ .startingUp → Clean c.m_virtuosoLock c.os
  running : c.m_status = .running → c.configFile = true ∧ c.configFiles = 1
  stopped : c.m_status = .notRunning →
    c.m_virtuosoLock.fd = none ∧ c.configFile = false ∧ c.configFiles = 0

/-- A call of `start` in debug mode, or one that is given the descriptor 0. -/
def Leaves : Action → Prop
  | .start _ debugMode file _ => debugMode = true ∨ file = some 0
  | _ => False

/-- The end of the process removes its config file. -/
theorem config_slotProcessFinished (hDebug : c.debugMode = false) (hFile : c.configFile = true)
    (hFiles : c.configFiles = 1) (exit : ProcessExit) :
    (c.slotProcessFinished exit).debugMode = false ∧ (c.slotProcessFinished exit).configFile = false ∧
      (c.slotProcessFinished exit).configFiles = 0 := by
  simp [slotProcessFinished, releaseLock, hDebug, hFile, hFiles]

theorem tidy_slotProcessFinished (hDebug : c.debugMode = false) (hFile : c.configFile = true)
    (hFiles : c.configFiles = 1) (hClean : Clean c.m_virtuosoLock c.os) (exit : ProcessExit) :
    (c.slotProcessFinished exit).Tidy := by
  obtain ⟨hDebug', hFile', hFiles'⟩ := config_slotProcessFinished hDebug hFile hFiles exit
  refine ⟨hDebug', fun _ => lock_exit clean_releaseLock exit hClean, by rintro ⟨⟩, fun _ => ⟨?_, hFile', hFiles'⟩⟩
  rw [(slotProcessFinished_lock (c := c) exit).1]
  exact LockFile.fd_releaseLock

theorem tidy_follow (hDebug : c.debugMode = false) (hFile : c.configFile = true) (hFiles : c.configFiles = 1)
    (hStatus : c.m_status = .startingUp) (hClean : Clean c.m_virtuosoLock c.os)
    (h : follow processes c = some (b, c')) : c'.Tidy := by
  induction processes generalizing c with
  | nil => cases h
  | cons first later ih =>
    cases first with
    | failsToStart =>
      cases h
      refine ⟨hDebug, fun _ => hClean, fun _ => ⟨hFile, hFiles⟩, fun hNot => ?_⟩
      have hNot : c.m_status = .notRunning := hNot
      rw [hStatus] at hNot
      cases hNot
    | started lines exit =>
      simp only [follow] at h
      cases hVerdict : verdict lines with
      | online =>
        simp only [hVerdict, Option.some.injEq, Prod.mk.injEq] at h
        obtain ⟨-, rfl⟩ := h
        exact ⟨hDebug, fun _ => hClean, fun _ => ⟨hFile, hFiles⟩, by rintro ⟨⟩⟩
      | restart =>
        simp only [hVerdict] at h
        exact ih (c := { c with process := false }) hDebug hFile hFiles hStatus hClean h
      | ended =>
        simp only [hVerdict, Option.some.injEq, Prod.mk.injEq] at h
        obtain ⟨-, rfl⟩ := h
        exact tidy_slotProcessFinished (c := { c with process := true }) hDebug hFile hFiles hClean exit

theorem clean_locking (hFile : file ≠ some 0) (hLocked : (c.aquired debugMode file).1 = true)
    (hClean : Clean (c.starting debugMode).m_virtuosoLock (c.starting debugMode).os) :
    Clean (c.locking debugMode file).m_virtuosoLock (c.locking debugMode file).os := by
  have hReleased := clean_releaseLock hClean
  have hNone : (c.starting debugMode).m_virtuosoLock.fd = none := LockFile.fd_releaseLock
  simp only [locking]
  rw [aquired] at hLocked
  rcases LockFile.aquireLock_cases (c.starting debugMode).m_virtuosoLock (c.starting debugMode).os file with
    ⟨rfl, hResult⟩ | ⟨fd, pid, rfl, -, hResult⟩ | ⟨fd, rfl, -, hResult⟩
  · rw [hResult] at hLocked
    cases hLocked
  · rw [hResult] at hLocked
    cases hLocked
  · rw [hResult]
    refine ⟨fun n => ?_, hFile, fun _ => Option.some_ne_none fd⟩
    by_cases hEq : n = fd
    · rw [hEq]
      exact iff_of_true (Descriptors.opened_self _ fd) rfl
    · refine iff_of_false (fun hOpen => ?_) fun hFd => hEq (Option.some.inj hFd).symm
      have hOld := (Descriptors.opened_of_ne hEq).symm.trans hOpen
      rw [hReleased.descriptor, LockFile.fd_releaseLock] at hOld
      cases hOld

theorem tidy_start (hSettled : c.Settled) (h : c.Tidy)
    (hPlain : ¬ Leaves (.start storageDir debugMode file processes))
    (hCall : c.start storageDir debugMode file processes = some (b, c')) : c'.Tidy := by
  have hDebug : debugMode = false := by simpa using fun hMode => hPlain (.inl hMode)
  by_cases hStatus : c.m_status = .notRunning
  · obtain ⟨-, hNoFile, hFiles⟩ := h.stopped hStatus
    have hClean := clean_releaseLock (h.clean (by rw [hStatus]; rintro ⟨⟩))
    obtain ⟨-, ⟨-, -, text, rfl⟩ | ⟨hLocked, c'', hWait, hEnd⟩⟩ := start_cases hStatus hCall
    · exact ⟨hDebug, fun hNot => absurd rfl hNot, by rintro ⟨⟩, by rintro ⟨⟩⟩
    · have hCleanLock := clean_locking (fun hZero => hPlain (.inr hZero)) hLocked hClean
      have hOne : (c.locking debugMode file).configFiles = 1 := by
        show c.configFiles + 1 = 1
        rw [hFiles]
      have hWaited : c''.Tidy := by
        unfold waitForVirtuosoToInitialize at hWait
        split at hWait
        · cases hWait
          exact ⟨hDebug, fun hNot => absurd rfl hNot, by rintro ⟨⟩, by rintro ⟨⟩⟩
        · exact tidy_follow hDebug rfl hOne rfl hCleanLock hWait
      have hProcess : (c.locking debugMode file).process = false := by
        show c.process = false
        rw [← Bool.not_eq_true, hSettled.process, hStatus]
        rintro ⟨⟩
      rcases hEnd with ⟨rfl, rfl⟩ | ⟨-, text, rfl⟩
      · rcases waitForVirtuosoToInitialize_spec (c := c.locking debugMode file) rfl hProcess hWait with
          ⟨-, hFalse, -⟩ | ⟨-, ⟨-, hRunning, -⟩ | ⟨hFalse, -⟩⟩
        · cases hFalse
        · refine ⟨hWaited.debugMode, fun _ => hWaited.clean ?_, fun _ => hWaited.running hRunning, by rintro ⟨⟩⟩
          rw [hRunning]
          rintro ⟨⟩
        · cases hFalse
      · exact ⟨hWaited.debugMode, hWaited.clean, hWaited.running, hWaited.stopped⟩
  · obtain ⟨-, text, rfl⟩ := start_refused hStatus hCall
    exact ⟨h.debugMode, h.clean, h.running, h.stopped⟩

theorem Tidy.release (h : c.Tidy) : c.releaseLock.Tidy :=
  ⟨h.debugMode, fun hStatus => clean_releaseLock (h.clean hStatus), h.running,
    fun hStatus => ⟨LockFile.fd_releaseLock, (h.stopped hStatus).2⟩⟩

/-- Other code and other processes change no descriptor of the lock. -/
theorem Tidy.of_os (h : c.Tidy) {os : Descriptors}
    (hOpen : ∀ n, os.descriptors n = some .lockFile ↔ c.os.descriptors n = some .lockFile)
    (hHolder : os.holder = some .us → c.os.holder = some .us) : ({ c with os := os } : VirtuosoController).Tidy :=
  ⟨h.debugMode, fun hStatus => ⟨fun n => (hOpen n).trans ((h.clean hStatus).descriptor n), (h.clean hStatus).positive,
    fun hUs => (h.clean hStatus).holder (hHolder hUs)⟩, h.running, h.stopped⟩

theorem tidy_step {a : Action} (hSettled : c.Settled) (hPlain : ¬ Leaves a) (hStep : step c a = some c')
    (h : c.Tidy) : c'.Tidy := by
  cases a with
  | start storageDir debugMode file processes =>
    obtain ⟨⟨b, c''⟩, hCall, rfl⟩ := Option.map_eq_some_iff.mp hStep
    exact tidy_start hSettled h hPlain hCall
  | shutdown inTime exit =>
    cases hStep
    unfold shutdown
    split
    · rename_i hProcess
      have hRunning := hSettled.process.mp hProcess
      obtain ⟨hFile, hFiles⟩ := h.running hRunning
      have hClean := h.clean (by rw [hRunning]; rintro ⟨⟩)
      split
      · have hEnd := tidy_slotProcessFinished (c := { c with m_status := .shuttingDown }) h.debugMode hFile hFiles
          hClean exit
        exact Tidy.release (c := clearError _) ⟨hEnd.debugMode, hEnd.clean, hEnd.running, hEnd.stopped⟩
      · exact Tidy.release (tidy_slotProcessFinished (c := { c with m_status := .killing, lastError := _ })
          h.debugMode hFile hFiles hClean exit)
    · exact Tidy.release (c := setError _ _) ⟨h.debugMode, h.clean, h.running, h.stopped⟩
  | exit exit =>
    simp only [step, Option.ite_none_right_eq_some] at hStep
    obtain ⟨hProcess, hEq⟩ := hStep
    cases hEq
    have hRunning := hSettled.process.mp hProcess
    obtain ⟨hFile, hFiles⟩ := h.running hRunning
    exact tidy_slotProcessFinished h.debugMode hFile hFiles (h.clean (by rw [hRunning]; rintro ⟨⟩)) exit
  | openOther n =>
    simp only [step, Option.ite_none_right_eq_some] at hStep
    obtain ⟨hFree, hEq⟩ := hStep
    cases hEq
    refine h.of_os (fun m => ?_) id
    by_cases hSame : m = n
    · simp [hSame, hFree]
    · simp [hSame]
  | closeOther n =>
    simp only [step, Option.ite_none_right_eq_some] at hStep
    obtain ⟨hOther, hEq⟩ := hStep
    cases hEq
    refine h.of_os (fun m => ?_) fun hUs => ?_
    · by_cases hSame : m = n
      · simp [hSame, hOther]
      · rw [Descriptors.close_of_ne hSame]
    · simpa [Descriptors.close, hOther] using hUs
  | lockOther pid =>
    simp only [step, Option.ite_none_right_eq_some] at hStep
    cases hStep.2
    exact h.of_os (fun _ => Iff.rfl) (by rintro ⟨⟩)
  | unlockOther =>
    simp only [step] at hStep
    split at hStep
    · cases hStep
      exact h.of_os (fun _ => Iff.rfl) (by rintro ⟨⟩)
    · cases hStep

/-- A server leaves nothing behind: where no start was in debug mode or was given the descriptor 0, no config
file, no descriptor and no lock is left in the status `NotRunning`, and in the status `Running` there is one of
each. -/
theorem nothing_left {descriptors : Nat → Option Descriptor} {holder : Option Holder} {actions : List Action}
    (hDescriptors : ∀ n, descriptors n ≠ some .lockFile) (hHolder : holder ≠ some .us)
    (hPlain : ∀ a ∈ actions, ¬ Leaves a)
    (hRun : Runs.run step (init descriptors holder) actions = some c) :
    (c.m_status = .notRunning → c.configFiles = 0 ∧ (∀ n, c.os.descriptors n ≠ some .lockFile) ∧
        c.os.holder ≠ some .us) ∧
      (c.m_status = .running → c.configFiles = 1 ∧ (∃! n, c.os.descriptors n = some .lockFile) ∧
        c.os.holder = some .us) := by
  have hInvariant : (c.Settled ∧ (c.m_status = .running → Locked c.m_virtuosoLock c.os)) ∧ c.Tidy := by
    refine Runs.invariant (I := fun c => (c.Settled ∧ (c.m_status = .running →
      Locked c.m_virtuosoLock c.os)) ∧ c.Tidy) (fun h hMeets hStep => ?_)
      ⟨⟨settled_init descriptors holder, ?_⟩, rfl, fun _ => ?_, ?_, fun _ => ⟨rfl, rfl, rfl⟩⟩
      (.of_forall fun a ha _ => hPlain a ha) hRun
    · exact ⟨⟨(h.1.1.step hStep).1, locked_step h.1.1 hStep h.1.2⟩, tidy_step h.1.1 hMeets hStep h.2⟩
    · rintro ⟨⟩
    · exact ⟨fun n => iff_of_false (hDescriptors n) (by rintro ⟨⟩), by rintro ⟨⟩, fun hUs => absurd hUs hHolder⟩
    · rintro ⟨⟩
  obtain ⟨⟨-, hLocked⟩, hTidy⟩ := hInvariant
  refine ⟨fun hStatus => ?_, fun hStatus => ?_⟩
  · obtain ⟨hFd, -, hFiles⟩ := hTidy.stopped hStatus
    have hClean := hTidy.clean (by rw [hStatus]; rintro ⟨⟩)
    refine ⟨hFiles, fun n hOpen => ?_, fun hUs => hClean.holder hUs hFd⟩
    rw [hClean.descriptor, hFd] at hOpen
    cases hOpen
  · obtain ⟨fd, hFd, hOpen, hUs⟩ := hLocked hStatus
    have hClean := hTidy.clean (by rw [hStatus]; rintro ⟨⟩)
    refine ⟨(hTidy.running hStatus).2, ⟨fd, hOpen, fun n hOther => ?_⟩, hUs⟩
    have hSame := (hClean.descriptor n).mp hOther
    exact Option.some.inj (hSame.symm.trans hFd)

theorem nothing_left_online : ∃ c,
    Runs.run step (init (fun _ => none) none)
      [.start [] false (some 3) [.started ["Server online at 1113".toList] .normalExit]] = some c ∧
    (c.m_status = .running → c.configFiles = 1 ∧ (∃! n, c.os.descriptors n = some .lockFile) ∧
      c.os.holder = some .us) := by
  have hRun : ∃ c, Runs.run step (init (fun _ => none) none)
      [.start [] false (some 3) [.started ["Server online at 1113".toList] .normalExit]] = some c := ⟨_, rfl⟩
  obtain ⟨c, hRun⟩ := hRun
  refine ⟨c, hRun, (nothing_left ?_ ?_ ?_ hRun).2⟩
  · rintro n ⟨⟩
  · rintro ⟨⟩
  · intro a ha
    obtain rfl := List.mem_singleton.mp ha
    simp [Leaves]

end VirtuosoController

end Virtuoso

end Soprano
