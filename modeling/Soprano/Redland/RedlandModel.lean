import Soprano.Error
import Soprano.Node
import Soprano.Redland.MultiMutex

/-! The operations of `RedlandModel` on one thread, whose listeners read the model: what each asks of the
lock, and where it emits its signals. -/

namespace Soprano.Redland.RedlandModel

open MultiMutex

/-! ### The lock on one thread -/

section Lock

variable {τ : Type} [DecidableEq τ]

/-- What a call of the lock stops with: it waits for what its own thread holds, it is refused, or it does not
end. -/
inductive Stuck where
  | waits
  | refused
  | unfinished
deriving DecidableEq

/-- The thread goes on until it is outside the functions of the lock. -/
def finish (t : τ) : (fuel : Nat) → State τ → Except Stuck (State τ)
  | 0, s => if (s.threads t).location = .outside then .ok s else .error .unfinished
  | fuel + 1, s =>
    if (s.threads t).location = .outside then .ok s
    else
      match s.proceed t with
      | none => .error .waits
      | some s => finish t fuel s

/-- A call of the lock by the one thread that there is, to its end. -/
def call (t : τ) (a : Action τ) (s : State τ) : Except Stuck (State τ) :=
  match step s a with
  | none => .error .refused
  | some s => finish t 9 s

def lockForRead (t : τ) : State τ → Except Stuck (State τ) := call t (.lockForRead t)

def lockForWrite (t : τ) : State τ → Except Stuck (State τ) := call t (.lockForWrite t)

def unlock (t : τ) : State τ → Except Stuck (State τ) := call t (.unlock t)

/-- The thread has the read lock `n` times. -/
def reading (t : τ) (n : Nat) : State τ :=
  { lockMutex := none, readMutex := some t, mainMutex := 1, lockingThread := some t, lockCnt := n,
    lockedForWrite := false,
    threads := Function.update (fun _ => ⟨.outside, 0, false⟩) t ⟨.outside, n, false⟩ }

/-- The thread has the write lock. -/
def writing (t : τ) : State τ :=
  { lockMutex := none, readMutex := none, mainMutex := -1, lockingThread := none, lockCnt := 0,
    lockedForWrite := true,
    threads := Function.update (fun _ => ⟨.outside, 0, false⟩) t ⟨.outside, 0, true⟩ }

attribute [local simp] lockForRead lockForWrite unlock call step finish State.proceed State.goto State.set

variable (t : τ) (n : Nat)

theorem lockForRead_init : lockForRead t init = .ok (reading t 1) := by
  simp [init, reading]

theorem lockForRead_reading : lockForRead t (reading t (n + 1)) = .ok (reading t (n + 2)) := by
  simp [reading]
  omega

theorem lockForRead_writing : lockForRead t (writing t) = .error .waits := by
  simp [writing]

theorem lockForWrite_init : lockForWrite t init = .ok (writing t) := by
  simp [init, writing]

theorem unlock_writing : unlock t (writing t) = .ok init := by
  simp [init, writing, State.unlocked]

theorem unlock_reading : unlock t (reading t (n + 2)) = .ok (reading t (n + 1)) := by
  have hCount : (n : Int) + 2 - 1 = n + 1 := by omega
  have hNested : (n : Int) + 1 ≠ 0 := by omega
  simp [reading, hCount, hNested]

theorem unlock_reading_one : unlock t (reading t 1) = .ok init := by
  simp [init, reading, State.unlocked]

end Lock

/-! ### What a listener may call -/

section Operations

variable [Qt] {τ : Type} [DecidableEq τ] (t : τ)

/-- A call of a function that reads the model, and whether it gets a stream of statements. -/
inductive Read where
  | containsStatement (statement : Statement) (stream : Bool)
  | containsAnyStatement (statement : Statement)
  | listStatements (partialStatement : Statement) (stream : Bool)
  | statementCount

/-- `RedlandModel::removeIterator`, when an iterator is closed -/
def removeIterator (s : State τ) : Except Stuck (State τ) := unlock t s

/-- `RedlandModel::listStatements`, and the use of its iterator until it is closed -/
def listStatements (stream : Bool) (s : State τ) : Except Stuck (State τ) := do
  let s ← lockForRead t s
  if stream then removeIterator t s else unlock t s

/-- What a call asks of the lock. -/
def Read.run (read : Read) (s : State τ) : Except Stuck (State τ) :=
  match read with
  | .containsStatement statement stream =>
    if statement.isValid then do
      let s ← lockForRead t s
      -- without a context it is `StorageModel::containsStatement`
      let s ← if statement.context.isValid then .ok s else RedlandModel.listStatements t stream s
      unlock t s
    else .ok s
  | .containsAnyStatement _ => do
    let s ← lockForRead t s
    unlock t s
  | .listStatements _ stream => RedlandModel.listStatements t stream s
  | .statementCount => do
    let s ← lockForRead t s
    unlock t s

/-- A signal, with what the slots connected to it call -/
def emitSignal (slots : List Read) (s : State τ) : Except Stuck (State τ) :=
  slots.foldlM (fun s read => read.run t s) s

/-! ### The operations -/

/-- The outcomes of an addition: of the conversion of the statement and of the addition to the store, and what
the slots of the two signals call. -/
structure AddCalls where
  converted : Bool
  added : Bool
  statementAdded : List Read
  statementsAdded : List Read

/-- `RedlandModel::addStatement` -/
def addStatement (statement : Statement) (calls : AddCalls) (s : State τ) :
    Except Stuck (ErrorCode × State τ) :=
  if !statement.isValid then .ok (.errorInvalidArgument, s)
  else do
    let s ← lockForWrite t s
    if !calls.converted then
      let s ← unlock t s
      .ok (.errorInvalidArgument, s)
    else if !calls.added then
      -- with `librdf_model_add_statement` or `librdf_model_context_add_statement`
      let s ← unlock t s
      .ok (.errorUnknown, s)
    else
      let s ← unlock t s
      let s ← emitSignal t calls.statementAdded s
      let s ← emitSignal t calls.statementsAdded s
      .ok (.errorNone, s)

/-- The outcomes of the removal of one statement, and what the slots of its signal call. -/
structure RemoveCalls where
  converted : Bool
  removed : Bool
  statementRemoved : List Read

/-- `RedlandModel::removeOneStatement` -/
def removeOneStatement (statement : Statement) (calls : RemoveCalls) (s : State τ) :
    Except Stuck (ErrorCode × State τ) :=
  if !statement.isValid then .ok (.errorInvalidArgument, s)
  else if !calls.converted then .ok (.errorInvalidArgument, s)
  else if !calls.removed then .ok (.errorUnknown, s)
  else do
    let s ← emitSignal t calls.statementRemoved s
    .ok (.errorNone, s)

/-- `RedlandModel::removeStatement` -/
def removeStatement (statement : Statement) (calls : RemoveCalls) (statementsRemoved : List Read)
    (s : State τ) : Except Stuck (ErrorCode × State τ) := do
  let s ← lockForWrite t s
  let (r, s) ← removeOneStatement t statement calls s
  let s ← unlock t s
  let s ← if r = .errorNone then emitSignal t statementsRemoved s else .ok s
  .ok (r, s)

/-- `isContextOnlyStatement` -/
def isContextOnlyStatement (statement : Statement) : Bool :=
  !statement.subject.isValid && !statement.predicate.isValid && !statement.object.isValid &&
    statement.context.isValid

/-- The loop of `removeAllStatements` over the statements that it found, to the first error. -/
def removeEach : (statementsToRemove : List (Statement × RemoveCalls)) → (s : State τ) →
    Except Stuck (ErrorCode × State τ)
  | [], s => .ok (.errorNone, s)
  | (statement, calls) :: statementsToRemove, s => do
    let (error, s) ← removeOneStatement t statement calls s
    if error ≠ .errorNone then .ok (error, s) else removeEach statementsToRemove s

/-- The outcomes of the removal of all statements: of the removal of a context; whether the search for
statements gets a stream, and of what it finds; of the removal of one statement; and what the slots of the
signals call. -/
structure RemoveAllCalls where
  contextRemoved : Bool
  stream : Bool
  statementsToRemove : List (Statement × RemoveCalls)
  one : RemoveCalls
  statementRemoved : List Read
  statementsRemoved : List Read

/-- `RedlandModel::removeAllStatements` -/
def removeAllStatements (statement : Statement) (calls : RemoveAllCalls) (s : State τ) :
    Except Stuck (ErrorCode × State τ) :=
  if isContextOnlyStatement statement then do
    let s ← lockForWrite t s
    if !calls.contextRemoved then
      let s ← unlock t s
      .ok (.errorUnknown, s)
    else
      let s ← unlock t s
      let s ← emitSignal t calls.statementRemoved s
      let s ← emitSignal t calls.statementsRemoved s
      .ok (.errorNone, s)
  else if !statement.isValid || !statement.context.isValid then do
    let s ← listStatements t calls.stream s
    let statementsToRemove := if calls.stream then calls.statementsToRemove else []
    let s ← lockForWrite t s
    let (error, s) ← removeEach t statementsToRemove s
    let s ← unlock t s
    if error ≠ .errorNone then .ok (error, s)
    else
      let s ← if statementsToRemove.isEmpty then .ok s else emitSignal t calls.statementsRemoved s
      .ok (.errorNone, s)
  else removeStatement t statement calls.one calls.statementsRemoved s

/-- An operation that changes the model. -/
inductive Operation where
  | addStatement (statement : Statement) (calls : AddCalls)
  | removeStatement (statement : Statement) (calls : RemoveCalls) (statementsRemoved : List Read)
  | removeAllStatements (statement : Statement) (calls : RemoveAllCalls)

def Operation.run (operation : Operation) (s : State τ) : Except Stuck (ErrorCode × State τ) :=
  match operation with
  | .addStatement statement calls => RedlandModel.addStatement t statement calls s
  | .removeStatement statement calls statementsRemoved =>
    RedlandModel.removeStatement t statement calls statementsRemoved s
  | .removeAllStatements statement calls => RedlandModel.removeAllStatements t statement calls s

/-- Operations one after another. -/
def runAll (operations : List Operation) (s : State τ) : Except Stuck (State τ) :=
  operations.foldlM (fun s operation => Prod.snd <$> operation.run t s) s

/-! ### Who asks for the lock while it is held -/

/-- The call asks for the lock. -/
def Read.Asks : Read → Prop
  | .containsStatement statement _ => statement.isValid = true
  | _ => True

/-- No slot asks for the lock. -/
def Silent (slots : List Read) : Prop := ∀ read ∈ slots, ¬ read.Asks

/-- Where the statement is removed, which is with the lock held, no slot asks for the lock. -/
def RemoveCalls.Quiet (statement : Statement) (calls : RemoveCalls) : Prop :=
  statement.isValid = true → calls.converted = true → calls.removed = true → Silent calls.statementRemoved

/-- So it is for each statement up to the first that is not removed. -/
def QuietEach : List (Statement × RemoveCalls) → Prop
  | [] => True
  | (statement, calls) :: rest =>
    calls.Quiet statement ∧
      (statement.isValid = true ∧ calls.converted = true ∧ calls.removed = true → QuietEach rest)

/-- The operation emits no signal, with the lock held, to a slot that asks for the lock. -/
def Operation.Quiet : Operation → Prop
  | .addStatement _ _ => True
  | .removeStatement statement calls _ => calls.Quiet statement
  | .removeAllStatements statement calls =>
    if isContextOnlyStatement statement then True
    else if !statement.isValid || !statement.context.isValid then
      QuietEach (if calls.stream then calls.statementsToRemove else [])
    else calls.one.Quiet statement

variable {t}

omit [Qt] in
theorem listStatements_init (stream : Bool) : listStatements t stream init = .ok init := by
  cases stream <;>
    simp only [listStatements, removeIterator, lockForRead_init, unlock_reading_one, bind, Except.bind] <;> rfl

omit [Qt] in
theorem listStatements_reading (n : Nat) (stream : Bool) :
    listStatements t stream (reading t (n + 1)) = .ok (reading t (n + 1)) := by
  cases stream <;>
    simp only [listStatements, removeIterator, lockForRead_reading, unlock_reading, bind, Except.bind] <;> rfl

/-- With the lock free every call gets it and gives it up. -/
theorem Read.run_init (read : Read) : read.run t init = .ok init := by
  cases read with
  | containsStatement statement stream =>
    rw [Read.run]
    split
    · cases statement.context.isValid with
      | true => simp only [lockForRead_init, unlock_reading_one, bind, Except.bind, if_true]
      | false =>
        simp only [lockForRead_init, listStatements_reading, bind, Except.bind, Bool.false_eq_true, if_false]
        exact unlock_reading_one t
    · rfl
  | containsAnyStatement statement =>
    simp only [Read.run, lockForRead_init, unlock_reading_one, bind, Except.bind]
  | listStatements partialStatement stream => exact listStatements_init stream
  | statementCount => simp only [Read.run, lockForRead_init, unlock_reading_one, bind, Except.bind]

/-- With the write lock held a call waits, unless it asks for no lock. -/
theorem Read.run_writing_of_asks {read : Read} (h : read.Asks) :
    read.run t (writing t) = .error .waits := by
  cases read with
  | containsStatement statement stream =>
    rw [Read.run, if_pos (show statement.isValid = true from h), lockForRead_writing]
    rfl
  | listStatements partialStatement stream =>
    rw [Read.run, RedlandModel.listStatements, lockForRead_writing]
    rfl
  | containsAnyStatement statement =>
    rw [Read.run, lockForRead_writing]
    rfl
  | statementCount =>
    rw [Read.run, lockForRead_writing]
    rfl

theorem Read.run_of_not_asks {read : Read} (h : ¬ read.Asks) (s : State τ) : read.run t s = .ok s := by
  cases read with
  | containsStatement statement stream => exact if_neg h
  | _ => exact absurd trivial h

theorem emitSignal_init (slots : List Read) : emitSignal t slots init = .ok init := by
  induction slots with
  | nil => rfl
  | cons read slots ih =>
    rw [emitSignal, List.foldlM_cons, read.run_init]
    exact ih

theorem emitSignal_of_silent {slots : List Read} (h : Silent slots) (s : State τ) :
    emitSignal t slots s = .ok s := by
  induction slots with
  | nil => rfl
  | cons read slots ih =>
    rw [emitSignal, List.foldlM_cons, Read.run_of_not_asks (h read List.mem_cons_self)]
    exact ih fun later hLater => h later (List.mem_cons_of_mem _ hLater)

theorem emitSignal_writing {slots : List Read} (h : ¬ Silent slots) :
    emitSignal t slots (writing t) = .error .waits := by
  induction slots with
  | nil => exact absurd (fun read hRead => absurd hRead List.not_mem_nil) h
  | cons read slots ih =>
    rw [emitSignal, List.foldlM_cons]
    by_cases hAsks : read.Asks
    · rw [Read.run_writing_of_asks hAsks]
      rfl
    · rw [Read.run_of_not_asks hAsks]
      exact ih fun hSilent => h (List.forall_mem_cons.mpr ⟨hAsks, hSilent⟩)

/-- What the removal of one statement returns. -/
def removalError (statement : Statement) (calls : RemoveCalls) : ErrorCode :=
  if !statement.isValid || !calls.converted then .errorInvalidArgument
  else if !calls.removed then .errorUnknown
  else .errorNone

theorem removalError_eq_none {statement : Statement} {calls : RemoveCalls} :
    removalError statement calls = .errorNone ↔
      statement.isValid = true ∧ calls.converted = true ∧ calls.removed = true := by
  rw [removalError]
  cases statement.isValid <;> cases calls.converted <;> cases calls.removed <;> simp

theorem removeOneStatement_of_quiet {statement : Statement} {calls : RemoveCalls}
    (h : calls.Quiet statement) :
    removeOneStatement t statement calls (writing t) = .ok (removalError statement calls, writing t) := by
  rw [removeOneStatement, removalError]
  cases hValid : statement.isValid with
  | false => rfl
  | true =>
    cases hConverted : calls.converted with
    | false => rfl
    | true =>
      cases hRemoved : calls.removed with
      | false => rfl
      | true =>
        rw [emitSignal_of_silent (h hValid hConverted hRemoved)]
        rfl

theorem removeOneStatement_of_not_quiet {statement : Statement} {calls : RemoveCalls}
    (h : ¬ calls.Quiet statement) :
    removeOneStatement t statement calls (writing t) = .error .waits := by
  simp only [RemoveCalls.Quiet, Classical.not_imp] at h
  obtain ⟨hValid, hConverted, hRemoved, hSlots⟩ := h
  rw [removeOneStatement, hValid, hConverted, hRemoved, emitSignal_writing hSlots]
  rfl

/-- With the write lock held, the statements are removed up to the first error, or a slot waits. -/
theorem removeEach_writing (statementsToRemove : List (Statement × RemoveCalls)) :
    (QuietEach statementsToRemove →
      ∃ error, removeEach t statementsToRemove (writing t) = .ok (error, writing t)) ∧
    (¬ QuietEach statementsToRemove → removeEach t statementsToRemove (writing t) = .error .waits) := by
  induction statementsToRemove with
  | nil => exact ⟨fun _ => ⟨_, rfl⟩, fun h => absurd trivial h⟩
  | cons first rest ih =>
    obtain ⟨statement, calls⟩ := first
    by_cases hQuiet : calls.Quiet statement
    · have hStep : removeEach t ((statement, calls) :: rest) (writing t) =
          if removalError statement calls ≠ .errorNone then .ok (removalError statement calls, writing t)
          else removeEach t rest (writing t) := by
        rw [removeEach, removeOneStatement_of_quiet hQuiet]
        rfl
      rw [hStep]
      by_cases hRemoved : removalError statement calls = .errorNone
      · rw [if_neg (not_not_intro hRemoved)]
        have hEach : QuietEach ((statement, calls) :: rest) ↔ QuietEach rest :=
          (and_iff_right hQuiet).trans ⟨fun h => h (removalError_eq_none.mp hRemoved), fun h _ => h⟩
        rw [hEach]
        exact ih
      · rw [if_pos hRemoved]
        refine ⟨fun _ => ⟨_, rfl⟩, fun h => absurd ⟨hQuiet, fun hOne => ?_⟩ h⟩
        exact absurd (removalError_eq_none.mpr hOne) hRemoved
    · refine ⟨fun h => absurd h.1 hQuiet, fun _ => ?_⟩
      rw [removeEach, removeOneStatement_of_not_quiet hQuiet]
      rfl

theorem addStatement_init (statement : Statement) (calls : AddCalls) :
    ∃ error, addStatement t statement calls init = .ok (error, init) := by
  rw [addStatement]
  split
  · exact ⟨_, rfl⟩
  · simp only [lockForWrite_init, unlock_writing, emitSignal_init, bind, Except.bind]
    split
    · exact ⟨_, rfl⟩
    · split <;> exact ⟨_, rfl⟩

theorem removeStatement_init (statement : Statement) (calls : RemoveCalls) (statementsRemoved : List Read) :
    (calls.Quiet statement →
      ∃ error, removeStatement t statement calls statementsRemoved init = .ok (error, init)) ∧
    (¬ calls.Quiet statement →
      removeStatement t statement calls statementsRemoved init = .error .waits) := by
  constructor
  · intro h
    simp only [removeStatement, lockForWrite_init, removeOneStatement_of_quiet h, unlock_writing, emitSignal_init,
      bind, Except.bind]
    split <;> exact ⟨_, rfl⟩
  · intro h
    simp only [removeStatement, lockForWrite_init, removeOneStatement_of_not_quiet h, bind, Except.bind]

/-- An operation that finds the lock free leaves it free, or waits in a slot for the lock that it has. -/
theorem Operation.run_init (operation : Operation) :
    (operation.Quiet → ∃ error, operation.run t init = .ok (error, init)) ∧
      (¬ operation.Quiet → operation.run t init = .error .waits) := by
  cases operation with
  | addStatement statement calls =>
    exact ⟨fun _ => addStatement_init statement calls, fun h => absurd trivial h⟩
  | removeStatement statement calls statementsRemoved =>
    exact removeStatement_init statement calls statementsRemoved
  | removeAllStatements statement calls =>
    rw [Operation.run, RedlandModel.removeAllStatements, Operation.Quiet]
    split
    · refine ⟨fun _ => ?_, fun h => absurd trivial h⟩
      simp only [lockForWrite_init, unlock_writing, emitSignal_init, bind, Except.bind]
      split <;> exact ⟨_, rfl⟩
    · split
      · simp only [listStatements_init, lockForWrite_init, bind, Except.bind]
        generalize (if calls.stream then calls.statementsToRemove else []) = statementsToRemove
        obtain ⟨hQuiet, hNot⟩ := removeEach_writing (t := t) statementsToRemove
        refine ⟨fun h => ?_, fun h => ?_⟩
        · obtain ⟨error, hEach⟩ := hQuiet h
          simp only [hEach, unlock_writing, emitSignal_init]
          split
          · exact ⟨_, rfl⟩
          · split <;> exact ⟨_, rfl⟩
        · simp only [hNot h]
      · exact removeStatement_init statement calls.one calls.statementsRemoved

/-- Each operation of a sequence returns with the lock free exactly if none of them emits `statementRemoved`,
with the lock held, to a slot that asks for it. -/
theorem free_iff (t : τ) (operations : List Operation) :
    (∀ done, done <+: operations → runAll t done init = .ok init) ↔
      ∀ operation ∈ operations, operation.Quiet := by
  induction operations with
  | nil =>
    refine iff_of_true (fun done hDone => ?_) (by simp)
    rw [List.prefix_nil.mp hDone]
    rfl
  | cons operation operations ih =>
    obtain ⟨hQuiet, hNot⟩ := operation.run_init (t := t)
    by_cases h : operation.Quiet
    · obtain ⟨error, hRun⟩ := hQuiet h
      have hStep : ∀ done, runAll t (operation :: done) init = runAll t done init := by
        intro done
        rw [runAll, List.foldlM_cons, hRun]
        rfl
      rw [List.forall_mem_cons, and_iff_right h, ← ih]
      constructor
      · intro hAll done hDone
        rw [← hStep]
        exact hAll _ ((List.prefix_cons_inj operation).mpr hDone)
      · intro hAll done hDone
        rcases List.prefix_cons_iff.mp hDone with rfl | ⟨rest, rfl, hRest⟩
        · rfl
        · rw [hStep]
          exact hAll rest hRest
    · refine iff_of_false (fun hAll => ?_) fun hAll => h (hAll operation List.mem_cons_self)
      have hFirst := hAll [operation] ((List.prefix_cons_inj operation).mpr List.nil_prefix)
      rw [runAll, List.foldlM_cons, hNot h] at hFirst
      cases hFirst

end Operations

section Example

local instance redlandModelQt : Qt := asciiQt

/-- A statement is removed, and the slot connected to `statementRemoved` counts the statements. -/
theorem not_free : ¬ ∀ operations : List Operation, ∀ done, done <+: operations →
    runAll () done init = .ok init := by
  intro h
  have hRemoved := h [.removeStatement
    ⟨.ofUri ⟨['s', ':', 's'], rfl⟩, .ofUri ⟨['s', ':', 'p'], rfl⟩, .ofUri ⟨['s', ':', 'o'], rfl⟩, .empty⟩
    ⟨true, true, [.statementCount]⟩ []] _ (List.prefix_refl _)
  have hWaits := (Operation.run_init (t := ()) (.removeStatement
    ⟨.ofUri ⟨['s', ':', 's'], rfl⟩, .ofUri ⟨['s', ':', 'p'], rfl⟩, .ofUri ⟨['s', ':', 'o'], rfl⟩, .empty⟩
    ⟨true, true, [.statementCount]⟩ [])).2 fun hQuiet =>
      hQuiet (by decide) rfl rfl .statementCount List.mem_cons_self trivial
  rw [runAll, List.foldlM_cons, hWaits] at hRemoved
  cases hRemoved

end Example

end Soprano.Redland.RedlandModel
