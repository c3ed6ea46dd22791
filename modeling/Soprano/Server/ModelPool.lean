import Soprano.Library.Runs
import Soprano.Server.ServerCore

/-! The pool of models and the core behind it, when the threads of several connections and the thread
of the D-Bus adaptor create and remove models. -/

namespace Soprano

namespace Server

variable {SI NI QI : Type}

section Qt

variable [Qt]

/-- What a connection's thread uses of the core. -/
def ServerCore.host (base : Host ServerCore Nat SI NI QI) (backend : Nat → Option Error)
    (thread : Nat) : Host ServerCore Nat SI NI QI :=
  { base with
    model := ServerCore.model backend thread
    removeModel := ServerCore.removeModel thread }

end Qt

/-- What the thread of a connection is in the middle of. -/
inductive Task where
  /-- `ServerConnection::removeModel`, between the call of the pool and the one of the core. -/
  | removing (name : QString)
  /-- An operation on a model that the pool returned. -/
  | operating (model : Nat)

/-- The pool, the core and the tasks of the threads. -/
structure Models (SI NI QI : Type) where
  pool : State ServerCore Nat SI NI QI
  tasks : QHash Nat Task

namespace Models

/-- A step of one thread.  A socket removal is two steps, as the pool and the core are called one after
the other, and so is an operation on a model, as it goes on after `getModel`. -/
inductive Step where
  | createModel (thread : Nat) (name : QString)
  | removeModel (thread : Nat) (name : QString)
  | finishRemoveModel (thread : Nat)
  | dbusCreateModel (thread : Nat) (name : QString)
  | dbusRemoveModel (thread : Nat) (name : QString)
  | getModel (thread : Nat) (id : UInt32)
  | finishOperation (thread : Nat)

section Qt

variable [Qt] (base : Host ServerCore Nat SI NI QI) (backend : Nat → Option Error)

/-- `none` where the thread is in the middle of something else, or never goes on. -/
def perform (σ : Models SI NI QI) : Step → Option (Models SI NI QI)
  | .createModel thread name =>
    match σ.tasks.lookup thread with
    | none => (ModelPool.idForModelName (ServerCore.host base backend thread) σ.pool name).map
        fun (_, pool) => { σ with pool := pool }
    | some _ => none
  | .removeModel thread name =>
    match σ.tasks.lookup thread with
    | none => some ⟨ModelPool.removeModel σ.pool name, σ.tasks.insert thread (.removing name)⟩
    | some _ => none
  | .finishRemoveModel thread =>
    match σ.tasks.lookup thread with
    | some (.removing name) => some
        ⟨{ σ.pool with world := σ.pool.world.removeModel thread name }, σ.tasks.remove thread⟩
    | _ => none
  | .dbusCreateModel thread name => some
      { σ with pool := { σ.pool with world := (σ.pool.world.model backend thread name).2 } }
  | .dbusRemoveModel thread name => some
      { σ with pool := { σ.pool with world := σ.pool.world.removeModel thread name } }
  | .getModel thread id =>
    match σ.tasks.lookup thread with
    | none =>
      match ModelPool.modelById σ.pool id with
      | some p => some { σ with tasks := σ.tasks.insert thread (.operating p) }
      | none => some σ
    | some _ => none
  | .finishOperation thread =>
    match σ.tasks.lookup thread with
    | some (.operating _) => some { σ with tasks := σ.tasks.remove thread }
    | _ => none

end Qt

/-- The state of a server that was just started. -/
def init (draws : List UInt32) : Models SI NI QI :=
  ⟨⟨ServerCore.init, [], [], [], [], [], draws⟩, []⟩

/-- The name that a removal is about. -/
def Step.removes (σ : Models SI NI QI) : Step → Option QString
  | .removeModel _ name | .dbusRemoveModel _ name => some name
  | .finishRemoveModel thread =>
    match σ.tasks.lookup thread with
    | some (.removing name) => some name
    | _ => none
  | _ => none

/-- The core can delete the model of the name: the pool does not know it and no operation is on it. -/
def Deletable (σ : Models SI NI QI) (name : QString) : Prop :=
  σ.pool.modelNameMap.lookup name = none ∧
    ∀ p, σ.pool.world.models.lookup name = some (some p) →
      ∀ thread, σ.tasks.lookup thread ≠ some (.operating p)

/-- The condition: the pool is told of the name, or has no model with the id 0; the core can delete the
model that it is told to remove. -/
def Step.Meets (σ : Models SI NI QI) : Step → Prop
  | .removeModel _ name => σ.pool.modelNameMap.lookup name ≠ none ∨
      σ.pool.modelIdMap.lookup 0 = none
  | .finishRemoveModel thread => ∀ name, σ.tasks.lookup thread = some (.removing name) →
      σ.Deletable name
  | .dbusRemoveModel _ name => σ.Deletable name
  | _ => True

/-- The maps of the pool are inverse to each other, and each id is that of the model which the core
holds under the name, a model that is not deleted. -/
structure Consistent (σ : Models SI NI QI) : Prop where
  known : ∀ name id, σ.pool.modelNameMap.lookup name = some id →
    ∃ p, ModelPool.modelById σ.pool id = some p ∧
      σ.pool.world.models.lookup name = some (some p) ∧ p ∈ σ.pool.world.alive
  named : ∀ id, (ModelPool.modelById σ.pool id).isSome = true →
    ∃ name, σ.pool.modelNameMap.lookup name = some id
  distinct : ∀ name other id, σ.pool.modelNameMap.lookup name = some id →
    σ.pool.modelNameMap.lookup other = some id → name = other

/-- What holds in each state. -/
structure Invariant (σ : Models SI NI QI) : Prop extends Consistent σ where
  owns : ServerCore.Owns σ.pool.world
  operating : ∀ thread p, σ.tasks.lookup thread = some (.operating p) →
    ∃ name, σ.pool.world.models.lookup name = some (some p)

variable {σ τ : Models SI NI QI}

/-- Every pointer of the id map is to a model that exists. -/
theorem Consistent.alive (h : Consistent σ) {id : UInt32} {p : Nat}
    (hId : ModelPool.modelById σ.pool id = some p) : p ∈ σ.pool.world.alive := by
  obtain ⟨name, hName⟩ := h.named id (by rw [hId, Option.isSome_some])
  obtain ⟨q, hq, -, hAlive⟩ := h.known name id hName
  obtain rfl : q = p := Option.some.inj (hq.symm.trans hId)
  exact hAlive

/-- Every operation is on a model that exists. -/
theorem Invariant.operating_alive (h : Invariant σ) {thread p : Nat}
    (hTask : σ.tasks.lookup thread = some (.operating p)) : p ∈ σ.pool.world.alive := by
  obtain ⟨name, hName⟩ := h.operating thread p hTask
  exact h.owns.alive name p hName

theorem invariant_init (draws : List UInt32) : Invariant (init draws : Models SI NI QI) := by
  refine ⟨⟨?_, ?_, ?_⟩, ServerCore.owns_init, ?_⟩
  · intro name id h
    cases h
  · intro id h
    cases h
  · intro name other id h
    cases h
  · intro thread p h
    cases h

/-- The tasks that are left or begun without a pointer play no part. -/
theorem Invariant.setTasks (h : Invariant σ) {tasks : QHash Nat Task}
    (hTasks : ∀ thread p, tasks.lookup thread = some (.operating p) →
      (∃ t, σ.tasks.lookup t = some (.operating p)) ∨
        ∃ name, σ.pool.world.models.lookup name = some (some p)) :
    Invariant { σ with tasks := tasks } := by
  refine ⟨⟨h.known, h.named, h.distinct⟩, h.owns, fun thread p hTask => ?_⟩
  rcases hTasks thread p hTask with ⟨t, ht⟩ | hName
  · exact h.operating t p ht
  · exact hName

/-- A core that holds what it held before, and owns it. -/
theorem Invariant.setCore (h : Invariant σ) {core : ServerCore} (hOwns : ServerCore.Owns core)
    (hKeeps : ∀ name p, σ.pool.world.models.lookup name = some (some p) →
      core.models.lookup name = some (some p)) :
    Invariant { σ with pool := { σ.pool with world := core } } := by
  refine ⟨⟨fun name id hName => ?_, h.named, h.distinct⟩, hOwns, fun thread p hTask => ?_⟩
  · obtain ⟨p, hId, hHeld, -⟩ := h.known name id hName
    exact ⟨p, hId, hKeeps name p hHeld, hOwns.alive name p (hKeeps name p hHeld)⟩
  · obtain ⟨name, hHeld⟩ := h.operating thread p hTask
    exact ⟨name, hKeeps name p hHeld⟩

theorem Invariant.model (h : Invariant σ) (backend : Nat → Option Error) (thread : Nat)
    (name : QString) :
    Invariant { σ with
      pool := { σ.pool with world := (σ.pool.world.model backend thread name).2 } } := by
  obtain ⟨-, hOther, -, hName⟩ :=
    ServerCore.model_spec backend thread name σ.pool.world
  refine h.setCore (h.owns.model name) fun other p hHeld => ?_
  by_cases hEq : other = name
  · subst hEq
    exact hName _ hHeld
  · rw [hOther other hEq]
    exact hHeld

/-- A model that the pool did not know is removed from the core. -/
theorem Invariant.removeFromCore (h : Invariant σ) {name : QString} (hDeletable : σ.Deletable name)
    (thread : Nat) :
    Invariant { σ with
      pool := { σ.pool with world := σ.pool.world.removeModel thread name } } := by
  obtain ⟨hUnknown, hIdle⟩ := hDeletable
  have hOwns := h.owns.removeModel thread name
  have hKeeps : ∀ other, other ≠ name → ∀ p,
      σ.pool.world.models.lookup other = some (some p) →
        (σ.pool.world.removeModel thread name).models.lookup other = some (some p) := by
    intro other hOther p hHeld
    rw [ServerCore.lookup_removeModel, if_neg hOther, hHeld]
  refine ⟨⟨fun other id hKnown => ?_, h.named, h.distinct⟩, hOwns, fun t p hTask => ?_⟩
  · obtain ⟨p, hId, hHeld, -⟩ := h.known other id hKnown
    have hOther : other ≠ name := by
      rintro rfl
      rw [hUnknown] at hKnown
      cases hKnown
    exact ⟨p, hId, hKeeps other hOther p hHeld, hOwns.alive other p (hKeeps other hOther p hHeld)⟩
  · obtain ⟨other, hHeld⟩ := h.operating t p hTask
    have hOther : other ≠ name := by
      rintro rfl
      exact hIdle p hHeld t hTask
    exact ⟨other, hKeeps other hOther p hHeld⟩

/-- The pool forgets a name; of a name that it does not know, it forgets the id 0, which it does not
have. -/
theorem Invariant.removeFromPool (h : Invariant σ) {name : QString}
    (hMeets : σ.pool.modelNameMap.lookup name ≠ none ∨ σ.pool.modelIdMap.lookup 0 = none) :
    Invariant { σ with pool := ModelPool.removeModel σ.pool name } ∧
      ∀ other, other ≠ name → ∀ id, σ.pool.modelNameMap.lookup other = some id →
        (ModelPool.removeModel σ.pool name).modelNameMap.lookup other = some id ∧
          ModelPool.modelById (ModelPool.removeModel σ.pool name) id =
            ModelPool.modelById σ.pool id := by
  have hNames : ∀ other, (ModelPool.removeModel σ.pool name).modelNameMap.lookup other =
      if other = name then none else σ.pool.modelNameMap.lookup other := fun other =>
    QHash.lookup_remove _ _ _
  have hIds : ∀ id, ModelPool.modelById (ModelPool.removeModel σ.pool name) id =
      if id = (σ.pool.modelNameMap.lookup name).getD 0 then none
      else ModelPool.modelById σ.pool id := fun id => QHash.lookup_remove _ _ _
  -- The id that goes is that of the name, or none at all.
  have hGone : ∀ other id, other ≠ name → σ.pool.modelNameMap.lookup other = some id →
      id ≠ (σ.pool.modelNameMap.lookup name).getD 0 := by
    rintro other id hOther hKnown rfl
    cases hName : σ.pool.modelNameMap.lookup name with
    | some id =>
      rw [hName] at hKnown
      exact hOther (h.distinct other name id hKnown hName)
    | none =>
      rw [hName] at hKnown
      obtain ⟨p, hId, -, -⟩ := h.known other _ hKnown
      rcases hMeets with hMeets | hZero
      · exact hMeets hName
      · rw [ModelPool.modelById, Option.getD_none, hZero] at hId
        cases hId
  have hOthers : ∀ other id, other ≠ name → σ.pool.modelNameMap.lookup other = some id →
      (ModelPool.removeModel σ.pool name).modelNameMap.lookup other = some id ∧
        ModelPool.modelById (ModelPool.removeModel σ.pool name) id =
          ModelPool.modelById σ.pool id := by
    intro other id hOther hKnown
    rw [hNames, if_neg hOther, hIds, if_neg (hGone other id hOther hKnown)]
    exact ⟨hKnown, rfl⟩
  have hBefore : ∀ other id,
      (ModelPool.removeModel σ.pool name).modelNameMap.lookup other = some id →
        other ≠ name ∧ σ.pool.modelNameMap.lookup other = some id := by
    intro other id hKnown
    rw [hNames] at hKnown
    split at hKnown
    · cases hKnown
    · exact ⟨‹_›, hKnown⟩
  refine ⟨⟨⟨fun other id hKnown => ?_, fun id hId => ?_, fun other third id hKnown hThird => ?_⟩,
    h.owns, h.operating⟩, fun other hOther id => hOthers other id hOther⟩
  · obtain ⟨hOther, hKnown⟩ := hBefore other id hKnown
    rw [(hOthers other id hOther hKnown).2]
    exact h.known other id hKnown
  · rw [hIds] at hId
    split at hId
    · cases hId
    · rename_i hKept
      obtain ⟨other, hKnown⟩ := h.named id hId
      have hOther : other ≠ name := by
        rintro rfl
        exact hKept (by rw [hKnown, Option.getD_some])
      exact ⟨other, (hOthers other id hOther hKnown).1⟩
  · exact h.distinct other third id (hBefore other id hKnown).2 (hBefore third id hThird).2

/-- The pool gives the model of a name that it does not know a free id. -/
theorem Invariant.addToPool (h : Invariant σ) {name : QString} {id : UInt32} {p : Nat}
    (hUnknown : σ.pool.modelNameMap.lookup name = none)
    (hFree : σ.pool.modelIdMap.contains id = false)
    (hHeld : σ.pool.world.models.lookup name = some (some p)) (draws : List UInt32) :
    Invariant { σ with
      pool := { σ.pool with
        draws := draws
        modelIdMap := σ.pool.modelIdMap.insert id p
        modelNameMap := σ.pool.modelNameMap.insert name id } } := by
  have hNew : ∀ other k, σ.pool.modelNameMap.lookup other = some k → k ≠ id := by
    rintro other k hKnown rfl
    obtain ⟨q, hId, -, -⟩ := h.known other k hKnown
    rw [ModelPool.modelById] at hId
    rw [QHash.contains, hId] at hFree
    cases hFree
  refine ⟨⟨fun other k hKnown => ?_, fun k hId => ?_, fun other third k hKnown hThird => ?_⟩,
    h.owns, h.operating⟩
  · simp only [QHash.lookup_insert] at hKnown
    simp only [ModelPool.modelById, QHash.lookup_insert]
    split at hKnown
    · rename_i hOther
      subst hOther
      cases hKnown
      exact ⟨p, if_pos rfl, hHeld, h.owns.alive other p hHeld⟩
    · rw [if_neg (hNew other k hKnown)]
      exact h.known other k hKnown
  · simp only [ModelPool.modelById, QHash.lookup_insert] at hId
    simp only [QHash.lookup_insert]
    split at hId
    · rename_i hk
      exact ⟨name, by rw [if_pos rfl, hk]⟩
    · obtain ⟨other, hKnown⟩ := h.named k hId
      refine ⟨other, ?_⟩
      rw [if_neg, hKnown]
      rintro rfl
      rw [hUnknown] at hKnown
      cases hKnown
  · simp only [QHash.lookup_insert] at hKnown hThird
    split at hKnown
    · rename_i hOther
      cases hKnown
      split at hThird
      · rename_i hEq
        rw [hOther, hEq]
      · exact absurd rfl (hNew third _ hThird)
    · split at hThird
      · cases hThird
        exact absurd rfl (hNew other _ hKnown)
      · exact h.distinct other third k hKnown hThird

section Qt

variable [Qt] {base : Host ServerCore Nat SI NI QI} {backend : Nat → Option Error}

theorem Invariant.idForModelName (h : Invariant σ) {thread : Nat} {name : QString} {id : UInt32}
    {pool : State ServerCore Nat SI NI QI}
    (hPool : ModelPool.idForModelName (ServerCore.host base backend thread) σ.pool name =
      some (id, pool)) : Invariant { σ with pool := pool } := by
  rw [ModelPool.idForModelName] at hPool
  cases hName : σ.pool.modelNameMap.lookup name with
  | some known =>
    rw [hName] at hPool
    cases hPool
    exact h
  | none =>
    simp only [hName] at hPool
    have hAfter := h.model backend thread name
    have hHeld := (ServerCore.model_spec backend thread name σ.pool.world).1
    have hCore : (ServerCore.host base backend thread).model name σ.pool.world =
        σ.pool.world.model backend thread name := rfl
    rw [hCore] at hPool
    generalize σ.pool.world.model backend thread name = created at hPool hAfter hHeld
    obtain ⟨m, core⟩ := created
    cases m with
    | none =>
      cases hPool
      exact hAfter
    | some p =>
      obtain ⟨⟨new, draws⟩, hId, hEq⟩ := Option.map_eq_some_iff.mp hPool
      cases hEq
      have hFree := generateUniqueId_free hId
      exact hAfter.addToPool hName hFree hHeld draws

/-- One step. -/
theorem Invariant.perform (h : Invariant σ) {s : Step} (hMeets : s.Meets σ)
    (hStep : σ.perform base backend s = some τ) : Invariant τ := by
  cases s with
  | createModel thread name =>
    rw [Models.perform] at hStep
    split at hStep
    · obtain ⟨⟨id, pool⟩, hPool, rfl⟩ := Option.map_eq_some_iff.mp hStep
      exact h.idForModelName hPool
    · cases hStep
  | removeModel thread name =>
    rw [Models.perform] at hStep
    split at hStep
    · cases hStep
      refine (h.removeFromPool hMeets).1.setTasks fun t p hTask => .inl ⟨t, ?_⟩
      rw [QHash.lookup_insert] at hTask
      split at hTask
      · cases hTask
      · exact hTask
    · cases hStep
  | finishRemoveModel thread =>
    rw [Models.perform] at hStep
    split at hStep
    · rename_i name hTask
      cases hStep
      refine (h.removeFromCore (hMeets name hTask) thread).setTasks fun t p hT => .inl ⟨t, ?_⟩
      rw [QHash.lookup_remove] at hT
      split at hT
      · cases hT
      · exact hT
    · cases hStep
  | dbusCreateModel thread name =>
    cases hStep
    exact h.model backend thread name
  | dbusRemoveModel thread name =>
    cases hStep
    exact h.removeFromCore hMeets thread
  | getModel thread id =>
    rw [Models.perform] at hStep
    split at hStep
    · split at hStep
      · rename_i p hId
        cases hStep
        refine h.setTasks fun t q hTask => ?_
        rw [QHash.lookup_insert] at hTask
        split at hTask
        · cases hTask
          obtain ⟨name, hName⟩ := h.named id (by rw [hId, Option.isSome_some])
          obtain ⟨q, hq, hHeld, -⟩ := h.known name id hName
          obtain rfl : q = p := Option.some.inj (hq.symm.trans hId)
          exact .inr ⟨name, hHeld⟩
        · exact .inl ⟨t, hTask⟩
      · cases hStep
        exact h
    · cases hStep
  | finishOperation thread =>
    rw [Models.perform] at hStep
    split at hStep
    · cases hStep
      refine h.setTasks fun t p hTask => .inl ⟨t, ?_⟩
      rw [QHash.lookup_remove] at hTask
      split at hTask
      · cases hTask
      · exact hTask
    · cases hStep

/-- A removal of one name leaves the ids of the others as they are. -/
theorem Invariant.removes_others (h : Invariant σ) {s : Step} (hMeets : s.Meets σ)
    (hStep : σ.perform base backend s = some τ) {name : QString} (hName : s.removes σ = some name)
    {other : QString} (hOther : other ≠ name) {id : UInt32}
    (hKnown : σ.pool.modelNameMap.lookup other = some id) :
    τ.pool.modelNameMap.lookup other = some id ∧
      ModelPool.modelById τ.pool id = ModelPool.modelById σ.pool id := by
  cases s with
  | removeModel thread removed =>
    cases hName
    rw [Models.perform] at hStep
    split at hStep
    · cases hStep
      exact (h.removeFromPool hMeets).2 other hOther id hKnown
    · cases hStep
  | finishRemoveModel thread =>
    rw [Models.perform] at hStep
    split at hStep <;> cases hStep
    exact ⟨hKnown, rfl⟩
  | dbusRemoveModel thread removed =>
    cases hStep
    exact ⟨hKnown, rfl⟩
  | _ => cases hName

/-- In each state of a run whose steps meet the condition the pool is consistent, no pointer that it
returns and no pointer that an operation is on is to a deleted model, and a further removal that
meets the condition leaves the other names their ids. -/
theorem modelPool_consistent {draws : List UInt32} {steps : List Step}
    (hMeets : Runs.AllMeet (perform base backend) (fun σ s => s.Meets σ) (init draws) steps)
    (hRun : Runs.run (perform base backend) (init draws) steps = some σ) :
    Consistent σ ∧
    (∀ id p, ModelPool.modelById σ.pool id = some p → p ∈ σ.pool.world.alive) ∧
    (∀ thread p, σ.tasks.lookup thread = some (.operating p) → p ∈ σ.pool.world.alive) ∧
    ∀ (s : Step) τ name, s.Meets σ → σ.perform base backend s = some τ →
      s.removes σ = some name → ∀ other, other ≠ name → ∀ id,
        σ.pool.modelNameMap.lookup other = some id →
          τ.pool.modelNameMap.lookup other = some id ∧
            ModelPool.modelById τ.pool id = ModelPool.modelById σ.pool id := by
  have h : Invariant σ := Runs.invariant
    (fun h hMeets hStep => Invariant.perform h hMeets hStep) (invariant_init draws) hMeets hRun
  refine ⟨h.toConsistent, fun id p => h.alive, fun thread p => h.operating_alive, ?_⟩
  intro s τ name hStepMeets hStep hName other hOther id hKnown
  exact h.removes_others hStepMeets hStep hName hOther hKnown

/-- A server whose models do nothing. -/
def idleHost : Host ServerCore Nat Unit Unit Unit where
  model _ core := (none, core)
  removeModel _ core := core
  supportedFeatures := none
  addStatement _ _ core := (.errorNotSupported, core)
  removeStatement _ _ core := (.errorNotSupported, core)
  removeAllStatements _ _ core := (.errorNotSupported, core)
  containsStatement _ _ core := (false, core)
  containsAnyStatement _ _ core := (false, core)
  listStatements _ _ core := (none, core)
  listContexts _ core := (none, core)
  executeQuery _ _ _ _ core := (none, core)
  statementCount _ core := (-1, core)
  isEmpty _ core := (true, core)
  createBlankNode _ core := (.empty, core)
  lastError _ _ := .ofMessage [] ErrorCode.errorNotSupported.code
  statements := ⟨fun _ core => (false, core), fun _ core => (.empty, core), fun _ core => core,
    fun _ _ => .none⟩
  nodes := ⟨fun _ core => (false, core), fun _ core => (.empty, core), fun _ core => core,
    fun _ _ => .none⟩
  results := ⟨fun _ core => (false, core), fun _ core => (.empty, core), fun _ core => core,
    fun _ _ => .none⟩
  currentStatement _ core := (.empty, core)
  isGraph _ core := (false, core)
  isBool _ core := (false, core)
  boolValue _ core := (false, core)

end Qt

end Models

end Server

section Example

local instance modelPoolQt : Qt := asciiQt

open Server Server.Models

/-- The creation of "a" fails and is removed while a thread works on "b". -/
theorem modelPool_consistent_failure :
    let backend : Nat → Option Error := fun n => if n = 0 then some .none else none
    let steps : List Models.Step := [.createModel 1 "a".toList, .createModel 1 "b".toList,
      .dbusCreateModel 0 "c".toList, .removeModel 1 "a".toList, .getModel 2 7,
      .finishRemoveModel 1]
    ∃ σ, Runs.run (Models.perform idleHost backend) (Models.init [7, 9]) steps = some σ ∧
      σ.Consistent ∧ σ.pool.modelNameMap.lookup "b".toList = some 7 ∧
      σ.tasks.lookup 2 = some (.operating 1) ∧ 1 ∈ σ.pool.world.alive := by
  intro backend steps
  obtain ⟨σ, hRun, hName, hTask⟩ : ∃ σ,
      Runs.run (Models.perform idleHost backend) (Models.init [7, 9]) steps = some σ ∧
        σ.pool.modelNameMap.lookup "b".toList = some 7 ∧
        σ.tasks.lookup 2 = some (.operating 1) := ⟨_, rfl, rfl, rfl⟩
  have hMeets : Runs.AllMeet (Models.perform idleHost backend) (fun σ s => s.Meets σ)
      (Models.init [7, 9]) steps := by
    refine .cons trivial rfl (.cons trivial rfl (.cons trivial rfl (.cons (.inr rfl) rfl
      (.cons trivial rfl (.cons ?_ rfl trivial)))))
    intro name hRemoving
    cases hRemoving
    refine ⟨rfl, fun p hHeld => ?_⟩
    cases hHeld
  obtain ⟨hConsistent, -, hOperating, -⟩ := modelPool_consistent hMeets hRun
  exact ⟨σ, hRun, hConsistent, hName, hTask, hOperating 2 1 hTask⟩

/-- The pool keeps a model that was removed over D-Bus; the removal of an unknown name takes the id 0
from another; a name that is created between the two calls of its removal keeps its id; and a model
is deleted under an operation. -/
theorem modelPool_deleted :
    let run := Runs.run (Models.perform idleHost fun _ => none)
    let a : QString := "a".toList
    (∃ σ, run (Models.init [7]) [.createModel 1 a, .dbusRemoveModel 0 a] = some σ ∧
      ¬ σ.Consistent ∧ ModelPool.modelById σ.pool 7 = some 0 ∧ 0 ∉ σ.pool.world.alive) ∧
    (∃ σ, run (Models.init [0]) [.createModel 1 a, .removeModel 2 "b".toList] = some σ ∧
      σ.pool.modelNameMap.lookup a = some 0 ∧ ModelPool.modelById σ.pool 0 = none) ∧
    (∃ σ, run (Models.init [7, 9])
        [.createModel 1 a, .removeModel 1 a, .createModel 2 a, .finishRemoveModel 1] = some σ ∧
      ModelPool.modelById σ.pool 9 = some 0 ∧ 0 ∉ σ.pool.world.alive) ∧
    (∃ σ, run (Models.init [7])
        [.createModel 1 a, .getModel 2 7, .removeModel 1 a, .finishRemoveModel 1] = some σ ∧
      σ.tasks.lookup 2 = some (.operating 0) ∧ 0 ∉ σ.pool.world.alive) := by
  intro run a
  refine ⟨⟨_, rfl, fun h => ?_, rfl, by decide⟩, ⟨_, rfl, rfl, rfl⟩, ⟨_, rfl, rfl, by decide⟩,
    ⟨_, rfl, rfl, by decide⟩⟩
  have hAlive := h.alive (show ModelPool.modelById _ 7 = some 0 from rfl)
  revert hAlive
  decide

end Example

end Soprano
