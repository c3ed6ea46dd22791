import Soprano.Qt.Arg
import Soprano.Server.ServerConnection

/-! `ServerCore`: the models that the server owns, by their names. -/

namespace Soprano

namespace Server

/-- `Error::ErrorCache`: the last error of each thread. -/
abbrev ErrorCache : Type := QHash Nat Error

namespace ErrorCache

def lastError (cache : ErrorCache) (thread : Nat) : Error := (cache.lookup thread).getD .none

def clearError (cache : ErrorCache) (thread : Nat) : ErrorCache := cache.remove thread

def setError (cache : ErrorCache) (thread : Nat) (error : Error) : ErrorCache :=
  if error.code ≠ 0 then cache.insert thread error else cache.clearError thread

end ErrorCache

/-- `ServerCore`.  A model is known by the number of the call of `Backend::createModel` that made it;
`none` is the null pointer. -/
structure ServerCore where
  models : QHash QString (Option Nat)
  errors : ErrorCache
  calls : Nat
  alive : List Nat

namespace ServerCore

/-- The server without a model. -/
def init : ServerCore := ⟨[], [], 0, []⟩

section Methods

-- The error of each call of `Backend::createModel`, or `none` where it returns a model.
variable (backend : Nat → Option Error) (thread : Nat)

def createModel (core : ServerCore) : Option Nat × ServerCore :=
  match backend core.calls with
  | none =>
    (some core.calls, { core with
      errors := core.errors.clearError thread
      calls := core.calls + 1
      alive := core.calls :: core.alive })
  | some e =>
    (none, { core with
      errors := core.errors.setError thread (if e.code ≠ 0 then e else
        .ofMessage "Could not create new Model for unknown reason".toList
          ErrorCode.errorUnknown.code)
      calls := core.calls + 1 })

/-- `ServerCore::model`, which keeps what `createModel` returned, null too. -/
def model (name : QString) (core : ServerCore) : Option Nat × ServerCore :=
  match core.models.lookup name with
  | some m => (m, core)
  | none =>
    let (m, core) := core.createModel backend thread
    (m, { core with models := core.models.insert name m })

def removeModel (name : QString) (core : ServerCore) : ServerCore :=
  match core.models.lookup name with
  | none =>
    { core with
      errors := (core.errors.clearError thread).setError thread
        (.ofMessage (QString.arg "Could not find model with name %1".toList name)
          ErrorCode.errorUnknown.code) }
  | some m =>
    { core with
      models := core.models.remove name
      errors := core.errors.clearError thread
      alive := core.alive.filter fun p => m ≠ some p }

end Methods

/-- The core owns each model that it holds, under one name. -/
structure Owns (core : ServerCore) : Prop where
  alive : ∀ name p, core.models.lookup name = some (some p) → p ∈ core.alive
  old : ∀ name p, core.models.lookup name = some (some p) → p < core.calls
  distinct : ∀ name other p, core.models.lookup name = some (some p) →
    core.models.lookup other = some (some p) → name = other

theorem owns_init : Owns init := by
  constructor
  · intro name p h
    cases h
  · intro name p h
    cases h
  · intro name other p h
    cases h

variable {backend : Nat → Option Error} {thread : Nat} {core : ServerCore}

variable (backend thread) in
/-- What `model` does: it returns what it holds under the name afterwards; the other names keep their
models, and no model is deleted. -/
theorem model_spec (name : QString) (core : ServerCore) :
    (core.model backend thread name).2.models.lookup name =
      some (core.model backend thread name).1 ∧
    (∀ other, other ≠ name → (core.model backend thread name).2.models.lookup other =
      core.models.lookup other) ∧
    (∀ p ∈ core.alive, p ∈ (core.model backend thread name).2.alive) ∧
    ∀ m, core.models.lookup name = some m →
      (core.model backend thread name).2.models.lookup name = some m := by
  rw [model]
  cases hName : core.models.lookup name with
  | some m => exact ⟨hName, fun _ _ => rfl, fun _ h => h, fun n hn => hName.trans hn⟩
  | none =>
    simp only
    rw [createModel]
    refine ⟨?_, fun other hOther => ?_, fun p hp => ?_, fun n hn => by cases hn⟩
    · cases backend core.calls <;> simp [QHash.lookup_insert]
    · cases backend core.calls <;> simp [QHash.lookup_insert, hOther]
    · cases backend core.calls with
      | none => exact List.mem_cons_of_mem _ hp
      | some e => exact hp

theorem Owns.model (h : Owns core) (name : QString) :
    Owns (core.model backend thread name).2 := by
  rw [ServerCore.model]
  cases hName : core.models.lookup name with
  | some m => exact h
  | none =>
    simp only
    rw [createModel]
    cases backend core.calls with
    | none =>
      refine ⟨fun other p hp => ?_, fun other p hp => ?_, fun other third p hp hq => ?_⟩
      · simp only [QHash.lookup_insert] at hp
        split at hp
        · cases hp
          exact List.mem_cons_self
        · exact List.mem_cons_of_mem _ (h.alive other p hp)
      · simp only [QHash.lookup_insert] at hp
        split at hp
        · cases hp
          exact Nat.lt_succ_self _
        · exact Nat.lt_succ_of_lt (h.old other p hp)
      · simp only [QHash.lookup_insert] at hp hq
        split at hp
        · rename_i hOther
          cases hp
          split at hq
          · rename_i hThird
            rw [hOther, hThird]
          · exact absurd (h.old third _ hq) (Nat.lt_irrefl _)
        · split at hq
          · cases hq
            exact absurd (h.old other _ hp) (Nat.lt_irrefl _)
          · exact h.distinct other third p hp hq
    | some e =>
      have hBefore : ∀ {other : QString} {p : Nat},
          (core.models.insert name none).lookup other = some (some p) →
            core.models.lookup other = some (some p) := by
        intro other p hp
        rw [QHash.lookup_insert] at hp
        split at hp
        · cases hp
        · exact hp
      exact ⟨fun other p hp => h.alive other p (hBefore hp),
        fun other p hp => Nat.lt_succ_of_lt (h.old other p (hBefore hp)),
        fun other third p hp hq => h.distinct other third p (hBefore hp) (hBefore hq)⟩

theorem lookup_removeModel (name other : QString) :
    (core.removeModel thread name).models.lookup other =
      if other = name then none else core.models.lookup other := by
  rw [removeModel]
  cases hName : core.models.lookup name with
  | some m => simp only [QHash.lookup_remove]
  | none =>
    simp only
    split
    · rename_i hOther
      rw [hOther, hName]
    · rfl

theorem mem_alive_removeModel {name : QString} {p : Nat} :
    p ∈ (core.removeModel thread name).alive ↔
      p ∈ core.alive ∧ core.models.lookup name ≠ some (some p) := by
  rw [removeModel]
  cases hName : core.models.lookup name with
  | some m => simp
  | none => simp

variable (thread) in
theorem Owns.removeModel (h : Owns core) (name : QString) :
    Owns (core.removeModel thread name) := by
  have hBefore : ∀ {other : QString} {p : Nat},
      (core.removeModel thread name).models.lookup other = some (some p) →
        other ≠ name ∧ core.models.lookup other = some (some p) := by
    intro other p hp
    rw [lookup_removeModel] at hp
    split at hp
    · cases hp
    · exact ⟨‹_›, hp⟩
  have hCalls : (core.removeModel thread name).calls = core.calls := by
    rw [ServerCore.removeModel]
    split <;> rfl
  refine ⟨fun other p hp => ?_, fun other p hp => ?_, fun other third p hp hq => ?_⟩
  · obtain ⟨hne, hp⟩ := hBefore hp
    rw [mem_alive_removeModel]
    exact ⟨h.alive other p hp, fun hName => hne (h.distinct other name p hp hName)⟩
  · rw [hCalls]
    exact h.old other p (hBefore hp).2
  · exact h.distinct other third p (hBefore hp).2 (hBefore hq).2

end ServerCore

end Server

end Soprano
