import Soprano.Virtuoso.ConnectionThreads

/-! The lives of the connections of a pool: how the map, the threads and the deletions follow them. -/

namespace Soprano

namespace ODBC

open Server (QHash)

/-- What has become of a connection, and the thread that it belongs to. -/
inductive Life (τ : Type) where
  | unborn
  | settingUp (t : τ)
  | mapped (t : τ)
  | unmapped (t : τ)
  | deleted (t : τ)
deriving DecidableEq

namespace Life

variable {τ : Type}

/-- The thread that the connection was returned to. -/
def owner : Life τ → Option τ
  | mapped t | unmapped t | deleted t => some t
  | _ => none

/-- The thread whose end the connection waits for. -/
def listens : Life τ → Option τ
  | mapped t | unmapped t => some t
  | _ => none

end Life

namespace Threads

variable {τ : Type} [DecidableEq τ] {s s' : Threads τ} {t u : τ} {life life' : Nat → Life τ} {p : Place}
  {q : Place}

/-- The lists of the pool follow the lives of the connections. -/
structure Linked (s : Threads τ) (life : Nat → Life τ) : Prop where
  created : ∀ c, s.created ≤ c ↔ life c = .unborn
  handed : ∀ t c, (t, c) ∈ s.handed ↔ (life c).owner = some t
  listeners : ∀ t c, (t, c) ∈ s.listeners ↔ (life c).listens = some t
  map : ∀ t c, (t, c) ∈ s.m_openConnections ↔ life c = .mapped t
  deleted : ∀ c, c ∈ s.deleted ↔ ∃ t, life c = .deleted t
  nodup : s.deleted.Nodup
  single : ∀ t c d, (t, c) ∈ s.listeners → (t, d) ∈ s.listeners → c = d
  failed : ∀ maps ∈ s.failed, maps.1 = maps.2

/-- Who may delete the connection of a thread. -/
def MayDelete (s : Threads τ) (t owner : τ) : Caller → Prop
  | .createConnection => False
  | .cleanup => owner = t
  | .pool => s.phase = .destroying t

/-- What holds where a thread is. -/
def Fits (s : Threads τ) (life : Nat → Life τ) (t : τ) : Place → Prop
  | .gone => ∀ c, (t, c) ∉ s.listeners
  | .inside => s.m_openConnections = s.entered
  | .creating => s.m_openConnections = s.entered ∧ ∀ c, (t, c) ∉ s.handed
  | .setup c _ => s.m_openConnections = s.entered ∧ (∀ c, (t, c) ∉ s.handed) ∧ life c = .settingUp t
  | .deleting c caller | .removing c caller => ∃ owner, life c = .mapped owner ∧ s.MayDelete t owner caller
  | .freeing c caller => ∃ owner, life c = .unmapped owner ∧ s.MayDelete t owner caller
  | .out | .entering | .ending | .destroying => True

/-- The threads are where the mutex, the phase and the lives have them. -/
structure Seated (s : Threads τ) (life : Nat → Life τ) : Prop where
  mutex : ∀ t, s.m_connectionMutex = some t ↔ (s.place t).holds = true
  fits : ∀ t, s.Fits life t (s.place t)
  setsUp : ∀ t c, life c = .settingUp t → (s.place t).setsUp = some c
  frees : ∀ t c, life c = .unmapped t → ∃ u, (s.place u).frees = some c
  kept : ∀ t c, s.phase = .there → (s.place t).running = true → (t, c) ∈ s.handed →
    (t, c) ∈ s.m_openConnections
  destroying : ∀ t, s.phase = .destroying t ↔ (s.place t).destroys = true
  others : ∀ t u, s.phase = .destroying t → u ≠ t → s.place u = .out ∨ s.place u = .gone
  destroyed : s.phase = .destroyed → s.m_openConnections = [] ∧
    ∀ t, s.place t = .gone ∨ s.place t = .out ∨ s.place t = .ending

omit [DecidableEq τ] in
/-- What other threads have to leave alone where a thread is. -/
theorem Fits.frame (h : s.Fits life u p)
    (hMap : p.holds = true → s'.m_openConnections = s.m_openConnections ∧ s'.entered = s.entered)
    (hHanded : ∀ c, (u, c) ∈ s'.handed → (u, c) ∈ s.handed)
    (hListeners : ∀ c, (u, c) ∈ s'.listeners → (u, c) ∈ s.listeners)
    (hLife : ∀ c, p.conn = some c → life' c = life c) (hPhase : p.destroys = true → s'.phase = s.phase) :
    s'.Fits life' u p := by
  have hMayDelete : ∀ {owner} {caller : Caller}, (caller = .pool → s'.phase = s.phase) → s.MayDelete u owner caller →
      s'.MayDelete u owner caller := by
    intro owner caller hSame hMay
    cases caller with
    | pool => exact (hSame rfl).trans hMay
    | _ => exact hMay
  have hPool : ∀ {caller : Caller}, (caller = .pool → p.destroys = true) → caller = .pool → s'.phase = s.phase :=
    fun hDestroys hCaller => hPhase (hDestroys hCaller)
  cases p with
  | gone => exact fun c hc => h c (hListeners c hc)
  | inside => exact (hMap rfl).1.trans (Eq.trans h (hMap rfl).2.symm)
  | creating =>
    obtain ⟨hEntered, hNone⟩ := h
    exact ⟨(hMap rfl).1.trans (hEntered.trans (hMap rfl).2.symm), fun c hc => hNone c (hHanded c hc)⟩
  | setup conn commands =>
    obtain ⟨hEntered, hNone, hConn⟩ := h
    exact ⟨(hMap rfl).1.trans (hEntered.trans (hMap rfl).2.symm), fun c hc => hNone c (hHanded c hc),
      (hLife conn rfl).trans hConn⟩
  | deleting conn caller =>
    obtain ⟨owner, hConn, hMay⟩ := h
    exact ⟨owner, (hLife conn rfl).trans hConn, hMayDelete (hPool (by rintro rfl; rfl)) hMay⟩
  | removing conn caller =>
    obtain ⟨owner, hConn, hMay⟩ := h
    exact ⟨owner, (hLife conn rfl).trans hConn, hMayDelete (hPool (by rintro rfl; rfl)) hMay⟩
  | freeing conn caller =>
    obtain ⟨owner, hConn, hMay⟩ := h
    exact ⟨owner, (hLife conn rfl).trans hConn, hMayDelete (hPool (by rintro rfl; rfl)) hMay⟩
  | out | entering | ending | destroying => trivial

/-! ### The mutex -/

/-- A thread that goes on without the mutex, or with it. -/
theorem mutex_keep (h : ∀ u, s.m_connectionMutex = some u ↔ (s.place u).holds = true)
    (hOld : s.place t = q) (hp : p.holds = q.holds) (u : τ) :
    s.m_connectionMutex = some u ↔ (Function.update s.place t p u).holds = true := by
  rw [h u]
  by_cases hu : u = t
  · subst hu
    rw [Function.update_self, hp, hOld]
  · rw [Function.update_of_ne hu]

theorem mutex_take (h : ∀ u, s.m_connectionMutex = some u ↔ (s.place u).holds = true)
    (hNone : s.m_connectionMutex = none) (hp : p.holds = true) (u : τ) :
    some t = some u ↔ (Function.update s.place t p u).holds = true := by
  by_cases hu : u = t
  · subst hu
    rw [Function.update_self]
    exact iff_of_true rfl hp
  · rw [Function.update_of_ne hu, ← h u, hNone]
    exact iff_of_false (fun hEq => hu (Option.some.inj hEq).symm) (by rintro ⟨⟩)

theorem mutex_give (h : ∀ u, s.m_connectionMutex = some u ↔ (s.place u).holds = true)
    (hOld : s.place t = q) (hHeld : q.holds = true) (hp : p.holds = false) (u : τ) :
    none = some u ↔ (Function.update s.place t p u).holds = true := by
  refine iff_of_false (by rintro ⟨⟩) ?_
  by_cases hu : u = t
  · subst hu
    rw [Function.update_self, hp]
    exact Bool.false_ne_true
  · rw [Function.update_of_ne hu, ← h u, (h t).mpr (hOld ▸ hHeld)]
    exact fun hEq => hu (Option.some.inj hEq).symm

/-! ### Steps -/

omit [DecidableEq τ] in
/-- A thread that has the mutex, or is in the destructor of a connection, is alone in the pool. -/
theorem Seated.eq_of_holds (h : s.Seated life) (ht : (s.place t).holds = true)
    (hu : (s.place u).holds = true) : u = t :=
  Option.some.inj (((h.mutex u).mpr hu).symm.trans ((h.mutex t).mpr ht))

/-- What a step of one thread keeps of the others. -/
theorem Seated.step (h : s.Seated life) (hOld : s.place t = q) (hPlace : s'.place = Function.update s.place t p)
    (hPhase : s'.phase = s.phase)
    (hMutex : ∀ u, s'.m_connectionMutex = some u ↔ (Function.update s.place t p u).holds = true)
    (hFits : s'.Fits life' t p)
    (hFrame : ∀ u, u ≠ t → s.Fits life u (s.place u) → s'.Fits life' u (s.place u))
    (hSetsUp : ∀ u c, life' c = .settingUp u →
      u = t ∧ p.setsUp = some c ∨ u ≠ t ∧ life c = .settingUp u)
    (hFrees : ∀ u c, life' c = .unmapped u →
      p.frees = some c ∨ q.frees ≠ some c ∧ life c = .unmapped u)
    (hKept : ∀ u c, s.phase = .there → (Function.update s.place t p u).running = true →
      (u, c) ∈ s'.handed → (u, c) ∈ s'.m_openConnections)
    (hDestroys : p.destroys = q.destroys)
    (hOthers : ∀ u, s.phase = .destroying u → t ≠ u → p = .out ∨ p = .gone)
    (hDestroyed : s.phase = .destroyed → s'.m_openConnections = [] ∧ (p = .gone ∨ p = .out ∨ p = .ending)) :
    s'.Seated life' := by
  refine ⟨fun u => ?_, fun u => ?_, fun u c hc => ?_, fun u c hc => ?_, fun u c hThere => ?_, fun u => ?_,
    fun u v hu hv => ?_, fun hGone => ⟨(hDestroyed (hPhase ▸ hGone)).1, fun u => ?_⟩⟩
  · rw [hPlace]
    exact hMutex u
  · rw [hPlace]
    by_cases hu : u = t
    · subst hu
      rw [Function.update_self]
      exact hFits
    · rw [Function.update_of_ne hu]
      exact hFrame u hu (h.fits u)
  · rw [hPlace]
    rcases hSetsUp u c hc with ⟨rfl, hp⟩ | ⟨hu, hc⟩
    · rwa [Function.update_self]
    · rw [Function.update_of_ne hu]
      exact h.setsUp u c hc
  · rw [hPlace]
    rcases hFrees u c hc with hp | ⟨hNot, hc⟩
    · exact ⟨t, by rwa [Function.update_self]⟩
    · obtain ⟨v, hv⟩ := h.frees u c hc
      have hNe : v ≠ t := by
        rintro rfl
        exact hNot (hOld ▸ hv)
      exact ⟨v, by rwa [Function.update_of_ne hNe]⟩
  · rw [hPlace]
    exact hKept u c (hPhase ▸ hThere)
  · rw [hPlace, hPhase, h.destroying u]
    by_cases hu : u = t
    · subst hu
      rw [Function.update_self, hDestroys, hOld]
    · rw [Function.update_of_ne hu]
  · rw [hPlace]
    by_cases hv' : v = t
    · subst hv'
      rw [Function.update_self]
      exact hOthers u (hPhase ▸ hu) hv
    · rw [Function.update_of_ne hv']
      exact h.others u v (hPhase ▸ hu) hv
  · rw [hPlace]
    by_cases hu : u = t
    · subst hu
      rw [Function.update_self]
      exact (hDestroyed (hPhase ▸ hGone)).2
    · rw [Function.update_of_ne hu]
      exact (h.destroyed (hPhase ▸ hGone)).2 u

theorem running_of_update (hOld : s.place t = q) (hRunning : p.running = true → q.running = true)
    (h : (Function.update s.place t p u).running = true) : (s.place u).running = true := by
  by_cases hu : u = t
  · subst hu
    rw [Function.update_self] at h
    exact hOld ▸ hRunning h
  · rwa [Function.update_of_ne hu] at h

/-- A step that leaves the connections alone. -/
theorem Seated.go (h : s.Seated life) (hOld : s.place t = q) (hPlace : s'.place = Function.update s.place t p)
    (hPhase : s'.phase = s.phase) (hMap : s'.m_openConnections = s.m_openConnections)
    (hHanded : s'.handed = s.handed) (hListeners : s'.listeners = s.listeners)
    (hMutex : ∀ u, s'.m_connectionMutex = some u ↔ (Function.update s.place t p u).holds = true)
    (hEntered : ∀ u, u ≠ t → (s.place u).holds = true → s'.entered = s.entered)
    (hFits : s'.Fits life t p) (hSetsUp : p.setsUp = q.setsUp) (hFrees : q.frees = none)
    (hRunning : p.running = true → q.running = true) (hDestroys : p.destroys = q.destroys)
    (hOthers : ∀ u, s.phase = .destroying u → t ≠ u → p = .out ∨ p = .gone)
    (hDestroyed : s.phase = .destroyed → p = .gone ∨ p = .out ∨ p = .ending) : s'.Seated life := by
  refine h.step hOld hPlace hPhase hMutex hFits (fun u hu hFits => ?_) (fun u c hc => ?_) (fun u c hc => ?_)
    (fun u c hThere hRun hc => ?_) hDestroys hOthers fun hGone => ⟨?_, hDestroyed hGone⟩
  · exact hFits.frame (fun hHolds => ⟨hMap, hEntered u hu hHolds⟩) (fun c hc => hHanded ▸ hc)
      (fun c hc => hListeners ▸ hc) (fun _ _ => rfl) fun _ => hPhase
  · by_cases hu : u = t
    · subst hu
      exact .inl ⟨rfl, hSetsUp.trans (hOld ▸ h.setsUp u c hc)⟩
    · exact .inr ⟨hu, hc⟩
  · exact .inr ⟨by rw [hFrees]; nofun, hc⟩
  · rw [hHanded] at hc
    rw [hMap]
    exact h.kept u c hThere (running_of_update hOld hRunning hRun) hc
  · rw [hMap]
    exact (h.destroyed hGone).1

omit [DecidableEq τ] in
/-- A thread in the code of the pool is the only one, if the pool is destroyed. -/
theorem Seated.alone {P : Prop} (h : s.Seated life) (hOld : s.place t = q) (hOut : q ≠ .out)
    (hGone : q ≠ .gone) (u : τ) (hPhase : s.phase = .destroying u) (hu : t ≠ u) : P := by
  rcases h.others u t hPhase hu with hEq | hEq
  · exact absurd (hOld.symm.trans hEq) hOut
  · exact absurd (hOld.symm.trans hEq) hGone

omit [DecidableEq τ] in
/-- The pool is not destroyed while a thread is in its code. -/
theorem Seated.of_destroyed {P : Prop} (h : s.Seated life) (hOld : s.place t = q)
    (hNot : ¬ (q = .gone ∨ q = .out ∨ q = .ending)) (hPhase : s.phase = .destroyed) : P :=
  absurd (hOld ▸ (h.destroyed hPhase).2 t) hNot

omit [DecidableEq τ] in
/-- The connection that a thread has in hand is not returned yet, or the thread may delete it. -/
theorem Fits.life_conn {c : Nat} (h : s.Fits life u p) (hConn : p.conn = some c) :
    life c = .settingUp u ∨ ∃ owner caller, (life c).listens = some owner ∧ s.MayDelete u owner caller := by
  cases p with
  | setup conn commands =>
    cases hConn
    exact .inl h.2.2
  | deleting conn caller | removing conn caller | freeing conn caller =>
    cases hConn
    obtain ⟨owner, hLife, hMay⟩ := h
    exact .inr ⟨owner, caller, by rw [hLife]; rfl, hMay⟩
  | _ => cases hConn

omit [DecidableEq τ] in
/-- No two threads have one connection in hand. -/
theorem Seated.conn_injective {c : Nat} (h : s.Seated life) (ht : (s.place t).conn = some c)
    (hu : (s.place u).conn = some c) : u = t := by
  by_contra hNe
  have hOut : ∀ {v}, (s.place v).conn = some c → s.place v ≠ .out ∧ s.place v ≠ .gone := by
    intro v hv
    constructor <;> intro hEq <;> rw [hEq] at hv <;> cases hv
  rcases (h.fits t).life_conn ht with hLife | ⟨owner, caller, hLife, hMay⟩
  · rcases (h.fits u).life_conn hu with hLife' | ⟨owner', caller', hLife', -⟩
    · rw [hLife] at hLife'
      cases hLife'
      exact hNe rfl
    · rw [hLife] at hLife'
      cases hLife'
  · rcases (h.fits u).life_conn hu with hLife' | ⟨owner', caller', hLife', hMay'⟩
    · rw [hLife'] at hLife
      cases hLife
    · obtain rfl : owner = owner' := Option.some.inj (hLife.symm.trans hLife')
      cases caller with
      | createConnection => cases hMay
      | pool => exact h.alone rfl (hOut hu).1 (hOut hu).2 t hMay hNe
      | cleanup =>
        cases caller' with
        | createConnection => cases hMay'
        | pool => exact h.alone rfl (hOut ht).1 (hOut ht).2 u hMay' (Ne.symm hNe)
        | cleanup => exact hNe (Eq.symm hMay' |>.trans hMay)

/-- The map of a thread has no other connection than the thread's own. -/
theorem mem_of_lookup {h : QHash τ Nat} {c : Nat} (hLookup : h.lookup t = some c) : (t, c) ∈ h := by
  obtain ⟨before, behind, rfl, -⟩ := List.lookup_eq_some_iff.mp hLookup
  simp

theorem notMem_of_lookup {h : QHash τ Nat} (hLookup : h.lookup t = none) (c : Nat) : (t, c) ∉ h := by
  intro hMem
  simpa using List.lookup_eq_none_iff.mp hLookup _ hMem

variable {connectionSetupCommands : List QString} {a : Action τ}

/-- The invariant: the connections have lives that the lists and the threads follow. -/
def Invariant (s : Threads τ) : Prop := ∃ life, s.Linked life ∧ s.Seated life

omit [DecidableEq τ] in
theorem Linked.of_eq (h : s.Linked life) (hCreated : s'.created = s.created) (hHanded : s'.handed = s.handed)
    (hListeners : s'.listeners = s.listeners) (hMap : s'.m_openConnections = s.m_openConnections)
    (hDeleted : s'.deleted = s.deleted) (hFailed : s'.failed = s.failed) : s'.Linked life := by
  refine ⟨?_, ?_, ?_, ?_, ?_, ?_, ?_, ?_⟩
  · exact hCreated ▸ h.created
  · exact hHanded ▸ h.handed
  · exact hListeners ▸ h.listeners
  · exact hMap ▸ h.map
  · exact hDeleted ▸ h.deleted
  · exact hDeleted ▸ h.nodup
  · exact hListeners ▸ h.single
  · exact hFailed ▸ h.failed

omit [DecidableEq τ] in
/-- The life of one connection goes on. -/
theorem Linked.update (h : s.Linked life) (conn : Nat) (new : Life τ) (hNew : new ≠ .unborn)
    (hCreated : ∀ c, s'.created ≤ c ↔ c ≠ conn ∧ s.created ≤ c)
    (hHanded : ∀ u c, (u, c) ∈ s'.handed ↔ if c = conn then new.owner = some u else (u, c) ∈ s.handed)
    (hListeners : ∀ u c, (u, c) ∈ s'.listeners ↔
      if c = conn then new.listens = some u else (u, c) ∈ s.listeners)
    (hMap : ∀ u c, (u, c) ∈ s'.m_openConnections ↔
      if c = conn then new = .mapped u else (u, c) ∈ s.m_openConnections)
    (hDeleted : ∀ c, c ∈ s'.deleted ↔ if c = conn then ∃ u, new = .deleted u else c ∈ s.deleted)
    (hNodup : s'.deleted.Nodup)
    (hSingle : ∀ u c d, (u, c) ∈ s'.listeners → (u, d) ∈ s'.listeners → c = d)
    (hFailed : s'.failed = s.failed) : s'.Linked (Function.update life conn new) := by
  refine ⟨fun c => ?_, fun u c => ?_, fun u c => ?_, fun u c => ?_, fun c => ?_, hNodup, hSingle,
    hFailed ▸ h.failed⟩
  all_goals
    by_cases hc : c = conn
  · rw [hCreated c, hc, Function.update_self]
    exact iff_of_false (fun hNot => hNot.1 rfl) hNew
  · rw [hCreated c, Function.update_of_ne hc, ← h.created c]
    exact and_iff_right hc
  · rw [hHanded u c, if_pos hc, hc, Function.update_self]
  · rw [hHanded u c, if_neg hc, Function.update_of_ne hc, h.handed u c]
  · rw [hListeners u c, if_pos hc, hc, Function.update_self]
  · rw [hListeners u c, if_neg hc, Function.update_of_ne hc, h.listeners u c]
  · rw [hMap u c, if_pos hc, hc, Function.update_self]
  · rw [hMap u c, if_neg hc, Function.update_of_ne hc, h.map u c]
  · rw [hDeleted c, if_pos hc, hc, Function.update_self]
  · rw [hDeleted c, if_neg hc, Function.update_of_ne hc, h.deleted c]

omit [DecidableEq τ] in
theorem Linked.created_update {conn : Nat} (h : s.Linked life) (hConn : life conn ≠ .unborn) (c : Nat) :
    s.created ≤ c ↔ c ≠ conn ∧ s.created ≤ c := by
  refine (and_iff_right_of_imp fun hCreated => ?_).symm
  rintro rfl
  exact hConn ((h.created c).mp hCreated)

omit [DecidableEq τ] in
theorem Linked.handed_update {conn : Nat} {new : Life τ} (h : s.Linked life)
    (hConn : (life conn).owner = new.owner) (u : τ) (c : Nat) :
    (u, c) ∈ s.handed ↔ if c = conn then new.owner = some u else (u, c) ∈ s.handed := by
  split
  · rename_i hc
    rw [hc, h.handed, hConn]
  · exact Iff.rfl

omit [DecidableEq τ] in
theorem Linked.listeners_update {conn : Nat} {new : Life τ} (h : s.Linked life)
    (hConn : (life conn).listens = new.listens) (u : τ) (c : Nat) :
    (u, c) ∈ s.listeners ↔ if c = conn then new.listens = some u else (u, c) ∈ s.listeners := by
  split
  · rename_i hc
    rw [hc, h.listeners, hConn]
  · exact Iff.rfl

omit [DecidableEq τ] in
theorem Linked.map_update {conn : Nat} {new : Life τ} (h : s.Linked life)
    (hConn : ∀ u, life conn ≠ .mapped u) (hNew : ∀ u, new ≠ .mapped u) (u : τ) (c : Nat) :
    (u, c) ∈ s.m_openConnections ↔ if c = conn then new = .mapped u else (u, c) ∈ s.m_openConnections := by
  split
  · rename_i hc
    rw [hc, h.map]
    exact iff_of_false (hConn u) (hNew u)
  · exact Iff.rfl

omit [DecidableEq τ] in
theorem Linked.deleted_update {conn : Nat} {new : Life τ} (h : s.Linked life)
    (hConn : ∀ u, life conn ≠ .deleted u) (hNew : ∀ u, new ≠ .deleted u) (c : Nat) :
    c ∈ s.deleted ↔ if c = conn then ∃ u, new = .deleted u else c ∈ s.deleted := by
  split
  · rename_i hc
    rw [hc, h.deleted]
    exact iff_of_false (fun ⟨u, hu⟩ => hConn u hu) fun ⟨u, hu⟩ => hNew u hu
  · exact Iff.rfl

theorem Invariant.call (h : s.Invariant) (hMeets : s.Meets (.call t))
    (hStep : s.perform connectionSetupCommands (.call t) = some s') : s'.Invariant := by
  obtain ⟨life, hLinked, hSeated⟩ := h
  simp only [perform, Option.ite_none_right_eq_some, Option.some.injEq] at hStep
  obtain ⟨⟨hOld, hThere⟩, rfl⟩ := hStep
  exact ⟨life, hLinked.of_eq rfl rfl rfl rfl rfl rfl, hSeated.go hOld rfl rfl rfl rfl rfl
    (mutex_keep hSeated.mutex hOld rfl) (fun _ _ _ => rfl) trivial rfl rfl (fun _ => rfl) rfl
    (fun u hPhase => absurd hPhase (hMeets u)) fun hGone => absurd hGone hThere⟩

theorem Invariant.lock (h : s.Invariant)
    (hStep : s.perform connectionSetupCommands (.lock t) = some s') : s'.Invariant := by
  obtain ⟨life, hLinked, hSeated⟩ := h
  simp only [perform] at hStep
  split at hStep
  · rename_i hOld hNone
    cases hStep
    have hAlone : ∀ u, u ≠ t → (s.place u).holds = true → s.m_openConnections = s.entered := by
      intro u _ hHolds
      rw [← hSeated.mutex u, hNone] at hHolds
      cases hHolds
    exact ⟨life, hLinked.of_eq rfl rfl rfl rfl rfl rfl, hSeated.go hOld rfl rfl rfl rfl rfl
      (mutex_take hSeated.mutex hNone rfl) hAlone rfl rfl rfl (fun _ => rfl) rfl
      (hSeated.alone hOld nofun nofun) (hSeated.of_destroyed hOld nofun)⟩
  · rename_i conn caller hOld hNone
    cases hStep
    have hFits := hSeated.fits t
    rw [hOld] at hFits
    obtain ⟨owner, hConn, hMay⟩ := hFits
    refine ⟨life, hLinked.of_eq rfl rfl rfl rfl rfl rfl, hSeated.go hOld rfl rfl rfl rfl rfl
      (mutex_take hSeated.mutex hNone rfl) (fun _ _ _ => rfl) ⟨owner, hConn, ?_⟩ rfl rfl ?_ ?_
      (hSeated.alone hOld nofun nofun) (hSeated.of_destroyed hOld nofun)⟩
    · cases caller <;> exact hMay
    · cases caller <;> exact id
    · cases caller <;> rfl
  · cases hStep

theorem Invariant.execute {code : ErrorCode} (h : s.Invariant) (hMeets : s.Meets (.execute t code))
    (hStep : s.perform connectionSetupCommands (.execute t code) = some s') : s'.Invariant := by
  obtain ⟨life, hLinked, hSeated⟩ := h
  simp only [perform] at hStep
  split at hStep
  · rename_i conn command commands hOld
    rw [if_pos (show code = .errorNone from hMeets)] at hStep
    cases hStep
    have hFits := hSeated.fits t
    rw [hOld] at hFits
    exact ⟨life, hLinked.of_eq rfl rfl rfl rfl rfl rfl, hSeated.go hOld rfl rfl rfl rfl rfl
      (mutex_keep hSeated.mutex hOld rfl) (fun _ _ _ => rfl) hFits rfl rfl (fun _ => rfl) rfl
      (hSeated.alone hOld nofun nofun) (hSeated.of_destroyed hOld nofun)⟩
  · cases hStep

theorem Invariant.finish (h : s.Invariant) (hMeets : s.Meets (.finish t))
    (hStep : s.perform connectionSetupCommands (.finish t) = some s') : s'.Invariant := by
  obtain ⟨life, hLinked, hSeated⟩ := h
  simp only [perform, Option.ite_none_right_eq_some, Option.some.injEq] at hStep
  obtain ⟨hOld, rfl⟩ := hStep
  exact ⟨life, hLinked.of_eq rfl rfl rfl rfl rfl rfl, hSeated.go hOld rfl rfl rfl rfl rfl
    (mutex_keep hSeated.mutex hOld rfl) (fun _ _ _ => rfl) trivial rfl rfl nofun rfl
    (fun u hPhase => absurd hPhase (hMeets u)) fun _ => .inr (.inr rfl)⟩

theorem Invariant.signal (h : s.Invariant) (hMeets : s.Meets (.signal t))
    (hStep : s.perform connectionSetupCommands (.signal t) = some s') : s'.Invariant := by
  obtain ⟨life, hLinked, hSeated⟩ := h
  simp only [perform, Option.ite_none_right_eq_some, Option.some.injEq] at hStep
  obtain ⟨hOld, rfl⟩ := hStep
  exact ⟨life, hLinked.of_eq rfl rfl rfl rfl rfl rfl, hSeated.go hOld rfl rfl rfl rfl rfl
    (mutex_keep hSeated.mutex hOld rfl) (fun _ _ _ => rfl) trivial rfl rfl nofun rfl
    (fun u hPhase => absurd hPhase (hMeets u)) fun _ => .inr (.inr rfl)⟩

omit [DecidableEq τ] in
/-- A connection that listens to a thread at its end is in the map: no thread frees it. -/
theorem Seated.mapped_of_ending (hLinked : s.Linked life) (h : s.Seated life) (hOld : s.place t = .ending)
    {conn : Nat} (hConn : (t, conn) ∈ s.listeners) : life conn = .mapped t := by
  have hListens := (hLinked.listeners t conn).mp hConn
  cases hLife : life conn with
  | mapped u =>
    rw [hLife] at hListens
    cases hListens
    rfl
  | unmapped u =>
    rw [hLife] at hListens
    cases hListens
    obtain ⟨v, hv⟩ := h.frees t conn hLife
    have hFits := h.fits v
    cases hPlace : s.place v with
    | freeing conn' caller =>
      rw [hPlace] at hv hFits
      cases hv
      obtain ⟨owner, hOwner, hMay⟩ := hFits
      rw [hLife] at hOwner
      cases hOwner
      cases caller with
      | createConnection => cases hMay
      | cleanup =>
        obtain rfl : t = v := hMay
        rw [hOld] at hPlace
        cases hPlace
      | pool =>
        have hNe : t ≠ v := by
          rintro rfl
          rw [hOld] at hPlace
          cases hPlace
        exact h.alone hOld nofun nofun v hMay hNe
    | _ =>
      rw [hPlace] at hv
      cases hv
  | _ =>
    rw [hLife] at hListens
    cases hListens

theorem Invariant.deliver (h : s.Invariant)
    (hStep : s.perform connectionSetupCommands (.deliver t) = some s') : s'.Invariant := by
  obtain ⟨life, hLinked, hSeated⟩ := h
  simp only [perform, Option.ite_none_right_eq_some] at hStep
  obtain ⟨hOld, hStep⟩ := hStep
  split at hStep
  · rename_i u conn hFind
    cases hStep
    obtain rfl : u = t := by simpa using List.find?_some hFind
    have hMapped := hSeated.mapped_of_ending hLinked hOld (List.mem_of_find?_eq_some hFind)
    refine ⟨life, hLinked.of_eq rfl rfl rfl rfl rfl rfl, hSeated.go hOld rfl rfl rfl rfl rfl
      (mutex_keep hSeated.mutex hOld rfl) (fun _ _ _ => rfl) ⟨u, hMapped, rfl⟩ rfl rfl nofun rfl
      (hSeated.alone hOld nofun nofun) fun hGone => ?_⟩
    have hMem := (hLinked.map u conn).mpr hMapped
    rw [(hSeated.destroyed hGone).1] at hMem
    cases hMem
  · rename_i hFind
    cases hStep
    have hNone : ∀ c, (t, c) ∉ s.listeners := fun c hc => by
      simpa using List.find?_eq_none.mp hFind _ hc
    exact ⟨life, hLinked.of_eq rfl rfl rfl rfl rfl rfl, hSeated.go hOld rfl rfl rfl rfl rfl
      (mutex_keep hSeated.mutex hOld rfl) (fun _ _ _ => rfl) hNone rfl rfl nofun rfl
      (hSeated.alone hOld nofun nofun) fun _ => .inl rfl⟩

omit [DecidableEq τ] in
/-- No thread sets a connection up but the one that has it in hand. -/
theorem Seated.ne_of_settingUp {c : Nat} (h : s.Seated life) (hOld : s.place t = q) (hNone : q.setsUp = none)
    (hLife : life c = .settingUp u) : u ≠ t := by
  rintro rfl
  have hSome := h.setsUp u c hLife
  rw [hOld, hNone] at hSome
  cases hSome

theorem Invariant.find (h : s.Invariant)
    (hStep : s.perform connectionSetupCommands (.find t) = some s') : s'.Invariant := by
  obtain ⟨life, hLinked, hSeated⟩ := h
  simp only [perform, Option.ite_none_right_eq_some] at hStep
  obtain ⟨hOld, hStep⟩ := hStep
  cases hLookup : s.m_openConnections.lookup t with
  | some conn =>
    simp only [hLookup, Option.some.injEq] at hStep
    subst hStep
    have hMem : (t, conn) ∈ s.m_openConnections := mem_of_lookup hLookup
    have hMapped := (hLinked.map t conn).mp hMem
    have hHanded : ∀ u c, (u, c) ∈ (t, conn) :: s.handed ↔ (u, c) ∈ s.handed := by
      intro u c
      refine List.mem_cons.trans (or_iff_right_of_imp fun hEq => ?_)
      rw [hEq, hLinked.handed, hMapped]
      rfl
    refine ⟨life, ?_, ?_⟩
    · exact ⟨hLinked.created, fun u c => (hHanded u c).trans (hLinked.handed u c), hLinked.listeners,
        hLinked.map, hLinked.deleted, hLinked.nodup, hLinked.single, hLinked.failed⟩
    · refine hSeated.step hOld rfl rfl (mutex_give hSeated.mutex hOld rfl rfl) trivial (fun u _ hFits => ?_)
        (fun u c hc => .inr ⟨hSeated.ne_of_settingUp hOld rfl hc, hc⟩) (fun u c hc => .inr ⟨Option.some_ne_none c |>.symm, hc⟩)
        (fun u c hThere hRun hc => ?_) rfl (hSeated.alone hOld nofun nofun) fun hGone => ?_
      · exact hFits.frame (fun _ => ⟨rfl, rfl⟩) (fun c hc => (hHanded u c).mp hc) (fun _ hc => hc)
          (fun _ _ => rfl) fun _ => rfl
      · exact hSeated.kept u c hThere (running_of_update hOld (fun _ => rfl) hRun) ((hHanded u c).mp hc)
      · exact hSeated.of_destroyed hOld nofun hGone
  | none =>
    simp only [hLookup, Option.some.injEq] at hStep
    subst hStep
    have hFits := hSeated.fits t
    rw [hOld] at hFits
    have hThere : s.phase = .there := by
      cases hPhase : s.phase with
      | there => rfl
      | destroying u =>
        have hu : t ≠ u := by
          rintro rfl
          have hDestroys := (hSeated.destroying t).mp hPhase
          rw [hOld] at hDestroys
          cases hDestroys
        exact hSeated.alone hOld nofun nofun u hPhase hu
      | destroyed => exact hSeated.of_destroyed hOld nofun hPhase
    have hNone : ∀ c, (t, c) ∉ s.handed := fun c hc =>
      notMem_of_lookup hLookup c (hSeated.kept t c hThere (by rw [hOld]; rfl) hc)
    exact ⟨life, hLinked.of_eq rfl rfl rfl rfl rfl rfl, hSeated.go hOld rfl rfl rfl rfl rfl
      (mutex_keep hSeated.mutex hOld rfl) (fun _ _ _ => rfl) ⟨hFits, hNone⟩ rfl rfl (fun _ => rfl) rfl
      (hSeated.alone hOld nofun nofun) (hSeated.of_destroyed hOld nofun)⟩

/-- A creation that fails leaves the map as it was. -/
theorem Seated.fail (hLinked : s.Linked life) (h : s.Seated life) (hOld : s.place t = q)
    (hHolds : q.holds = true) (hEntered : s.m_openConnections = s.entered) (hSetsUp : q.setsUp = none)
    (hFrees : q.frees = none) (hRunning : q.running = true) (hDestroys : q.destroys = false)
    (hIn : ¬ (q = .gone ∨ q = .out ∨ q = .ending)) : (s.fail t).Invariant := by
  have hFailed : ∀ maps ∈ (s.fail t).failed, maps.1 = maps.2 := by
    intro maps hMaps
    rcases List.mem_cons.mp hMaps with rfl | hMaps
    · exact hEntered.symm
    · exact hLinked.failed maps hMaps
  have hOut : q ≠ .out := fun hEq => hIn (.inr (.inl hEq))
  have hGone : q ≠ .gone := fun hEq => hIn (.inl hEq)
  exact ⟨life, ⟨hLinked.created, hLinked.handed, hLinked.listeners, hLinked.map, hLinked.deleted,
    hLinked.nodup, hLinked.single, hFailed⟩, h.go hOld rfl rfl rfl rfl rfl
    (mutex_give h.mutex hOld hHolds rfl) (fun _ _ _ => rfl) trivial hSetsUp.symm hFrees (fun _ => hRunning)
    hDestroys.symm (h.alone hOld hOut hGone) (h.of_destroyed hOld hIn)⟩

theorem Invariant.connect {succeeds : Bool} (h : s.Invariant)
    (hStep : s.perform connectionSetupCommands (.connect t succeeds) = some s') : s'.Invariant := by
  obtain ⟨life, hLinked, hSeated⟩ := h
  simp only [perform, Option.ite_none_right_eq_some] at hStep
  obtain ⟨hOld, hStep⟩ := hStep
  have hFits := hSeated.fits t
  rw [hOld] at hFits
  obtain ⟨hEntered, hNone⟩ := hFits
  cases succeeds with
  | false =>
    simp only [Bool.false_eq_true, if_false, Option.some.injEq] at hStep
    subst hStep
    exact hSeated.fail hLinked hOld rfl hEntered rfl rfl rfl rfl nofun
  | true =>
    simp only [if_true, Option.some.injEq] at hStep
    subst hStep
    have hUnborn : life s.created = .unborn := (hLinked.created s.created).mp (Nat.le_refl _)
    have hNot : ∀ {new : Life τ}, new ≠ .unborn → life s.created ≠ new := fun hNew hEq =>
      hNew (hEq.symm.trans hUnborn)
    refine ⟨Function.update life s.created (.settingUp t), ?_, ?_⟩
    · refine hLinked.update s.created (.settingUp t) nofun (fun c => ?_)
        (hLinked.handed_update (by rw [hUnborn]; rfl)) (hLinked.listeners_update (by rw [hUnborn]; rfl))
        (hLinked.map_update (fun _ => hNot nofun) nofun) (hLinked.deleted_update (fun _ => hNot nofun) nofun)
        hLinked.nodup hLinked.single rfl
      show s.created + 1 ≤ c ↔ c ≠ s.created ∧ s.created ≤ c
      omega
    · refine hSeated.step hOld rfl rfl (mutex_keep hSeated.mutex hOld rfl)
        ⟨hEntered, hNone, Function.update_self _ _ _⟩ (fun u hu hFits => ?_) (fun u c hc => ?_)
        (fun u c hc => ?_) (fun u c hThere hRun hc => ?_) rfl (hSeated.alone hOld nofun nofun)
        (hSeated.of_destroyed hOld nofun)
      · refine hFits.frame (fun _ => ⟨rfl, rfl⟩) (fun _ hc => hc) (fun _ hc => hc)
          (fun c hc => Function.update_of_ne ?_ _ _) fun _ => rfl
        rintro rfl
        rcases hFits.life_conn hc with hLife | ⟨owner, caller, hLife, -⟩
        · rw [hUnborn] at hLife
          cases hLife
        · rw [hUnborn] at hLife
          cases hLife
      · by_cases hEq : c = s.created
        · rw [hEq, Function.update_self] at hc
          cases hc
          exact .inl ⟨rfl, by rw [hEq]; rfl⟩
        · rw [Function.update_of_ne hEq] at hc
          exact .inr ⟨hSeated.ne_of_settingUp hOld rfl hc, hc⟩
      · by_cases hEq : c = s.created
        · rw [hEq, Function.update_self] at hc
          cases hc
        · rw [Function.update_of_ne hEq] at hc
          exact .inr ⟨Option.some_ne_none c |>.symm, hc⟩
      · exact hSeated.kept u c hThere (running_of_update hOld (fun _ => rfl) hRun) hc

omit [DecidableEq τ] in
/-- The other threads when the life of the connection that a thread has in hand goes on. -/
theorem Seated.fits_update {conn : Nat} (h : s.Seated life) (hOld : s.place t = q) (hConn : q.conn = some conn)
    (new : Life τ) (hu : u ≠ t)
    (hMap : (s.place u).holds = true → s'.m_openConnections = s.m_openConnections ∧ s'.entered = s.entered)
    (hHanded : ∀ c, (u, c) ∈ s'.handed → (u, c) ∈ s.handed)
    (hListeners : ∀ c, (u, c) ∈ s'.listeners → (u, c) ∈ s.listeners) (hPhase : s'.phase = s.phase) :
    s'.Fits (Function.update life conn new) u (s.place u) := by
  refine (h.fits u).frame hMap hHanded hListeners (fun c hc => Function.update_of_ne ?_ _ _) fun _ => hPhase
  rintro rfl
  exact hu (h.conn_injective (hOld ▸ hConn) hc)

omit [DecidableEq τ] in
/-- The thread that sets a connection up has it in hand, and no other one. -/
theorem Seated.settingUp_update {conn c : Nat} {new : Life τ} (h : s.Seated life) (hOld : s.place t = q)
    (hSetsUp : ∀ c, q.setsUp = some c → c = conn) (hNew : ∀ u, new ≠ .settingUp u)
    (hc : Function.update life conn new c = .settingUp u) : u ≠ t ∧ life c = .settingUp u := by
  by_cases hEq : c = conn
  · rw [hEq, Function.update_self] at hc
    exact absurd hc (hNew u)
  · rw [Function.update_of_ne hEq] at hc
    refine ⟨?_, hc⟩
    rintro rfl
    exact hEq (hSetsUp c (hOld ▸ h.setsUp u c hc))

theorem Invariant.insert (h : s.Invariant)
    (hStep : s.perform connectionSetupCommands (.insert t) = some s') : s'.Invariant := by
  obtain ⟨life, hLinked, hSeated⟩ := h
  simp only [perform] at hStep
  split at hStep
  · rename_i conn hOld
    cases hStep
    have hFits := hSeated.fits t
    rw [hOld] at hFits
    obtain ⟨-, hNone, hSettingUp⟩ := hFits
    have hHolds : (s.place t).holds = true := by
      rw [hOld]
      rfl
    -- the thread has no connection yet
    have hNoMap : ∀ c, (t, c) ∉ s.m_openConnections := by
      intro c hc
      refine hNone c ((hLinked.handed t c).mpr ?_)
      rw [(hLinked.map t c).mp hc]
      rfl
    have hNoListener : ∀ c, (t, c) ∉ s.listeners := by
      intro c hc
      have hListens := (hLinked.listeners t c).mp hc
      refine hNone c ((hLinked.handed t c).mpr ?_)
      cases hLife : life c with
      | mapped u | unmapped u =>
        rw [hLife] at hListens
        exact hListens
      | _ =>
        rw [hLife] at hListens
        cases hListens
    have hUnknown : ∀ u, (u, conn) ∉ s.handed ∧ (u, conn) ∉ s.listeners ∧
        (u, conn) ∉ s.m_openConnections := by
      intro u
      rw [hLinked.handed, hLinked.listeners, hLinked.map, hSettingUp]
      exact ⟨(by rintro ⟨⟩), (by rintro ⟨⟩), (by rintro ⟨⟩)⟩
    have hCons : ∀ {u c : _} {list : List (τ × Nat)} {P : Prop}, (∀ u, (u, conn) ∉ list) → (P ↔ t = u) →
        ((u, c) ∈ (t, conn) :: list ↔ if c = conn then P else (u, c) ∈ list) := by
      intro u c list P hNot hP
      rw [List.mem_cons, Prod.mk.injEq]
      split
      · rename_i hc
        rw [hc, hP]
        exact ⟨fun hOr => hOr.elim (fun hEq => hEq.1.symm) fun hMem => absurd hMem (hNot u),
          fun hEq => .inl ⟨hEq.symm, rfl⟩⟩
      · rename_i hc
        exact or_iff_right fun hEq => hc hEq.2
    have hMem : ∀ u c, (u, c) ∈ QHash.insert s.m_openConnections t conn ↔
        (u, c) ∈ (t, conn) :: s.m_openConnections := by
      intro u c
      rw [QHash.insert, QHash.remove, List.mem_cons, List.mem_cons, List.mem_filter]
      refine or_congr_right (and_iff_left_of_imp fun hMem => ?_)
      simp only [ne_eq, decide_eq_true_eq]
      rintro rfl
      exact hNoMap c hMem
    refine ⟨Function.update life conn (.mapped t), ?_, ?_⟩
    · refine hLinked.update conn (.mapped t) (by rintro ⟨⟩) (hLinked.created_update (by rw [hSettingUp]; rintro ⟨⟩))
        (fun u c => hCons (fun u => (hUnknown u).1) Option.some_inj)
        (fun u c => hCons (fun u => (hUnknown u).2.1) Option.some_inj)
        (fun u c => (hMem u c).trans (hCons (fun u => (hUnknown u).2.2) (Life.mapped.injEq t u ▸ Iff.rfl)))
        (hLinked.deleted_update (by rw [hSettingUp]; rintro _ ⟨⟩) (by rintro _ ⟨⟩)) hLinked.nodup (fun u c d hc hd => ?_) rfl
      rcases List.mem_cons.mp hc with hEq | hc
      · rcases List.mem_cons.mp hd with hEq' | hd
        · exact (Prod.mk.inj hEq).2.trans (Prod.mk.inj hEq').2.symm
        · exact absurd ((Prod.mk.inj hEq).1 ▸ hd) (hNoListener d)
      · rcases List.mem_cons.mp hd with hEq' | hd
        · exact absurd ((Prod.mk.inj hEq').1 ▸ hc) (hNoListener c)
        · exact hLinked.single u c d hc hd
    · have hTail : ∀ {u c : _} {list : List (τ × Nat)}, u ≠ t → (u, c) ∈ (t, conn) :: list → (u, c) ∈ list :=
        fun hu hc => (List.mem_cons.mp hc).resolve_left fun hEq => hu (Prod.mk.inj hEq).1
      refine hSeated.step hOld rfl rfl (mutex_give hSeated.mutex hOld rfl rfl) trivial (fun u hu _ => ?_)
        (fun u c hc => ?_) (fun u c hc => ?_) (fun u c hThere hRun hc => ?_) rfl
        (hSeated.alone hOld (by rintro ⟨⟩) (by rintro ⟨⟩)) (hSeated.of_destroyed hOld (by rintro (h | h | h) <;> cases h))
      · exact hSeated.fits_update hOld rfl _ hu
          (fun hOther => absurd (hSeated.eq_of_holds hHolds hOther) hu) (fun _ => hTail hu) (fun _ => hTail hu) rfl
      · exact .inr (hSeated.settingUp_update hOld (fun c hc => (Option.some.inj hc).symm) (by rintro _ ⟨⟩) hc)
      · by_cases hEq : c = conn
        · rw [hEq, Function.update_self] at hc
          cases hc
        · rw [Function.update_of_ne hEq] at hc
          exact .inr ⟨Option.some_ne_none c |>.symm, hc⟩
      · refine (hMem u c).mpr ?_
        rcases List.mem_cons.mp hc with hEq | hc
        · exact List.mem_cons.mpr (.inl hEq)
        · exact List.mem_cons_of_mem _
            (hSeated.kept u c hThere (running_of_update hOld (fun _ => rfl) hRun) hc)
  · cases hStep

theorem Linked.mem_removeConnection {conn c : Nat} {owner : τ} (h : s.Linked life)
    (hConn : life conn = .mapped owner) :
    (u, c) ∈ s.removeConnection conn ↔ (u, c) ∈ s.m_openConnections ∧ c ≠ conn := by
  have hIn : (owner, conn) ∈ s.m_openConnections := (h.map owner conn).mpr hConn
  have hListener : ∀ {u c}, (u, c) ∈ s.m_openConnections → (u, c) ∈ s.listeners := by
    intro u c hMem
    rw [h.listeners, (h.map u c).mp hMem]
    rfl
  unfold removeConnection
  split
  · rename_i key value hFind
    obtain rfl : value = conn := by simpa using List.find?_some hFind
    obtain rfl : key = owner := by
      have hKey := (h.map key value).mp (List.mem_of_find?_eq_some hFind)
      rw [hConn] at hKey
      cases hKey
      rfl
    rw [QHash.remove, List.mem_filter]
    refine and_congr_right fun hMem => ?_
    simp only [ne_eq, decide_eq_true_eq, not_iff_not]
    constructor
    · rintro rfl
      exact h.single u c value (hListener hMem) (hListener hIn)
    · rintro rfl
      have hOwner := (h.map u c).mp hMem
      rw [hConn] at hOwner
      cases hOwner
      rfl
  · rename_i hNone
    exfalso
    simpa using List.find?_eq_none.mp hNone _ hIn

theorem Invariant.remove (h : s.Invariant)
    (hStep : s.perform connectionSetupCommands (.remove t) = some s') : s'.Invariant := by
  obtain ⟨life, hLinked, hSeated⟩ := h
  simp only [perform] at hStep
  split at hStep
  · rename_i conn caller hOld
    cases hStep
    have hFits := hSeated.fits t
    rw [hOld] at hFits
    obtain ⟨owner, hMapped, hMay⟩ := hFits
    have hHolds : (s.place t).holds = true := by
      rw [hOld]
      rfl
    refine ⟨Function.update life conn (.unmapped owner), ?_, ?_⟩
    · refine hLinked.update conn (.unmapped owner) nofun (hLinked.created_update (by rw [hMapped]; nofun))
        (hLinked.handed_update (by rw [hMapped]; rfl)) (hLinked.listeners_update (by rw [hMapped]; rfl))
        (fun u c => (hLinked.mem_removeConnection hMapped).trans ?_)
        (hLinked.deleted_update (by rw [hMapped]; nofun) nofun) hLinked.nodup hLinked.single rfl
      split
      · rename_i hc
        exact iff_of_false (fun hMem => hMem.2 hc) nofun
      · rename_i hc
        exact and_iff_left hc
    · refine hSeated.step hOld rfl rfl (mutex_give hSeated.mutex hOld rfl rfl)
        ⟨owner, Function.update_self _ _ _, by cases caller <;> exact hMay⟩ (fun u hu _ => ?_)
        (fun u c hc => ?_) (fun u c hc => ?_) (fun u c hThere hRun hc => ?_) (by cases caller <;> rfl)
        (hSeated.alone hOld nofun nofun) (hSeated.of_destroyed hOld nofun)
      · exact hSeated.fits_update hOld rfl _ hu
          (fun hOther => absurd (hSeated.eq_of_holds hHolds hOther) hu) (fun _ hc => hc) (fun _ hc => hc) rfl
      · exact .inr (hSeated.settingUp_update hOld (by nofun) (by nofun) hc)
      · by_cases hEq : c = conn
        · exact .inl (hEq ▸ rfl)
        · rw [Function.update_of_ne hEq] at hc
          exact .inr ⟨Option.some_ne_none c |>.symm, hc⟩
      · have hRunBefore : (s.place u).running = true :=
          running_of_update hOld (by cases caller <;> exact id) hRun
        refine (hLinked.mem_removeConnection hMapped).mpr ⟨hSeated.kept u c hThere hRunBefore hc, ?_⟩
        rintro rfl
        have hOwner := (hLinked.handed u c).mp hc
        rw [hMapped] at hOwner
        cases hOwner
        cases caller with
        | createConnection => cases hMay
        | cleanup =>
          obtain rfl : owner = t := hMay
          rw [hOld] at hRunBefore
          cases hRunBefore
        | pool =>
          have hDestroying : s.phase = .destroying t := hMay
          rw [hThere] at hDestroying
          cases hDestroying
  · cases hStep

/-- The end of a connection that was taken from the map. -/
theorem Seated.freed {conn : Nat} {caller : Caller} {owner : τ} (hLinked : s.Linked life) (h : s.Seated life)
    (hOld : s.place t = .freeing conn caller) (hUnmapped : life conn = .unmapped owner)
    (hHolds : p.holds = false)
    (hFits : ∀ (s' : Threads τ) (life' : Nat → Life τ), s'.Fits life' t p)
    (hRunning : p.running = true → (Place.freeing conn caller).running = true)
    (hDestroys : p.destroys = (Place.freeing conn caller).destroys) :
    Invariant { s.move t p with
      deleted := conn :: s.deleted
      listeners := s.listeners.filter (·.2 ≠ conn) } := by
  have hListeners : ∀ u c, (u, c) ∈ s.listeners.filter (·.2 ≠ conn) ↔ (u, c) ∈ s.listeners ∧ c ≠ conn := by
    intro u c
    rw [List.mem_filter, decide_eq_true_eq]
  have hNot : conn ∉ s.deleted := by
    rw [hLinked.deleted, hUnmapped]
    nofun
  refine ⟨Function.update life conn (.deleted owner), ?_, ?_⟩
  · refine hLinked.update conn (.deleted owner) nofun (hLinked.created_update (by rw [hUnmapped]; nofun))
      (hLinked.handed_update (by rw [hUnmapped]; rfl)) (fun u c => (hListeners u c).trans ?_)
      (hLinked.map_update (by rw [hUnmapped]; nofun) nofun) (fun c => List.mem_cons.trans ?_)
      (List.nodup_cons.mpr ⟨hNot, hLinked.nodup⟩) (fun u c d hc hd => ?_) rfl
    · split
      · rename_i hc
        exact iff_of_false (fun hMem => hMem.2 hc) nofun
      · rename_i hc
        exact and_iff_left hc
    · split
      · rename_i hc
        exact iff_of_true (.inl hc) ⟨owner, rfl⟩
      · rename_i hc
        exact or_iff_right hc
    · exact hLinked.single u c d ((hListeners u c).mp hc).1 ((hListeners u d).mp hd).1
  · refine h.step hOld rfl rfl (mutex_keep h.mutex hOld hHolds) (hFits _ _) (fun u hu _ => ?_)
      (fun u c hc => .inr (h.settingUp_update hOld (by nofun) (by nofun) hc)) (fun u c hc => ?_)
      (fun u c hThere hRun hc => h.kept u c hThere (running_of_update hOld hRunning hRun) hc) hDestroys
      (h.alone hOld nofun nofun) (h.of_destroyed hOld nofun)
    · exact h.fits_update hOld rfl _ hu (fun _ => ⟨rfl, rfl⟩) (fun _ hc => hc)
        (fun c hc => ((hListeners u c).mp hc).1) rfl
    · by_cases hEq : c = conn
      · rw [hEq, Function.update_self] at hc
        cases hc
      · rw [Function.update_of_ne hEq] at hc
        exact .inr ⟨fun hSome => hEq (Option.some.inj hSome).symm, hc⟩

theorem Invariant.free (h : s.Invariant)
    (hStep : s.perform connectionSetupCommands (.free t) = some s') : s'.Invariant := by
  obtain ⟨life, hLinked, hSeated⟩ := h
  simp only [perform] at hStep
  split at hStep
  · rename_i conn caller hOld
    cases hStep
    have hFits := hSeated.fits t
    rw [hOld] at hFits
    obtain ⟨owner, hUnmapped, hMay⟩ := hFits
    cases caller with
    | createConnection => cases hMay
    | cleanup => exact hSeated.freed hLinked hOld hUnmapped rfl (fun _ _ => trivial) nofun rfl
    | pool => exact hSeated.freed hLinked hOld hUnmapped rfl (fun _ _ => trivial) (fun _ => rfl) rfl
  · cases hStep

/-- The destructor of the pool begins or ends while all other threads are out of the code of the pool. -/
theorem Seated.turn (h : s.Seated life) (hOld : s.place t = q) (hPlace : s'.place = Function.update s.place t p)
    (hMap : s'.m_openConnections = s.m_openConnections) (hEntered : s'.entered = s.entered)
    (hHanded : s'.handed = s.handed) (hListeners : s'.listeners = s.listeners)
    (hMutex : ∀ u, s'.m_connectionMutex = some u ↔ (Function.update s.place t p u).holds = true)
    (hFits : s'.Fits life t p) (hQuiet : ∀ u, u ≠ t → s.place u = .out ∨ s.place u = .gone)
    (hSetsUp : q.setsUp = none) (hFrees : q.frees = none) (hThere : s'.phase ≠ .there)
    (hDestroying : ∀ u, s'.phase = .destroying u ↔ u = t ∧ p.destroys = true)
    (hDestroyed : s'.phase = .destroyed → s.m_openConnections = [] ∧ p = .out) : s'.Seated life := by
  have hOther : ∀ u, u ≠ t → s'.place u = s.place u := fun u hu => by
    rw [hPlace, Function.update_of_ne hu]
  have hSelf : s'.place t = p := by rw [hPlace, Function.update_self]
  have hStill : ∀ u, u ≠ t → (s.place u).destroys = false := fun u hu =>
    (hQuiet u hu).elim (fun hEq => hEq ▸ rfl) fun hEq => hEq ▸ rfl
  refine ⟨fun u => ?_, fun u => ?_, fun u c hc => ?_, fun u c hc => ?_, fun _ _ hPhase => absurd hPhase hThere,
    fun u => ?_, fun u v hu hv => ?_, fun hPhase => ⟨?_, fun u => ?_⟩⟩
  · exact hPlace ▸ hMutex u
  · by_cases hu : u = t
    · rw [hu, hSelf]
      exact hFits
    · rw [hOther u hu]
      refine (h.fits u).frame (fun _ => ⟨hMap, hEntered⟩) (fun c hc => hHanded ▸ hc)
        (fun c hc => hListeners ▸ hc) (fun _ _ => rfl) fun hDestroys => ?_
      rw [hStill u hu] at hDestroys
      cases hDestroys
  · rw [hOther u (h.ne_of_settingUp hOld hSetsUp hc)]
    exact h.setsUp u c hc
  · obtain ⟨v, hv⟩ := h.frees u c hc
    refine ⟨v, ?_⟩
    rw [hOther v, hv]
    rintro rfl
    rw [hOld, hFrees] at hv
    cases hv
  · rw [hDestroying u]
    by_cases hu : u = t
    · rw [hu, hSelf]
      exact and_iff_right rfl
    · rw [hOther u hu, hStill u hu]
      exact iff_of_false (fun hAnd => hu hAnd.1) nofun
  · obtain rfl : u = t := ((hDestroying u).mp hu).1
    rw [hOther v hv]
    exact hQuiet v hv
  · rw [hMap]
    exact (hDestroyed hPhase).1
  · by_cases hu : u = t
    · rw [hu, hSelf]
      exact .inr (.inl (hDestroyed hPhase).2)
    · rw [hOther u hu]
      exact (hQuiet u hu).elim (fun hEq => .inr (.inl hEq)) .inl

theorem Invariant.destroy (h : s.Invariant) (hMeets : s.Meets (.destroy t))
    (hStep : s.perform connectionSetupCommands (.destroy t) = some s') : s'.Invariant := by
  obtain ⟨life, hLinked, hSeated⟩ := h
  simp only [perform, Option.ite_none_right_eq_some, Option.some.injEq] at hStep
  obtain ⟨⟨hOld, -⟩, rfl⟩ := hStep
  refine ⟨life, hLinked.of_eq rfl rfl rfl rfl rfl rfl, hSeated.turn hOld rfl rfl rfl rfl rfl
    (mutex_keep hSeated.mutex hOld rfl) trivial hMeets rfl rfl nofun (fun u => ?_) nofun⟩
  exact ⟨fun hEq => ⟨(Phase.destroying.inj hEq).symm, rfl⟩, fun hEq => hEq.1 ▸ rfl⟩

theorem Invariant.next {conn : Option Nat} (h : s.Invariant)
    (hStep : s.perform connectionSetupCommands (.next t conn) = some s') : s'.Invariant := by
  obtain ⟨life, hLinked, hSeated⟩ := h
  simp only [perform, Option.ite_none_right_eq_some] at hStep
  obtain ⟨hOld, hStep⟩ := hStep
  have hPhase : s.phase = .destroying t := (hSeated.destroying t).mpr (by rw [hOld]; rfl)
  cases conn with
  | some conn =>
    simp only [Option.ite_none_right_eq_some, Option.some.injEq] at hStep
    obtain ⟨hMem, rfl⟩ := hStep
    obtain ⟨⟨u, c⟩, hIn, rfl⟩ := List.mem_map.mp hMem
    exact ⟨life, hLinked.of_eq rfl rfl rfl rfl rfl rfl, hSeated.go hOld rfl rfl rfl rfl rfl
      (mutex_keep hSeated.mutex hOld rfl) (fun _ _ _ => rfl) ⟨u, (hLinked.map u c).mp hIn, hPhase⟩ rfl rfl
      (fun _ => rfl) rfl (hSeated.alone hOld nofun nofun) (hSeated.of_destroyed hOld nofun)⟩
  | none =>
    simp only [Option.ite_none_right_eq_some, Option.some.injEq] at hStep
    obtain ⟨hEmpty, rfl⟩ := hStep
    exact ⟨life, hLinked.of_eq rfl rfl rfl rfl rfl rfl, hSeated.turn hOld rfl rfl rfl rfl rfl
      (mutex_keep hSeated.mutex hOld rfl) trivial (fun u hu => hSeated.others t u hPhase hu) rfl rfl nofun
      (fun u => iff_of_false nofun nofun) fun _ => ⟨hEmpty, rfl⟩⟩

/-- Each step that meets the condition keeps the invariant. -/
theorem Invariant.perform (h : s.Invariant) (hMeets : s.Meets a)
    (hStep : s.perform connectionSetupCommands a = some s') : s'.Invariant := by
  cases a with
  | call t => exact h.call hMeets hStep
  | lock t => exact h.lock hStep
  | find t => exact h.find hStep
  | connect t succeeds => exact h.connect hStep
  | execute t code => exact h.execute hMeets hStep
  | insert t => exact h.insert hStep
  | remove t => exact h.remove hStep
  | free t => exact h.free hStep
  | finish t => exact h.finish hMeets hStep
  | signal t => exact h.signal hMeets hStep
  | deliver t => exact h.deliver hStep
  | destroy t => exact h.destroy hMeets hStep
  | next t conn => exact h.next hStep

omit [DecidableEq τ] in
theorem invariant_init : (init : Threads τ).Invariant := by
  refine ⟨fun _ => .unborn, ⟨fun c => iff_of_true (Nat.zero_le c) rfl, ?_, ?_, ?_, ?_, List.nodup_nil, nofun, nofun⟩,
    ⟨?_, fun _ => trivial, nofun, nofun, nofun, ?_, nofun, nofun⟩⟩
  · exact fun _ _ => iff_of_false List.not_mem_nil nofun
  · exact fun _ _ => iff_of_false List.not_mem_nil nofun
  · exact fun _ _ => iff_of_false List.not_mem_nil nofun
  · exact fun _ => iff_of_false List.not_mem_nil nofun
  · exact fun _ => iff_of_false nofun nofun
  · exact fun _ => iff_of_false nofun nofun

end Threads

end ODBC

end Soprano
