import Soprano.Library.Runs
import Soprano.Library.Sharing

/-! `Iterator`, whose copies share a `Private` that owns the backend. A copy of the shared data that a
non-const access makes has the same pointer to the backend, until `setBackend` replaces it. -/

namespace Soprano.Iterator

open Sharing Runs

/-- A call on a backend; backends are numbered in the order in which they are created. -/
inductive Event
  | close (backend : Nat)
  | delete (backend : Nat)
  deriving DecidableEq

def Event.backend : Event → Nat
  | .close b | .delete b => b

structure Private where
  backend : Option Nat
  deriving DecidableEq

namespace Private

def new : Private := ⟨none⟩

/-- `~Private` -/
def destruct (d : Private) : List Event :=
  match d.backend with
  | some b => [.close b, .delete b]
  | none => []

/-- What `setBackend` does with the data that it has detached. -/
def setBackend (b : Nat) (d : Private) : Option Private :=
  some (if d.backend ≠ some b then { d with backend := some b } else d)

end Private

structure State where
  heap : Heap Private
  backends : Nat
  log : List Event

def init : State := ⟨⟨[], []⟩, 0, []⟩

/-- What the program does with iterators. A backend is created for each `constructWith` and `setBackend`. -/
inductive Action
  | construct
  | constructWith
  | copy (source : Nat)
  | assign (target source : Nat)
  | setBackend (target : Nat)
  | destroy (target : Nat)

/-- An iterator no longer points to the data, and deletes it if no other one does. -/
def deref (heap : Heap Private) (p : Nat) : List Event :=
  if some p ∈ heap.pointers then [] else (heap.objects[p]?.map Private.destruct).getD []

namespace State

def perform (s : State) (c : Command Nat) : Option State := do
  let heap ← s.heap.perform Private.new Private.setBackend c
  let old := c.target.bind (s.heap.pointers[·]?.join)
  some { s with heap, log := s.log ++ (old.map (deref heap)).getD [] }

/-- `setBackend` with a new backend. -/
def install (s : State) (target : Nat) : Option State := do
  let t ← s.perform (.change target s.backends)
  some { t with backends := s.backends + 1 }

end State

def step (s : State) : Action → Option State
  | .construct => s.perform .create
  | .constructWith => do
    let t ← s.perform .create
    t.install s.heap.pointers.length
  | .copy source => s.perform (.copy source)
  | .assign target source => s.perform (.assign target source)
  | .setBackend target => s.install target
  | .destroy target => s.perform (.destroy target)

namespace State

/-- An iterator refers to the backend. -/
def Refers (s : State) (b : Nat) : Prop :=
  ∃ p, some p ∈ s.heap.pointers ∧ s.heap.objects[p]? = some ⟨some b⟩

/-- The calls on the backend. -/
def about (s : State) (b : Nat) : List Event := s.log.filter (·.backend = b)

/-- The backend is not touched while an iterator refers to it, and was closed and deleted once when none
does. -/
def OwnedAt (s : State) (b : Nat) : Prop :=
  (s.Refers b ∧ s.about b = []) ∨ (¬ s.Refers b ∧ s.about b = [.close b, .delete b])

def Owned (s : State) : Prop := ∀ b < s.backends, s.OwnedAt b

/-- Nothing refers to the backend, and it was never deleted. -/
def LostAt (s : State) (b : Nat) : Prop := b < s.backends ∧ ¬ s.Refers b ∧ s.about b = []

end State

/-- The data of the iterator whose backend is set is shared, or has no backend. -/
def Action.Safe (s : State) : Action → Prop
  | .setBackend target => ∀ p ∈ s.heap.pointers[target]?.join,
      s.heap.pointers.count (some p) ≠ 1 ∨ s.heap.objects[p]? = some ⟨none⟩
  | _ => True

instance (s : State) : (a : Action) → Decidable (a.Safe s)
  | .setBackend target => inferInstanceAs (Decidable (∀ p ∈ s.heap.pointers[target]?.join,
      s.heap.pointers.count (some p) ≠ 1 ∨ s.heap.objects[p]? = some ⟨none⟩))
  | .construct | .constructWith | .copy _ | .assign _ _ | .destroy _ => .isTrue trivial

/-- No two `Private`s own one backend. -/
structure WellFormed (s : State) : Prop where
  heap : s.heap.WellFormed
  unique : ∀ {p q b}, some p ∈ s.heap.pointers → some q ∈ s.heap.pointers →
    s.heap.objects[p]? = some ⟨some b⟩ → s.heap.objects[q]? = some ⟨some b⟩ → p = q
  bounded : ∀ {b}, s.Refers b → b < s.backends
  logged : ∀ e ∈ s.log, e.backend < s.backends

theorem wellFormed_init : WellFormed init where
  heap _ h := absurd h List.not_mem_nil
  unique h := absurd h List.not_mem_nil
  bounded h := absurd h.choose_spec.1 List.not_mem_nil
  logged _ h := absurd h List.not_mem_nil

/-- What a step does to a backend. -/
inductive Fate (s t : State) (b : Nat) : Prop
  | kept (refers : t.Refers b ↔ s.Refers b) (about : t.about b = s.about b)
  | released (before : s.Refers b) (after : ¬ t.Refers b)
      (about : t.about b = s.about b ++ [.close b, .delete b])

variable {s t : State}

theorem about_append (s : State) (events : List Event) (b : Nat) :
    State.about { s with log := s.log ++ events } b = s.about b ++ events.filter (·.backend = b) :=
  List.filter_append _ _

/-- The pointer at one place of a list is replaced. -/
theorem mem_set_of_ne {l : List (Option Nat)} {i p q : Nat} {x : Option Nat} (hOld : l[i]?.join = some p)
    (hNe : q ≠ p) (hq : some q ∈ l) : some q ∈ l.set i x := by
  obtain ⟨j, hj⟩ := List.mem_iff_getElem?.mp hq
  refine List.mem_iff_getElem?.mpr ⟨j, ?_⟩
  rw [List.getElem?_set_ne, hj]
  rintro rfl
  rw [hj] at hOld
  exact hNe (Option.some.inj hOld)

/-- The data is still pointed to, or had no backend, or it closes and deletes the one that it had. -/
theorem deref_cases (heap : Heap Private) {p : Nat} (hp : p < heap.objects.length) :
    ((some p ∈ heap.pointers ∨ heap.objects[p]? = some ⟨none⟩) ∧ deref heap p = []) ∨
      ∃ b, some p ∉ heap.pointers ∧ heap.objects[p]? = some ⟨some b⟩ ∧
        deref heap p = [.close b, .delete b] := by
  unfold deref
  by_cases hIn : some p ∈ heap.pointers
  · exact .inl ⟨.inl hIn, if_pos hIn⟩
  · rw [if_neg hIn]
    obtain ⟨d, hObject⟩ : ∃ d, heap.objects[p]? = some d := ⟨_, List.getElem?_eq_getElem hp⟩
    rw [hObject]
    obtain ⟨_ | b⟩ := d
    · exact .inl ⟨.inr rfl, rfl⟩
    · exact .inr ⟨b, hIn, rfl, rfl⟩

/-- An iterator points elsewhere, or nowhere. -/
theorem set_spec (h : WellFormed s) {target p : Nat} {x : Option Nat}
    (hOld : s.heap.pointers[target]?.join = some p) (hx : ∀ q ∈ x, some q ∈ s.heap.pointers)
    {heap : Heap Private} (hHeap : heap = ⟨s.heap.objects, s.heap.pointers.set target x⟩)
    (ht : t = { s with heap, log := s.log ++ deref heap p }) : WellFormed t ∧ ∀ b, Fate s t b := by
  have hp : some p ∈ s.heap.pointers := (Heap.mem_of_join hOld).2
  have hObjects : heap.objects = s.heap.objects := by rw [hHeap]
  have hSub : ∀ {q}, some q ∈ heap.pointers → some q ∈ s.heap.pointers := by
    intro q hq
    rw [hHeap] at hq
    rcases List.mem_or_eq_of_mem_set hq with hq | hq
    · exact hq
    · exact hx q hq.symm
  have hRest : ∀ {q}, q ≠ p → some q ∈ s.heap.pointers → some q ∈ heap.pointers := by
    intro q hNe hq
    rw [hHeap]
    exact mem_set_of_ne hOld hNe hq
  have hRefers : ∀ {b}, State.Refers t b → s.Refers b := by
    rintro b ⟨q, hq, hObject⟩
    subst ht
    exact ⟨q, hSub hq, hObjects ▸ hObject⟩
  have hCases := deref_cases heap (p := p) (hObjects ▸ h.heap p hp)
  rw [hObjects] at hCases
  refine ⟨⟨fun q hq => ?_, fun hq hr hObject hObject' => ?_, fun hb => ?_, fun e he => ?_⟩, fun b => ?_⟩
  · subst ht
    exact hObjects ▸ h.heap q (hSub hq)
  · subst ht
    exact h.unique (hSub hq) (hSub hr) (hObjects ▸ hObject) (hObjects ▸ hObject')
  · have := h.bounded (hRefers hb)
    subst ht
    exact this
  · subst ht
    rcases List.mem_append.mp he with he | he
    · exact h.logged e he
    · obtain ⟨-, hNone⟩ | ⟨b, -, hObject, hEvents⟩ := hCases
      · rw [hNone] at he
        cases he
      · have hBounded : b < s.backends := h.bounded ⟨p, hp, hObject⟩
        rw [hEvents] at he
        rcases List.mem_pair.mp he with rfl | rfl <;> exact hBounded
  · have hKept (hOther : s.heap.objects[p]? ≠ some ⟨some b⟩ ∨ some p ∈ heap.pointers) :
        t.Refers b ↔ s.Refers b := by
      refine ⟨hRefers, fun ⟨q, hq, hObject⟩ => ?_⟩
      subst ht
      refine ⟨q, ?_, hObjects ▸ hObject⟩
      by_cases hqp : q = p
      · subst hqp
        exact hOther.resolve_left (not_not.mpr hObject)
      · exact hRest hqp hq
    have hAbout : t.about b = s.about b ++ (deref heap p).filter (·.backend = b) := by
      rw [ht]
      exact about_append s _ b
    obtain ⟨hStill, hNone⟩ | ⟨owned, hGone, hObject, hEvents⟩ := hCases
    · rw [hNone, List.filter_nil, List.append_nil] at hAbout
      refine .kept (hKept ?_) hAbout
      rcases hStill with hStill | hObject
      · exact .inr hStill
      · rw [hObject]
        exact .inl nofun
    · rw [hEvents] at hAbout
      by_cases hb : b = owned
      · subst hb
        refine .released ⟨p, hp, hObject⟩ (fun ⟨q, hq, hObject'⟩ => ?_) (by simpa [Event.backend] using hAbout)
        subst ht
        have hqp : p = q := h.unique hp (hSub hq) hObject (hObjects ▸ hObject')
        exact hGone (hqp ▸ hq)
      · have hOther : ∀ e ∈ [Event.close owned, .delete owned], ¬ e.backend = b := by
          intro e he
          rcases List.mem_pair.mp he with rfl | rfl <;> exact Ne.symm hb
        rw [List.filter_eq_nil_iff.mpr (by simpa using hOther), List.append_nil] at hAbout
        refine .kept (hKept (.inl ?_)) hAbout
        rw [hObject]
        intro hEq
        cases hEq
        exact hb rfl

/-- A new iterator points to data that exists. -/
theorem append_spec (h : WellFormed s) {p : Nat} (hp : some p ∈ s.heap.pointers)
    (ht : t = { s with heap := ⟨s.heap.objects, s.heap.pointers ++ [some p]⟩ }) :
    WellFormed t ∧ ∀ b, Fate s t b := by
  have hMem : ∀ {q}, some q ∈ s.heap.pointers ++ [some p] ↔ some q ∈ s.heap.pointers := fun {q} => by
    refine ⟨fun hq => ?_, List.mem_append_left _⟩
    rcases List.mem_append.mp hq with hq | hq
    · exact hq
    · exact List.mem_singleton.mp hq ▸ hp
  have hRefers : ∀ b, t.Refers b ↔ s.Refers b := fun b => by
    subst ht
    exact exists_congr fun q => and_congr_left' hMem
  subst ht
  exact ⟨⟨fun q hq => h.heap q (hMem.mp hq), fun hq hr => h.unique (hMem.mp hq) (hMem.mp hr),
    fun hb => h.bounded ((hRefers _).mp hb), h.logged⟩, fun b => .kept (hRefers b) rfl⟩

/-- A new iterator with data of its own. -/
theorem create_spec (h : WellFormed s) (ht : t = { s with
      heap := ⟨s.heap.objects ++ [Private.new], s.heap.pointers ++ [some s.heap.objects.length]⟩ }) :
    WellFormed t ∧ ∀ b, Fate s t b := by
  have hOld {q : Nat} {d : Private} (hq : some q ∈ t.heap.pointers) (hObject : t.heap.objects[q]? = some d)
      (hd : d ≠ ⟨none⟩) : some q ∈ s.heap.pointers ∧ s.heap.objects[q]? = some d := by
    subst ht
    rcases List.mem_append.mp hq with hq | hq
    · rw [List.getElem?_append_left (h.heap q hq)] at hObject
      exact ⟨hq, hObject⟩
    · cases List.mem_singleton.mp hq
      rw [List.getElem?_concat_length] at hObject
      exact absurd (Option.some.inj hObject).symm hd
  have hRefers : ∀ b, t.Refers b ↔ s.Refers b := fun b => by
    refine ⟨fun ⟨q, hq, hObject⟩ => ⟨q, hOld hq hObject nofun⟩, fun ⟨q, hq, hObject⟩ => ?_⟩
    subst ht
    exact ⟨q, List.mem_append_left _ hq, (List.getElem?_append_left (h.heap q hq)).trans hObject⟩
  refine ⟨⟨fun q hq => ?_, fun hq hr hObject hObject' => ?_, fun hb => ?_, ?_⟩, fun b => .kept (hRefers b) ?_⟩
  · subst ht
    rw [List.length_append, List.length_singleton]
    rcases List.mem_append.mp hq with hq | hq
    · have := h.heap q hq
      omega
    · cases List.mem_singleton.mp hq
      omega
  · obtain ⟨hq, hObject⟩ := hOld hq hObject nofun
    obtain ⟨hr, hObject'⟩ := hOld hr hObject' nofun
    exact h.unique hq hr hObject hObject'
  · have := h.bounded ((hRefers _).mp hb)
    subst ht
    exact this
  · subst ht
    exact h.logged
  · subst ht
    rfl

theorem perform_spec (h : WellFormed s) {c : Command Nat} (hChange : ∀ target b, c ≠ .change target b)
    (hPerform : s.perform c = some t) : WellFormed t ∧ t.backends = s.backends ∧ ∀ b, Fate s t b := by
  simp only [State.perform, Option.bind_eq_bind, Option.bind_eq_some_iff, Option.some.injEq] at hPerform
  obtain ⟨heap, hHeap, rfl⟩ := hPerform
  suffices hSpec : _ ∧ ∀ b, Fate s _ b from ⟨hSpec.1, rfl, hSpec.2⟩
  cases c with
  | create =>
    cases hHeap
    exact create_spec h (by simp [Command.target])
  | copy source =>
    simp only [Heap.perform, Option.bind_eq_bind, Option.bind_eq_some_iff, Option.some.injEq] at hHeap
    obtain ⟨p, hSource, rfl⟩ := hHeap
    exact append_spec h (Heap.mem_of_join hSource).2 (by simp [Command.target])
  | assign target source =>
    simp only [Heap.perform, Option.bind_eq_bind, Option.bind_eq_some_iff, Option.some.injEq] at hHeap
    obtain ⟨p, hSource, old, hTarget, rfl⟩ := hHeap
    refine set_spec h hTarget (x := some p) (fun q hq => ?_) rfl (by simp [Command.target, hTarget])
    cases hq
    exact (Heap.mem_of_join hSource).2
  | destroy target =>
    simp only [Heap.perform, Option.bind_eq_bind, Option.bind_eq_some_iff, Option.some.injEq] at hHeap
    obtain ⟨old, hTarget, rfl⟩ := hHeap
    exact set_spec h hTarget (x := none) (by intros; contradiction) rfl (by simp [Command.target, hTarget])
  | change target b => exact absurd rfl (hChange target b)

theorem Private.setBackend_eq (b : Nat) (d : Private) : d.setBackend b = some ⟨some b⟩ := by
  unfold Private.setBackend
  split
  · rfl
  · next hSame => exact congrArg some (congrArg Private.mk (not_not.mp hSame))

/-- No other iterator has the data of this one, and so nothing else refers to its backend. -/
def Loses (s : State) (target b : Nat) : Prop :=
  ∃ p, s.heap.pointers[target]?.join = some p ∧ s.heap.pointers.count (some p) = 1 ∧
    s.heap.objects[p]? = some ⟨some b⟩

theorem Loses.refers {target b : Nat} (h : Loses s target b) : s.Refers b :=
  ⟨h.choose, (Heap.mem_of_join h.choose_spec.1).2, h.choose_spec.2.2⟩

theorem safe_iff (h : WellFormed s) (target : Nat) :
    (Action.setBackend target).Safe s ↔ ∀ b, ¬ Loses s target b := by
  refine ⟨fun hSafe b ⟨p, hTarget, hOnly, hObject⟩ => ?_, fun hNot p hTarget => ?_⟩
  · rcases hSafe p hTarget with hShared | hNone
    · exact hShared hOnly
    · rw [hObject] at hNone
      cases hNone
  · obtain ⟨⟨_ | b⟩, hObject⟩ : ∃ d, s.heap.objects[p]? = some d :=
      ⟨_, List.getElem?_eq_getElem (h.heap p (Heap.mem_of_join hTarget).2)⟩
    · exact .inr hObject
    · exact .inl fun hOnly => hNot b ⟨p, hTarget, hOnly, hObject⟩

/-- The backend of the data that an iterator points to is replaced. -/
theorem replace_spec (h : WellFormed s) {target p : Nat} {d : Private}
    (hTarget : s.heap.pointers[target]?.join = some p) (hObject : s.heap.objects[p]? = some d)
    (ht : t = { s with
      heap := ⟨s.heap.objects.set p ⟨some s.backends⟩, s.heap.pointers⟩, backends := s.backends + 1 }) :
    WellFormed t ∧ t.Refers s.backends ∧
      ∀ b < s.backends, (t.Refers b ↔ s.Refers b ∧ d ≠ ⟨some b⟩) := by
  have hp : some p ∈ s.heap.pointers := (Heap.mem_of_join hTarget).2
  have hSelf : t.heap.objects[p]? = some ⟨some s.backends⟩ := by
    rw [ht]
    exact List.getElem?_set_self (h.heap p hp)
  have hOther {q : Nat} (hq : q ≠ p) : t.heap.objects[q]? = s.heap.objects[q]? := by
    rw [ht]
    exact List.getElem?_set_ne (Ne.symm hq)
  have hPointers : t.heap.pointers = s.heap.pointers := ht ▸ rfl
  have hNew {b : Nat} (hb : b < s.backends) : t.heap.objects[p]? ≠ some ⟨some b⟩ := by
    rw [hSelf]
    intro hEq
    cases hEq
    exact Nat.lt_irrefl _ hb
  have hRefers : t.Refers s.backends := ⟨p, hPointers ▸ hp, hSelf⟩
  refine ⟨⟨fun q hq => ?_, fun {q r b} hq hr hb hb' => ?_, fun {b} ⟨q, hq, hb⟩ => ?_, fun e he => ?_⟩,
    hRefers, fun b hb => ⟨fun ⟨q, hq, hq'⟩ => ?_, fun ⟨⟨q, hq, hq'⟩, hd⟩ => ?_⟩⟩
  · subst ht
    rw [List.length_set]
    exact h.heap q hq
  · rw [hPointers] at hq hr
    have hBounded {q : Nat} (hq : some q ∈ s.heap.pointers) (hqp : q ≠ p)
        (hb : t.heap.objects[q]? = some ⟨some b⟩) : b < s.backends :=
      h.bounded ⟨q, hq, (hOther hqp).symm.trans hb⟩
    by_cases hqp : q = p <;> by_cases hrp : r = p
    · exact hqp.trans hrp.symm
    · exact absurd (hqp ▸ hb) (hNew (hBounded hr hrp hb'))
    · exact absurd (hrp ▸ hb') (hNew (hBounded hq hqp hb))
    · exact h.unique hq hr ((hOther hqp).symm.trans hb) ((hOther hrp).symm.trans hb')
  · rw [hPointers] at hq
    have hBackends : t.backends = s.backends + 1 := ht ▸ rfl
    rw [hBackends]
    by_cases hqp : q = p
    · rw [hqp, hSelf] at hb
      cases hb
      exact Nat.lt_succ_self _
    · exact Nat.lt_succ_of_lt (h.bounded ⟨q, hq, (hOther hqp).symm.trans hb⟩)
  · subst ht
    exact Nat.lt_succ_of_lt (h.logged e he)
  · have hqp : q ≠ p := fun hqp => hNew hb (hqp ▸ hq')
    have hOld : s.heap.objects[q]? = some ⟨some b⟩ := (hOther hqp).symm.trans hq'
    refine ⟨⟨q, hPointers ▸ hq, hOld⟩, fun hd => ?_⟩
    exact hqp (h.unique (hPointers ▸ hq) hp hOld (hd ▸ hObject))
  · have hqp : q ≠ p := fun hqp => hd (Option.some.inj (hObject.symm.trans (hqp ▸ hq')))
    exact ⟨q, hPointers ▸ hq, (hOther hqp).trans hq'⟩

/-- The data of the iterator is shared, and the iterator gets data of its own. -/
theorem detach_spec (h : WellFormed s) {target p : Nat}
    (hTarget : s.heap.pointers[target]?.join = some p)
    (hStill : some p ∈ s.heap.pointers.set target (some s.heap.objects.length))
    (ht : t = { s with
      heap := ⟨s.heap.objects ++ [⟨some s.backends⟩],
        s.heap.pointers.set target (some s.heap.objects.length)⟩
      backends := s.backends + 1 }) :
    WellFormed t ∧ t.Refers s.backends ∧ ∀ b < s.backends, (t.Refers b ↔ s.Refers b) := by
  have hHandle : target < s.heap.pointers.length :=
    (List.getElem?_eq_some_iff.mp (Heap.mem_of_join hTarget).1).1
  have hSelf : t.heap.objects[s.heap.objects.length]? = some ⟨some s.backends⟩ := by
    rw [ht]
    exact List.getElem?_concat_length
  have hOther {q : Nat} (hq : some q ∈ s.heap.pointers) : t.heap.objects[q]? = s.heap.objects[q]? := by
    rw [ht]
    exact List.getElem?_append_left (h.heap q hq)
  have hOld {q : Nat} (hq : some q ∈ t.heap.pointers) (hNe : q ≠ s.heap.objects.length) :
      some q ∈ s.heap.pointers := by
    rw [ht] at hq
    rcases List.mem_or_eq_of_mem_set hq with hq | hq
    · exact hq
    · exact absurd (Option.some.inj hq) hNe
  have hKept {q : Nat} (hq : some q ∈ s.heap.pointers) : some q ∈ t.heap.pointers := by
    rw [ht]
    by_cases hqp : q = p
    · exact hqp ▸ hStill
    · exact mem_set_of_ne hTarget hqp hq
  have hBounded {q b : Nat} (hq : some q ∈ t.heap.pointers) (hNe : q ≠ s.heap.objects.length)
      (hb : t.heap.objects[q]? = some ⟨some b⟩) : b < s.backends :=
    h.bounded ⟨q, hOld hq hNe, (hOther (hOld hq hNe)).symm.trans hb⟩
  have hFresh {q b : Nat} (hb : t.heap.objects[q]? = some ⟨some b⟩) (hNew : q = s.heap.objects.length) :
      b = s.backends := by
    rw [hNew, hSelf] at hb
    cases hb
    rfl
  refine ⟨⟨fun q hq => ?_, fun {q r b} hq hr hb hb' => ?_, fun {b} ⟨q, hq, hb⟩ => ?_, fun e he => ?_⟩,
    ⟨_, ?_, hSelf⟩, fun b hb => ⟨fun ⟨q, hq, hq'⟩ => ?_, fun ⟨q, hq, hq'⟩ => ?_⟩⟩
  · subst ht
    rw [List.length_append, List.length_singleton]
    by_cases hNe : q = s.heap.objects.length
    · omega
    · have := h.heap q (hOld hq hNe)
      omega
  · by_cases hqn : q = s.heap.objects.length <;> by_cases hrn : r = s.heap.objects.length
    · exact hqn.trans hrn.symm
    · exact absurd (hFresh hb hqn) (Nat.ne_of_lt (hBounded hr hrn hb'))
    · exact absurd (hFresh hb' hrn) (Nat.ne_of_lt (hBounded hq hqn hb))
    · exact h.unique (hOld hq hqn) (hOld hr hrn) ((hOther (hOld hq hqn)).symm.trans hb)
        ((hOther (hOld hr hrn)).symm.trans hb')
  · have hBackends : t.backends = s.backends + 1 := ht ▸ rfl
    rw [hBackends]
    by_cases hqn : q = s.heap.objects.length
    · rw [hFresh hb hqn]
      exact Nat.lt_succ_self _
    · exact Nat.lt_succ_of_lt (hBounded hq hqn hb)
  · subst ht
    exact Nat.lt_succ_of_lt (h.logged e he)
  · rw [ht]
    exact List.mem_set hHandle _
  · have hqn : q ≠ s.heap.objects.length := fun hqn => Nat.ne_of_lt hb (hFresh hq' hqn)
    exact ⟨q, hOld hq hqn, (hOther (hOld hq hqn)).symm.trans hq'⟩
  · exact ⟨q, hKept hq, (hOther hq).trans hq'⟩

/-- `setBackend` with a new backend: the one that the iterator referred to is lost, unless another one refers
to it too. -/
theorem install_spec (h : WellFormed s) {target : Nat} (hInstall : s.install target = some t) :
    WellFormed t ∧ t.backends = s.backends + 1 ∧ t.log = s.log ∧ t.Refers s.backends ∧
      ∀ b < s.backends, (t.Refers b ↔ s.Refers b ∧ ¬ Loses s target b) := by
  simp only [State.install, State.perform, Option.bind_eq_bind, Option.bind_eq_some_iff,
    Option.some.injEq] at hInstall
  obtain ⟨u, ⟨heap, hHeap, rfl⟩, rfl⟩ := hInstall
  simp only [Heap.perform, Heap.detach, Option.bind_eq_bind, Option.bind_eq_some_iff, Option.some.injEq,
    Prod.exists, Private.setBackend_eq] at hHeap
  obtain ⟨detached, q, ⟨p, hTarget, a, hObject, hDetach⟩, d, hd, _, rfl, rfl⟩ := hHeap
  have hp : some p ∈ s.heap.pointers := (Heap.mem_of_join hTarget).2
  simp only [Command.target, Option.bind_some, hTarget, Option.map_some, Option.getD_some]
  by_cases hOnly : s.heap.pointers.count (some p) = 1
  · rw [if_pos hOnly] at hDetach
    cases hDetach
    have hEvents : deref ⟨s.heap.objects.set q ⟨some s.backends⟩, s.heap.pointers⟩ q = [] := if_pos hp
    obtain ⟨hWellFormed, hRefers, hRest⟩ := replace_spec h hTarget hObject rfl
    rw [hEvents, List.append_nil]
    refine ⟨hWellFormed, trivial, rfl, hRefers, fun b hb => (hRest b hb).trans (and_congr_right' ?_)⟩
    refine not_congr ⟨fun hEq => ⟨q, hTarget, hOnly, hEq ▸ hObject⟩, fun hLoses => ?_⟩
    obtain ⟨r, hr, -, hb⟩ := hLoses
    cases hTarget.symm.trans hr
    exact Option.some.inj (hObject.symm.trans hb)
  · rw [if_neg hOnly] at hDetach
    cases hDetach
    obtain ⟨hHandle, hAt⟩ := List.getElem?_eq_some_iff.mp (Heap.mem_of_join hTarget).1
    have hStill : some p ∈ s.heap.pointers.set target (some s.heap.objects.length) := by
      rw [← List.count_pos_iff, List.count_set hHandle, hAt, beq_self_eq_true, if_pos rfl]
      have := List.count_pos_iff.mpr hp
      omega
    have hEvents : deref ⟨s.heap.objects ++ [⟨some s.backends⟩],
        s.heap.pointers.set target (some s.heap.objects.length)⟩ p = [] := if_pos hStill
    obtain ⟨hWellFormed, hRefers, hRest⟩ := detach_spec h hTarget hStill rfl
    simp only [List.set_append_right _ _ (Nat.le_refl _), Nat.sub_self, List.set_cons_zero, hEvents,
      List.append_nil]
    refine ⟨hWellFormed, trivial, trivial, hRefers, fun b hb => (hRest b hb).trans ?_⟩
    refine (and_iff_left fun hLoses => ?_).symm
    obtain ⟨r, hr, hCount, -⟩ := hLoses
    cases hTarget.symm.trans hr
    exact hOnly hCount

theorem LostAt.not_owned {b : Nat} (h : s.LostAt b) : ¬ s.Owned := by
  intro hOwned
  rcases hOwned b h.1 with ⟨hRefers, -⟩ | ⟨-, hAbout⟩
  · exact h.2.1 hRefers
  · rw [h.2.2] at hAbout
    cases hAbout

theorem Fate.owned {b : Nat} (h : Fate s t b) (hOwned : s.OwnedAt b) : t.OwnedAt b := by
  cases h with
  | kept refers about =>
    rw [State.OwnedAt, refers, about]
    exact hOwned
  | released before after about =>
    rcases hOwned with ⟨-, hNone⟩ | ⟨hNot, -⟩
    · exact .inr ⟨after, by rw [about, hNone, List.nil_append]⟩
    · exact absurd before hNot

theorem Fate.lost {b : Nat} (h : Fate s t b) (hBackends : s.backends ≤ t.backends) (hLost : s.LostAt b) :
    t.LostAt b := by
  obtain ⟨hBounded, hNot, hNone⟩ := hLost
  cases h with
  | kept refers about =>
    exact ⟨Nat.lt_of_lt_of_le hBounded hBackends, refers.not.mpr hNot, about.trans hNone⟩
  | released before after about => exact absurd before hNot

/-- No event is about a backend that does not exist yet. -/
theorem about_of_le (h : WellFormed s) {b : Nat} (hb : s.backends ≤ b) : s.about b = [] := by
  refine List.filter_eq_nil_iff.mpr fun e he hEq => ?_
  have := h.logged e he
  have : e.backend = b := of_decide_eq_true hEq
  omega

/-- What a step does to the backends: it keeps them owned, or loses one for good. -/
structure Spec (s : State) (a : Action) (t : State) : Prop where
  wellFormed : WellFormed t
  owned : a.Safe s → s.Owned → t.Owned
  lasting : ∀ {b}, s.LostAt b → t.LostAt b
  lost : ¬ a.Safe s → s.Owned → ∃ b, t.LostAt b

variable {a : Action}

theorem spec_of_perform (h : WellFormed s) {c : Command Nat}
    (hChange : ∀ target b, c ≠ .change target b) (hPerform : s.perform c = some t) (hSafe : a.Safe s) :
    Spec s a t := by
  obtain ⟨hWellFormed, hBackends, hFate⟩ := perform_spec h hChange hPerform
  exact
    { wellFormed := hWellFormed
      owned := fun _ hOwned b hb => (hFate b).owned (hOwned b (hBackends ▸ hb))
      lasting := fun {b} => (hFate b).lost (Nat.le_of_eq hBackends.symm)
      lost := fun hNot => absurd hSafe hNot }

/-- A new backend is installed, where nothing has happened to the others. -/
theorem spec_of_install {u : State} (h : WellFormed u) {target : Nat} (hInstall : u.install target = some t)
    (hBackends : u.backends = s.backends) (hFate : ∀ b, Fate s u b)
    (hSafe : a.Safe s ↔ ∀ b, ¬ Loses u target b) : Spec s a t := by
  obtain ⟨hWellFormed, hNext, hLog, hRefers, hRest⟩ := install_spec h hInstall
  have hAbout (b : Nat) : t.about b = u.about b := by rw [State.about, State.about, hLog]
  have hKept {b : Nat} (hb : b < s.backends) (hNot : ¬ Loses u target b) : Fate s t b := by
    have hSame : t.Refers b ↔ u.Refers b := (hRest b (hBackends ▸ hb)).trans (and_iff_left hNot)
    cases hFate b with
    | kept refers about => exact .kept (hSame.trans refers) ((hAbout b).trans about)
    | released before after about =>
      exact .released before (hSame.not.mpr after) ((hAbout b).trans about)
  refine ⟨hWellFormed, fun hAll hOwned b hb => ?_, fun {b} hLost => ?_, fun hNot hOwned => ?_⟩
  · rcases Nat.lt_succ_iff_lt_or_eq.mp (hNext ▸ hb) with hb | rfl
    · exact (hKept (hBackends ▸ hb) (hSafe.mp hAll b)).owned (hOwned b (hBackends ▸ hb))
    · exact .inl ⟨hRefers, (hAbout _).trans (about_of_le h (Nat.le_refl _))⟩
  · refine (hKept hLost.1 fun hLoses => ?_).lost (by omega) hLost
    have hLater : u.LostAt b := (hFate b).lost (Nat.le_of_eq hBackends.symm) hLost
    exact hLater.2.1 hLoses.refers
  · obtain ⟨b, hLoses⟩ := not_forall_not.mp (hSafe.not.mp hNot)
    have hb : b < u.backends := h.bounded hLoses.refers
    rcases (hFate b).owned (hOwned b (hBackends ▸ hb)) with ⟨-, hNone⟩ | ⟨hGone, -⟩
    · exact ⟨b, by omega, fun hStill => ((hRest b hb).mp hStill).2 hLoses, (hAbout b).trans hNone⟩
    · exact absurd hLoses.refers hGone

theorem spec_step (h : WellFormed s) (hStep : step s a = some t) : Spec s a t := by
  cases a with
  | construct => exact spec_of_perform h (c := .create) nofun hStep trivial
  | copy source => exact spec_of_perform h (c := .copy source) nofun hStep trivial
  | assign target source => exact spec_of_perform h (c := .assign target source) nofun hStep trivial
  | destroy target => exact spec_of_perform h (c := .destroy target) nofun hStep trivial
  | setBackend target =>
    exact spec_of_install h hStep rfl (fun b => .kept .rfl rfl) (safe_iff h target)
  | constructWith =>
    simp only [step, Option.bind_eq_bind, Option.bind_eq_some_iff] at hStep
    obtain ⟨u, hCreate, hInstall⟩ := hStep
    obtain ⟨hWellFormed, hBackends, hFate⟩ := perform_spec h (c := .create) nofun hCreate
    refine spec_of_install hWellFormed hInstall hBackends hFate (iff_of_true trivial ?_)
    rintro b ⟨p, hTarget, -, hObject⟩
    cases hCreate
    simp only [List.getElem?_concat_length, Option.join_some, Option.some.injEq] at hTarget
    subst hTarget
    rw [List.getElem?_concat_length] at hObject
    cases hObject

/-- Every backend is closed and deleted exactly once, when the last iterator that refers to it lets go of it,
if and only if no backend is set in data that has one and that only this iterator has. -/
theorem owned_iff (actions : List Action) (hRun : run step init actions = some s) :
    s.Owned ↔ AllMeet step (fun s a => a.Safe s) init actions := by
  suffices hAll : ∀ {s₀}, WellFormed s₀ → run step s₀ actions = some s →
      (s₀.Owned → (s.Owned ↔ AllMeet step (fun s a => a.Safe s) s₀ actions)) ∧
      ((∃ b, s₀.LostAt b) → ¬ s.Owned) from
    (hAll wellFormed_init hRun).1 fun b hb => absurd hb (Nat.not_lt_zero b)
  clear hRun
  induction actions with
  | nil =>
    intro s₀ h hRun
    cases hRun
    exact ⟨fun hOwned => iff_of_true hOwned trivial, fun ⟨b, hLost⟩ => LostAt.not_owned hLost⟩
  | cons a actions ih =>
    intro s₀ h hRun
    obtain ⟨t, hStep, hRest⟩ := run_cons hRun
    have hSpec := spec_step h hStep
    obtain ⟨hOwned, hLost⟩ := ih hSpec.wellFormed hRest
    refine ⟨fun hStart => ?_, fun ⟨b, hb⟩ => hLost ⟨b, hSpec.lasting hb⟩⟩
    by_cases hSafe : a.Safe s₀
    · exact (hOwned (hSpec.owned hSafe hStart)).trans
        ⟨fun hMeets => .cons hSafe hStep hMeets, fun hMeets => hMeets.2 t hStep⟩
    · exact iff_of_false (hLost (hSpec.lost hSafe hStart)) fun hMeets => hSafe hMeets.1

/-- A list is assigned to one of two copies, and both are destroyed. -/
theorem owned_iff_example :
    ∃ s, run step init [.constructWith, .copy 0, .setBackend 1, .assign 0 1, .destroy 0, .destroy 1] = some s ∧
      s.log = [.close 0, .delete 0, .close 1, .delete 1] ∧ s.Owned :=
  ⟨_, rfl, rfl, (owned_iff [.constructWith, .copy 0, .setBackend 1, .assign 0 1, .destroy 0, .destroy 1]
    rfl).mpr (by decide)⟩

/-- A list is assigned to an iterator that nothing shares: the backend that it had is never deleted. -/
theorem not_owned : ¬ ∀ actions s, run step init actions = some s → s.Owned := by
  intro h
  rcases h [.constructWith, .setBackend 0, .destroy 0] _ rfl 0 (by decide) with ⟨⟨p, hp, -⟩, -⟩ | ⟨-, hAbout⟩
  · cases List.mem_singleton.mp hp
  · exact absurd hAbout (by decide)

end Soprano.Iterator
