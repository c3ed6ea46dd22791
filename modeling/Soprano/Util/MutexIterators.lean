import Soprano.Util.MutexModel

/-! The locks of a `MutexModel` and the iterators that keep them: each read lock is given back once. -/

namespace Soprano.Util.MutexModel

open ExtReadWriteLock (Wakes)

variable {τ : Type} [Fintype τ] [DecidableEq τ]

/-! ### The invariant -/

/-- The read lock that a thread has for the operation that it is in. -/
def reading : Option (Operation × Bool) → Nat
  | some (op, true) => if op.isWrite then 0 else 1
  | _ => 0

/-- The read locks that a thread has: for the operation that it is in, and for its open iterators. -/
def State.held (s : State τ) (t : τ) : Nat :=
  reading (s.calls t) + s.d.openIterators.countP fun p => (s.privates p).any (·.opener = t)

def State.Writing (s : State τ) (t : τ) : Prop := ∃ op, s.calls t = some (op, true) ∧ op.isWrite = true

/-- The open iterators are those that can still remove themselves, and each iterator that is not one of
them was removed once. -/
structure Booked (s : State τ) : Prop where
  fresh : ∀ p, s.created ≤ p → s.privates p = none ∧ some p ∉ s.iterators ∧ (p, false) ∉ s.released
  nodup : s.d.openIterators.Nodup
  opened : ∀ p ∈ s.d.openIterators, ∃ it, s.privates p = some it ∧ it.m_model = true
  live : ∀ p it, s.privates p = some it → it.m_model = true →
    s.gone = false ∧ p ∈ s.d.openIterators ∧ it.closed = false ∧ (p, false) ∉ s.released
  dead : ∀ p it, s.privates p = some it → it.m_model = false → s.gone = false →
    it.closed = true ∧ (p, false) ∈ s.released
  once : s.released.Nodup
  there : ∀ x ∈ s.released, x.2 = false

structure Invariant (s : State τ) : Prop where
  booked : Booked s
  lock : s.gone = false → ∃ writer, (∀ t, writer = some t ↔ s.Writing t) ∧ Holds s.d s.held writer
  settled : s.gone = false → ∀ t, (∀ op, s.calls t ≠ some (op, false)) → Settled s.d t
  idle : s.gone = true → ∀ t, s.calls t = none
  asserted : s.asserted = true

/-- Data that no handle points to is closed. -/
def Closed (s : State τ) : Prop :=
  ∀ p it, s.privates p = some it → some p ∉ s.iterators → it.closed = true

/-- What the end of the iterator with the data `p` leaves as it is. -/
structure Ended (p : Nat) (s s' : State τ) : Prop where
  iterators : s'.iterators = s.iterators
  gone : s'.gone = s.gone
  privates : ∀ q, q ≠ p → s'.privates q = s.privates q
  closed : ∀ it, s'.privates p = some it → it.closed = true
  released : s.gone = true → s'.released = s.released

variable {s s' : State τ} {t : τ} {woken : Option τ} {p : Nat}

omit [Fintype τ] in
/-- Where no thread holds a read lock, there is no open iterator. -/
theorem Booked.openIterators_eq_nil (h : Booked s) (hNone : ∀ u, s.held u = 0) :
    s.d.openIterators = [] := by
  rw [List.eq_nil_iff_forall_not_mem]
  intro p hp
  obtain ⟨it, hIt, -⟩ := h.opened p hp
  have hHeld := hNone it.opener
  rw [State.held, Nat.add_eq_zero_iff, List.countP_eq_zero] at hHeld
  exact hHeld.2 p hp (by simp [hIt])

/-! ### The end of an iterator -/

/-- What `close` does to an iterator that is open. -/
def removed (s : State τ) (t : τ) (woken : Option τ) (p : Nat) (it : MutexIteratorBase τ) : State τ :=
  { s with
    d := { s.d with openIterators := s.d.openIterators.filter (· != p) }.unlock t woken
    privates := Function.update s.privates p (some { it with closed := true, m_model := false })
    released := s.released ++ [(p, s.gone)]
    asserted := s.asserted && s.d.openIterators.contains p }

theorem close_eq (h : s.close t woken p = some s') :
    s.privates p = none ∧ s' = s ∨
    ∃ it, s.privates p = some it ∧
      (it.m_model = true ∧ it.opener = t ∧ Wakes s.d.m_msLock woken ∧ s' = removed s t woken p it ∨
        it.m_model = false ∧
          s' = { s with privates := Function.update s.privates p (some { it with closed := true }) }) := by
  unfold State.close at h
  split at h
  · rename_i it hIt
    refine .inr ⟨it, hIt, ?_⟩
    simp only [State.remove, Function.update_self] at h
    split at h
    · rename_i hModel
      simp only [Option.ite_none_right_eq_some, Option.some.injEq] at h
      obtain ⟨⟨hOpener, hWakes⟩, rfl⟩ := h
      refine .inl ⟨hModel, hOpener, hWakes, ?_⟩
      simp only [State.removeIterator, removed, Function.update_idem]
    · rename_i hModel
      cases h
      exact .inr ⟨Bool.eq_false_iff.mpr hModel, rfl⟩
  · rename_i hNone
    cases h
    exact .inl ⟨hNone, rfl⟩

/-- The destructor of the backend finds nothing left to do behind `close`. -/
theorem destruct_eq : s.destruct t woken p = s.close t woken p := by
  unfold State.destruct
  cases hClose : s.close t woken p with
  | none => rfl
  | some s' =>
    rw [Option.bind_some]
    rcases close_eq hClose with ⟨hNone, rfl⟩ | ⟨it, hIt, ⟨-, -, -, rfl⟩ | ⟨hModel, rfl⟩⟩
    · simp only [State.remove, hNone]
    · simp only [State.remove, removed, Function.update_self, Bool.false_eq_true, if_false]
    · simp only [State.remove, Function.update_self, hModel, Bool.false_eq_true, if_false]

omit [Fintype τ] in
theorem unlock_openIterators (d : Private τ) : (d.unlock t woken).openIterators = d.openIterators := by
  rw [Private.unlock]
  cases d.m_protectionMode <;> rfl

omit [Fintype τ] in
/-- The entry of an iterator in `privates` may change, where its thread stays. -/
theorem any_opener_update {privates : Nat → Option (MutexIteratorBase τ)} {it : MutexIteratorBase τ}
    (hIt : privates p = some it) (m_model closed : Bool) (u : τ) (q : Nat) :
    (Function.update privates p (some ⟨m_model, closed, it.opener⟩) q).any (·.opener = u) =
      (privates q).any (·.opener = u) := by
  by_cases hq : q = p
  · subst hq
    rw [Function.update_self, hIt]
    rfl
  · rw [Function.update_of_ne hq]

omit [Fintype τ] [DecidableEq τ] in
theorem Booked.closed_again {it : MutexIteratorBase τ} (h : Booked s) (hIt : s.privates p = some it)
    (hModel : it.m_model = false) :
    Booked { s with privates := Function.update s.privates p (some { it with closed := true }) } := by
  have hOld : ∀ q it', Function.update s.privates p (some { it with closed := true }) q = some it' →
      q = p ∧ it' = { it with closed := true } ∨ q ≠ p ∧ s.privates q = some it' := by
    intro q it' hq
    by_cases hEq : q = p
    · subst hEq
      rw [Function.update_self] at hq
      exact .inl ⟨rfl, (Option.some.inj hq).symm⟩
    · rw [Function.update_of_ne hEq] at hq
      exact .inr ⟨hEq, hq⟩
  refine ⟨fun q hq => ?_, h.nodup, fun q hq => ?_, fun q it' hq hLive => ?_, fun q it' hq hDead => ?_, h.once,
    h.there⟩
  · have hFresh := h.fresh q hq
    have hNe : q ≠ p := by
      rintro rfl
      rw [hIt] at hFresh
      cases hFresh.1
    exact ⟨(Function.update_of_ne hNe _ _).trans hFresh.1, hFresh.2⟩
  · obtain ⟨it', hIt', hLive⟩ := h.opened q hq
    have hNe : q ≠ p := by
      rintro rfl
      rw [hIt] at hIt'
      cases hIt'
      rw [hModel] at hLive
      cases hLive
    exact ⟨it', (Function.update_of_ne hNe _ _).trans hIt', hLive⟩
  · rcases hOld q it' hq with ⟨-, rfl⟩ | ⟨-, hq⟩
    · rw [hModel] at hLive
      cases hLive
    · exact h.live q it' hq hLive
  · rcases hOld q it' hq with ⟨rfl, rfl⟩ | ⟨-, hq⟩
    · exact fun hGone => ⟨rfl, (h.dead q it hIt hModel hGone).2⟩
    · exact h.dead q it' hq hDead

omit [Fintype τ] in
theorem Booked.removed {it : MutexIteratorBase τ} (h : Booked s) (hIt : s.privates p = some it)
    (hModel : it.m_model = true) : Booked (removed s t woken p it) := by
  obtain ⟨hHere, hOpen, -, hUnreleased⟩ := h.live p it hIt hModel
  have hNew : (MutexModel.removed s t woken p it).d.openIterators =
      s.d.openIterators.filter (· != p) := unlock_openIterators _
  have hMem : ∀ q, q ∈ (MutexModel.removed s t woken p it).d.openIterators ↔
      q ∈ s.d.openIterators ∧ q ≠ p := by
    intro q
    rw [hNew, List.mem_filter, bne_iff_ne]
  have hReleased : (MutexModel.removed s t woken p it).released = s.released ++ [(p, false)] := by
    rw [← hHere]
    rfl
  have hSelf : (MutexModel.removed s t woken p it).privates p =
      some { it with closed := true, m_model := false } := Function.update_self _ _ _
  have hOther : ∀ q, q ≠ p → (MutexModel.removed s t woken p it).privates q = s.privates q :=
    fun q hq => Function.update_of_ne hq _ _
  refine ⟨fun q hq => ?_, ?_, fun q hq => ?_, fun q it' hq hLive => ?_, fun q it' hq hDead hGone => ?_,
    ?_, ?_⟩
  · have hFresh := h.fresh q hq
    have hNe : q ≠ p := by
      rintro rfl
      rw [hIt] at hFresh
      cases hFresh.1
    refine ⟨(hOther q hNe).trans hFresh.1, hFresh.2.1, ?_⟩
    rw [hReleased, List.mem_append, List.mem_singleton, Prod.mk.injEq]
    exact fun hIn => hIn.elim hFresh.2.2 fun hEq => hNe hEq.1
  · rw [hNew]
    exact h.nodup.filter _
  · obtain ⟨hq, hNe⟩ := (hMem q).mp hq
    obtain ⟨it', hIt', hLive⟩ := h.opened q hq
    exact ⟨it', (hOther q hNe).trans hIt', hLive⟩
  · by_cases hNe : q = p
    · subst hNe
      rw [hSelf] at hq
      cases hq
      cases hLive
    · rw [hOther q hNe] at hq
      obtain ⟨hGone, hIn, hClosed, hNot⟩ := h.live q it' hq hLive
      refine ⟨hGone, (hMem q).mpr ⟨hIn, hNe⟩, hClosed, ?_⟩
      rw [hReleased, List.mem_append, List.mem_singleton, Prod.mk.injEq]
      exact fun hAny => hAny.elim hNot fun hEq => hNe hEq.1
  · rw [hReleased, List.mem_append, List.mem_singleton]
    by_cases hNe : q = p
    · subst hNe
      rw [hSelf] at hq
      cases hq
      exact ⟨rfl, .inr rfl⟩
    · rw [hOther q hNe] at hq
      obtain ⟨hClosed, hIn⟩ := h.dead q it' hq hDead hGone
      exact ⟨hClosed, .inl hIn⟩
  · rw [hReleased, List.nodup_append]
    refine ⟨h.once, List.nodup_singleton _, fun x hx y hy => ?_⟩
    rw [List.mem_singleton] at hy
    rintro rfl
    exact hUnreleased (hy ▸ hx)
  · intro x hx
    rw [hReleased, List.mem_append, List.mem_singleton] at hx
    rcases hx with hx | rfl
    · exact h.there x hx
    · rfl

omit [Fintype τ] in
/-- The thread that ends an open iterator has one read lock less. -/
theorem held_removed {it : MutexIteratorBase τ} (woken : Option τ) (h : Booked s) (hIt : s.privates p = some it)
    (hModel : it.m_model = true) (hOpener : it.opener = t) :
    s.held t ≠ 0 ∧
      (removed s t woken p it).held = Function.update s.held t (s.held t - 1) := by
  obtain ⟨-, hOpen, -, -⟩ := h.live p it hIt hModel
  have hCount : ∀ u, (removed s t woken p it).held u + (if t = u then 1 else 0) = s.held u := by
    intro u
    have hErase := List.countP_erase (fun q => (s.privates q).any (·.opener = u)) s.d.openIterators p
    have hHere : (s.privates p).any (·.opener = u) = decide (t = u) := by simp [hIt, hOpener]
    have hSame := any_opener_update hIt false true u
    rw [State.held, State.held, removed, unlock_openIterators]
    simp only [hSame, ← h.nodup.erase_eq_filter p]
    rw [hErase, hHere]
    by_cases hu : t = u
    · have hPos : 0 < s.d.openIterators.countP fun q => (s.privates q).any (·.opener = u) :=
        List.countP_pos_iff.mpr ⟨p, hOpen, by rw [hHere, decide_eq_true hu]⟩
      rw [if_pos ⟨hOpen, decide_eq_true hu⟩, if_pos hu]
      omega
    · rw [if_neg (by simp [hu]), if_neg hu]
      omega
  have hSelf := hCount t
  rw [if_pos rfl] at hSelf
  refine ⟨by omega, funext fun u => ?_⟩
  by_cases hu : u = t
  · subst hu
    rw [Function.update_self]
    omega
  · have := hCount u
    rw [if_neg (Ne.symm hu)] at this
    rw [Function.update_of_ne hu]
    omega

theorem Invariant.close (h : Invariant s) (hFree : s.calls t = none)
    (hClose : s.close t woken p = some s') : Invariant s' ∧ Ended p s s' := by
  rcases close_eq hClose with ⟨hNone, rfl⟩ | ⟨it, hIt, ⟨hModel, hOpener, hWakes, rfl⟩ | ⟨hModel, rfl⟩⟩
  · refine ⟨h, rfl, rfl, fun _ _ => rfl, fun it hIt => ?_, fun _ => rfl⟩
    rw [hNone] at hIt
    cases hIt
  · obtain ⟨hHere, hOpen, -, -⟩ := h.booked.live p it hIt hModel
    obtain ⟨writer, hWriter, hHolds⟩ := h.lock hHere
    obtain ⟨hReading, hHeld⟩ := held_removed woken h.booked hIt hModel hOpener
    have hSettled : Settled s.d t := h.settled hHere t (by simp [hFree])
    refine ⟨⟨h.booked.removed hIt hModel, fun _ => ⟨writer, hWriter, ?_⟩, fun _ u hu => ?_, h.idle, ?_⟩, rfl, rfl,
      fun q hq => Function.update_of_ne hq _ _, fun it' hIt' => ?_, fun hGone => ?_⟩
    · rw [hHeld]
      exact Holds.unlock_read (d := { s.d with openIterators := s.d.openIterators.filter (· != p) })
        hHolds hSettled hReading
    · exact settled_unlock (d := { s.d with openIterators := s.d.openIterators.filter (· != p) })
        hWakes (h.settled hHere u hu)
    · simp only [removed, h.asserted, Bool.true_and]
      exact List.contains_iff_mem.mpr hOpen
    · simp only [removed, Function.update_self, Option.some.injEq] at hIt'
      rw [← hIt']
    · rw [hHere] at hGone
      cases hGone
  · have hHeld : State.held { s with
        privates := Function.update s.privates p (some { it with closed := true }) } = s.held := by
      funext u
      simp only [State.held, any_opener_update hIt it.m_model true u]
    refine ⟨⟨h.booked.closed_again hIt hModel, fun hHere => ?_, h.settled, h.idle, h.asserted⟩, rfl, rfl,
      fun q hq => Function.update_of_ne hq _ _, fun it' hIt' => ?_, fun _ => rfl⟩
    · rw [hHeld]
      exact h.lock hHere
    · simp only [Function.update_self, Option.some.injEq] at hIt'
      rw [← hIt']

omit [Fintype τ] [DecidableEq τ] in
/-- What was closed but for the data `p` is closed behind the end of that. -/
theorem Ended.closed_of (h : Ended p s s')
    (hClosed : ∀ q it, s.privates q = some it → some q ∉ s.iterators → q ≠ p → it.closed = true) :
    Closed s' := by
  intro q it hIt hNot
  by_cases hq : q = p
  · subst hq
    exact h.closed it hIt
  · rw [h.privates q hq] at hIt
    rw [h.iterators] at hNot
    exact hClosed q it hIt hNot hq

/-- An iterator is closed through one of its handles. -/
theorem Invariant.closeHandle (h : Invariant s) (hClosed : Closed s) (hFree : s.calls t = none)
    (hClose : s.close t woken p = some s') : Invariant s' ∧ Closed s' := by
  obtain ⟨hInvariant, hEnded⟩ := h.close hFree hClose
  exact ⟨hInvariant, hEnded.closed_of fun q it hIt hNot _ => hClosed q it hIt hNot⟩

/-- A handle was taken from the data `p`, which is closed where it was the last one. -/
theorem Invariant.deref (h : Invariant s)
    (hClosed : ∀ q it, s.privates q = some it → some q ∉ s.iterators → q ≠ p → it.closed = true)
    (hFree : s.calls t = none) (hDeref : s.deref t woken p = some s') : Invariant s' ∧ Closed s' := by
  rw [State.deref, destruct_eq] at hDeref
  by_cases hShared : some p ∈ s.iterators
  · rw [if_pos hShared] at hDeref
    cases hDeref
    refine ⟨h, fun q it hIt hNot => hClosed q it hIt hNot ?_⟩
    rintro rfl
    exact hNot hShared
  · rw [if_neg hShared] at hDeref
    obtain ⟨hInvariant, hEnded⟩ := h.close hFree hDeref
    exact ⟨hInvariant, hEnded.closed_of hClosed⟩

/-- The end of an iterator releases nothing behind the end of the model. -/
theorem Invariant.deref_gone (h : Invariant s) (hFree : s.calls t = none)
    (hDeref : s.deref t woken p = some s') (hGone : s'.gone = true) : s'.released = s.released := by
  rw [State.deref, destruct_eq] at hDeref
  split at hDeref
  · cases hDeref
    rfl
  · have hEnded := (h.close hFree hDeref).2
    exact hEnded.released (hEnded.gone ▸ hGone)

/-! ### The operations of the model -/

omit [Fintype τ] in
/-- The other threads have the same locks behind a change of `calls` for `t`. -/
theorem writing_update {s s' : State τ} {call : Option (Operation × Bool)}
    (hCalls : s'.calls = Function.update s.calls t call) {u : τ} (hu : u ≠ t) :
    s'.Writing u ↔ s.Writing u := by
  rw [State.Writing, State.Writing, hCalls, Function.update_of_ne hu]

theorem Invariant.enter (h : Invariant s) (hHere : s.gone = false) {op : Operation}
    {lock : Private τ × Bool} (hCalls : reading (s.calls t) = 0) (hNot : ¬s.Writing t)
    (hAsked : ∀ {readers writer}, Holds s.d readers writer → Asked op.isWrite t lock readers writer)
    (hFrame : Frame t s.d lock) : Invariant (s.enter t op lock) := by
  obtain ⟨writer, hWriter, hHolds⟩ := h.lock hHere
  have hOpen := hFrame.openIterators
  have hBooked : Booked (s.enter t op lock) := by
    refine ⟨h.booked.fresh, ?_, ?_, fun p it hIt hModel => ?_, h.booked.dead, h.booked.once,
      h.booked.there⟩
    · exact hOpen ▸ h.booked.nodup
    · exact hOpen ▸ h.booked.opened
    · obtain ⟨hGone, hIn, hRest⟩ := h.booked.live p it hIt hModel
      exact ⟨hGone, hOpen ▸ hIn, hRest⟩
  have hHeldOther : ∀ u, u ≠ t → (s.enter t op lock).held u = s.held u := by
    intro u hu
    simp only [State.held, State.enter, Function.update_of_ne hu, hOpen]
  have hHeldSelf : (s.enter t op lock).held t = reading (some (op, lock.2)) + s.held t := by
    simp only [State.held, State.enter, Function.update_self, hOpen, hCalls, Nat.zero_add]
  have hOther : ∀ u, u ≠ t → ((s.enter t op lock).Writing u ↔ s.Writing u) :=
    fun u hu => writing_update rfl hu
  have hAsked := hAsked hHolds
  have hSettled : ∀ u, (∀ op', (s.enter t op lock).calls u ≠ some (op', false)) →
      Settled (s.enter t op lock).d u := by
    intro u hu
    by_cases hEq : u = t
    · subst hEq
      refine hFrame.back ?_
      have hBack := hu op
      simpa only [State.enter, Function.update_self, ne_eq, Option.some.injEq, Prod.mk.injEq,
        true_and, Bool.not_eq_false] using hBack
    · refine hFrame.settled u hEq (h.settled hHere u fun op' hCall => hu op' ?_)
      exact (Function.update_of_ne hEq _ _).trans hCall
  have hIdle : (s.enter t op lock).gone = true → ∀ u, (s.enter t op lock).calls u = none := by
    intro hGone
    rw [State.enter, hHere] at hGone
    cases hGone
  cases hBack : lock.2 with
  | false =>
    have hHeld : (s.enter t op lock).held = s.held := by
      funext u
      by_cases hEq : u = t
      · subst hEq
        rw [hHeldSelf, hBack]
        exact Nat.zero_add _
      · exact hHeldOther u hEq
    have hSelf : ¬(s.enter t op lock).Writing t := by
      rintro ⟨op', hCall, -⟩
      simp only [State.enter, Function.update_self, hBack, Option.some.injEq, Prod.mk.injEq,
        Bool.false_eq_true, and_false] at hCall
    refine ⟨hBooked, fun _ => ⟨writer, fun u => ?_, ?_⟩, fun _ => hSettled, hIdle, ?_⟩
    · rw [hWriter u]
      by_cases hEq : u = t
      · subst hEq
        exact iff_of_false hNot hSelf
      · exact (hOther u hEq).symm
    · rw [hHeld]
      show Holds lock.1 s.held writer
      simpa only [Asked, hBack, Bool.false_eq_true, if_false] using hAsked
    · simp only [State.enter, h.asserted, hBack, Bool.and_false, Bool.not_false, Bool.true_or,
        Bool.and_self]
  | true =>
    cases hWrite : op.isWrite with
    | true =>
      simp only [Asked, hBack, hWrite, if_true] at hAsked
      obtain ⟨hNobody, hNoReader, hAsked⟩ := hAsked
      have hHeld : (s.enter t op lock).held = s.held := by
        funext u
        by_cases hEq : u = t
        · subst hEq
          rw [hHeldSelf, hBack, reading, if_pos hWrite]
          exact Nat.zero_add _
        · exact hHeldOther u hEq
      refine ⟨hBooked, fun _ => ⟨some t, fun u => ?_, ?_⟩, fun _ => hSettled, hIdle, ?_⟩
      · by_cases hEq : u = t
        · subst hEq
          refine iff_of_true rfl ⟨op, ?_, hWrite⟩
          simp only [State.enter, Function.update_self, hBack]
        · have hNotOther : ¬s.Writing u := by
            rw [← hWriter u, hNobody]
            rintro ⟨⟩
          rw [hOther u hEq]
          exact iff_of_false (fun hSome => hEq (Option.some.inj hSome).symm) hNotOther
      · rw [hHeld]
        exact hAsked
      · simp only [State.enter, h.asserted, hOpen, h.booked.openIterators_eq_nil hNoReader,
          List.isEmpty_nil, Bool.or_true, Bool.and_self]
    | false =>
      have hHeld : (s.enter t op lock).held = Function.update s.held t (s.held t + 1) := by
        funext u
        by_cases hEq : u = t
        · subst hEq
          rw [hHeldSelf, hBack, reading, if_neg (by simp [hWrite]), Function.update_self,
            Nat.add_comm]
        · rw [Function.update_of_ne hEq]
          exact hHeldOther u hEq
      have hSelf : ¬(s.enter t op lock).Writing t := by
        rintro ⟨op', hCall, hOp⟩
        simp only [State.enter, Function.update_self, Option.some.injEq, Prod.mk.injEq] at hCall
        rw [← hCall.1, hWrite] at hOp
        cases hOp
      refine ⟨hBooked, fun _ => ⟨writer, fun u => ?_, ?_⟩, fun _ => hSettled, hIdle, ?_⟩
      · rw [hWriter u]
        by_cases hEq : u = t
        · subst hEq
          exact iff_of_false hNot hSelf
        · exact (hOther u hEq).symm
      · rw [hHeld]
        show Holds lock.1 (Function.update s.held t (s.held t + 1)) writer
        simpa only [Asked, hBack, hWrite, Bool.false_eq_true, if_false, if_true] using hAsked
      · simp only [State.enter, h.asserted, hWrite, Bool.false_and, Bool.not_false, Bool.true_or,
          Bool.and_self]

/-- The model is there while it is called. -/
theorem Invariant.here (h : Invariant s) {call : Operation × Bool} (hCall : s.calls t = some call) :
    s.gone = false := by
  by_contra hGone
  rw [h.idle (Bool.eq_true_of_not_eq_false hGone) t] at hCall
  cases hCall

/-- The operation gives its lock back. -/
theorem Invariant.unlock (h : Invariant s) {op : Operation} (hCall : s.calls t = some (op, true))
    (hWakes : Wakes s.d.m_msLock woken) :
    Invariant { s with
      calls := Function.update s.calls t none
      d := s.d.unlock t woken } := by
  have hHere := h.here hCall
  obtain ⟨writer, hWriter, hHolds⟩ := h.lock hHere
  have hSettled : Settled s.d t := h.settled hHere t (by simp [hCall])
  have hSelf : ∀ op', Function.update s.calls t none t ≠ some (op', true) := by
    intro op'
    rw [Function.update_self]
    rintro ⟨⟩
  have hOther : ∀ u, u ≠ t → (State.Writing { s with
      calls := Function.update s.calls t none
      d := s.d.unlock t woken } u ↔ s.Writing u) := fun u hu => writing_update rfl hu
  refine ⟨?_, fun _ => ?_, fun _ u hu => settled_unlock hWakes ?_, fun hGone => ?_, h.asserted⟩
  · refine ⟨h.booked.fresh, ?_, ?_, fun p it hIt hModel => ?_, h.booked.dead, h.booked.once,
      h.booked.there⟩
    · simp only [unlock_openIterators]
      exact h.booked.nodup
    · simp only [unlock_openIterators]
      exact h.booked.opened
    · simp only [unlock_openIterators]
      exact h.booked.live p it hIt hModel
  · cases hWrite : op.isWrite with
    | true =>
      obtain rfl : writer = some t := (hWriter t).mpr ⟨op, hCall, hWrite⟩
      refine ⟨none, fun u => ?_, ?_⟩
      · by_cases hEq : u = t
        · subst hEq
          exact iff_of_false (by rintro ⟨⟩) (by rintro ⟨op', hCall', _⟩; exact hSelf op' hCall')
        · rw [hOther u hEq, ← hWriter u]
          exact iff_of_false (by rintro ⟨⟩) fun hSome => hEq (Option.some.inj hSome).symm
      · have hHeld : State.held { s with
            calls := Function.update s.calls t none
            d := s.d.unlock t woken } = s.held := by
          funext u
          simp only [State.held, unlock_openIterators]
          by_cases hEq : u = t
          · subst hEq
            rw [Function.update_self, hCall, reading, reading, if_pos hWrite]
            intros; contradiction
          · rw [Function.update_of_ne hEq]
        rw [hHeld]
        exact hHolds.unlock_write
    | false =>
      have hReading : reading (s.calls t) = 1 := by
        rw [hCall, reading, if_neg (by simp [hWrite])]
      refine ⟨writer, fun u => ?_, ?_⟩
      · by_cases hEq : u = t
        · subst hEq
          have hNot : ¬s.Writing u := by
            rintro ⟨op', hCall', hOp⟩
            rw [hCall] at hCall'
            cases hCall'
            rw [hWrite] at hOp
            cases hOp
          rw [hWriter u]
          exact iff_of_false hNot (by rintro ⟨op', hCall', _⟩; exact hSelf op' hCall')
        · rw [hOther u hEq, hWriter u]
      · have hHeld : State.held { s with
            calls := Function.update s.calls t none
            d := s.d.unlock t woken } = Function.update s.held t (s.held t - 1) := by
          funext u
          by_cases hEq : u = t
          · subst hEq
            simp only [State.held, unlock_openIterators, Function.update_self, hReading]
            simp only [reading]
            omega
          · simp only [State.held, unlock_openIterators, Function.update_of_ne hEq]
        rw [hHeld]
        refine hHolds.unlock_read hSettled ?_
        rw [State.held, hReading]
        omega
  · by_cases hEq : u = t
    · exact hEq ▸ hSettled
    · refine h.settled hHere u fun op' hCall' => hu op' ?_
      exact (Function.update_of_ne hEq _ _).trans hCall'
  · rw [hHere] at hGone
    cases hGone

omit [Fintype τ] [DecidableEq τ] in
theorem mem_append_created {iterators : List (Option Nat)} {n : Nat}
    (h : some p ∉ iterators ++ [some n]) : some p ∉ iterators :=
  fun hIn => h (List.mem_append_left _ hIn)

/-- The parent's iterator is returned as it is where it is not valid. -/
theorem Invariant.newHandle (h : Invariant s) :
    Invariant { s with created := s.created + 1, iterators := s.iterators ++ [some s.created] } := by
  refine ⟨⟨fun p hp => ?_, h.booked.nodup, h.booked.opened, h.booked.live, h.booked.dead, h.booked.once,
    h.booked.there⟩, h.lock, h.settled, h.idle, h.asserted⟩
  have hLess : s.created < p := hp
  obtain ⟨hNone, hNot, hUnreleased⟩ := h.booked.fresh p (Nat.le_of_lt hLess)
  refine ⟨hNone, ?_, hUnreleased⟩
  rw [List.mem_append, List.mem_singleton, Option.some.injEq]
  exact fun hIn => hIn.elim hNot fun hEq => Nat.ne_of_gt hLess hEq

/-- A new iterator keeps the lock of the operation that returns it. -/
theorem Invariant.opened (h : Invariant s) {op : Operation} (hCall : s.calls t = some (op, true))
    (hRead : op.isWrite = false) :
    Invariant { s with
      calls := Function.update s.calls t none
      created := s.created + 1
      iterators := s.iterators ++ [some s.created]
      d := { s.d with openIterators := s.d.openIterators ++ [s.created] }
      privates := Function.update s.privates s.created (some ⟨true, false, t⟩) } := by
  have hHere := h.here hCall
  obtain ⟨writer, hWriter, hHolds⟩ := h.lock hHere
  obtain ⟨hUnknown, -, hUnreleased⟩ := h.booked.fresh s.created (Nat.le_refl _)
  have hNotOpen : s.created ∉ s.d.openIterators := by
    intro hIn
    obtain ⟨it, hIt, -⟩ := h.booked.opened _ hIn
    rw [hUnknown] at hIt
    cases hIt
  have hSelf : Function.update s.privates s.created (some ⟨true, false, t⟩) s.created =
      some ⟨true, false, t⟩ := Function.update_self _ _ _
  have hOld : ∀ p, p ≠ s.created →
      Function.update s.privates s.created (some ⟨true, false, t⟩) p = s.privates p :=
    fun p hp => Function.update_of_ne hp _ _
  have hReading : reading (s.calls t) = 1 := by
    rw [hCall, reading, if_neg (by simp [hRead])]
  have hKnown : ∀ p ∈ s.d.openIterators, p ≠ s.created := fun p hp hEq => hNotOpen (hEq ▸ hp)
  have hHeld : State.held { s with
      calls := Function.update s.calls t none
      created := s.created + 1
      iterators := s.iterators ++ [some s.created]
      d := { s.d with openIterators := s.d.openIterators ++ [s.created] }
      privates := Function.update s.privates s.created (some ⟨true, false, t⟩) } = s.held := by
    funext u
    have hCount : s.d.openIterators.countP (fun p =>
        (Function.update s.privates s.created (some ⟨true, false, t⟩) p).any (·.opener = u)) =
        s.d.openIterators.countP fun p => (s.privates p).any (·.opener = u) :=
      List.countP_congr fun p hp => by rw [hOld p (hKnown p hp)]
    simp only [State.held, List.countP_append, hCount, List.countP_singleton, hSelf, Option.any_some]
    by_cases hEq : u = t
    · subst hEq
      rw [Function.update_self, hReading, decide_eq_true rfl, if_pos rfl]
      simp only [reading]
      omega
    · rw [Function.update_of_ne hEq, decide_eq_false (Ne.symm hEq), if_neg Bool.false_ne_true]
      omega
  have hNotWriting : ¬s.Writing t := by
    rintro ⟨op', hCall', hOp⟩
    rw [hCall] at hCall'
    cases hCall'
    rw [hRead] at hOp
    cases hOp
  refine ⟨⟨fun p hp => ?_, ?_, fun p hp => ?_, fun p it hIt hModel => ?_, fun p it hIt hModel => ?_,
    h.booked.once, h.booked.there⟩, fun _ => ⟨writer, fun u => ?_, ?_⟩, fun _ u hu => ?_, fun hGone => ?_,
    h.asserted⟩
  · have hLess : s.created < p := hp
    have hNe : p ≠ s.created := Nat.ne_of_gt hLess
    obtain ⟨hNone, hNot, hRest⟩ := h.booked.fresh p (Nat.le_of_lt hLess)
    refine ⟨(hOld p hNe).trans hNone, ?_, hRest⟩
    rw [List.mem_append, List.mem_singleton, Option.some.injEq]
    exact fun hIn => hIn.elim hNot hNe
  · rw [List.nodup_append]
    refine ⟨h.booked.nodup, List.nodup_singleton _, fun p hp q hq => ?_⟩
    rw [List.mem_singleton] at hq
    exact hq ▸ hKnown p hp
  · rcases List.mem_append.mp hp with hp | hp
    · obtain ⟨it, hIt, hModel⟩ := h.booked.opened p hp
      exact ⟨it, (hOld p (hKnown p hp)).trans hIt, hModel⟩
    · rw [List.mem_singleton] at hp
      subst hp
      exact ⟨_, hSelf, rfl⟩
  · simp only at hIt
    by_cases hNe : p = s.created
    · subst hNe
      rw [hSelf] at hIt
      cases hIt
      exact ⟨hHere, List.mem_append_right _ (List.mem_singleton_self _), rfl, hUnreleased⟩
    · rw [hOld p hNe] at hIt
      obtain ⟨hGone, hIn, hRest⟩ := h.booked.live p it hIt hModel
      exact ⟨hGone, List.mem_append_left _ hIn, hRest⟩
  · simp only at hIt
    by_cases hNe : p = s.created
    · subst hNe
      rw [hSelf] at hIt
      cases hIt
      cases hModel
    · rw [hOld p hNe] at hIt
      exact h.booked.dead p it hIt hModel
  · rw [hWriter u]
    by_cases hEq : u = t
    · subst hEq
      refine iff_of_false hNotWriting ?_
      rintro ⟨op', hCall', -⟩
      simp only at hCall'
      rw [Function.update_self] at hCall'
      cases hCall'
    · exact (writing_update rfl hEq).symm
  · rw [hHeld]
    exact hHolds
  · by_cases hEq : u = t
    · exact hEq ▸ h.settled hHere t (by simp [hCall])
    · exact h.settled hHere u fun op' hCall' => hu op' ((Function.update_of_ne hEq _ _).trans hCall')
  · rw [hHere] at hGone
    cases hGone

theorem Invariant.finish (h : Invariant s) (hClosed : Closed s) {op : Operation} {valid : Bool}
    (hCall : s.calls t = some (op, true)) (hWakes : Wakes s.d.m_msLock woken) :
    Invariant (s.finish t woken op valid) ∧ Closed (s.finish t woken op valid) := by
  rw [State.finish]
  cases hReturns : op.returnsIterator with
  | false => exact ⟨h.unlock hCall hWakes, hClosed⟩
  | true =>
    have hRead : op.isWrite = false := by
      revert hReturns
      cases op <;> decide
    cases valid with
    | false => exact ⟨(h.unlock hCall hWakes).newHandle,
        fun p it hIt hNot => hClosed p it hIt (mem_append_created hNot)⟩
    | true =>
      refine ⟨h.opened hCall hRead, fun p it hIt hNot => ?_⟩
      by_cases hNe : p = s.created
      · subst hNe
        exact absurd (List.mem_append_right _ (List.mem_singleton_self _)) hNot
      · refine hClosed p it ?_ (mem_append_created hNot)
        rw [← hIt]
        exact (Function.update_of_ne hNe _ _).symm

theorem Invariant.destroyModel (h : Invariant s) (hClosed : Closed s)
    (hIdle : ∀ t, s.calls t = none) : Invariant s.destroyModel ∧ Closed s.destroyModel := by
  have hKnown : ∀ p it, s.destroyModel.privates p = some it → ∃ it', s.privates p = some it' ∧
      it.m_model = false ∧ it.closed = it'.closed := by
    intro p it hIt
    simp only [State.destroyModel] at hIt
    split at hIt
    · obtain ⟨it', hIt', rfl⟩ := Option.map_eq_some_iff.mp hIt
      exact ⟨it', hIt', rfl, rfl⟩
    · rename_i hNot
      refine ⟨it, hIt, Bool.eq_false_iff.mpr fun hModel => hNot ?_, rfl⟩
      exact (h.booked.live p it hIt hModel).2.1
  refine ⟨⟨⟨fun p hp => ?_, List.nodup_nil, fun p hp => absurd hp List.not_mem_nil, fun p it hIt hModel => ?_,
    nofun, h.booked.once, h.booked.there⟩, nofun, nofun, fun _ => hIdle, h.asserted⟩, fun p it hIt hNot => ?_⟩
  · obtain ⟨hNone, hRest⟩ := h.booked.fresh p hp
    refine ⟨?_, hRest⟩
    simp only [State.destroyModel, hNone, Option.map_none, ite_self]
  · obtain ⟨-, -, hGone, -⟩ := hKnown p it hIt
    rw [hGone] at hModel
    cases hModel
  · obtain ⟨it', hIt', -, hSame⟩ := hKnown p it hIt
    exact hSame.trans (hClosed p it' hIt' hNot)

omit [Fintype τ] [DecidableEq τ] in
/-- Where a pointer is set to other data, only the old data may be left without a handle. -/
theorem closed_set (hClosed : Closed s) {i old : Nat} {o : Option Nat}
    (hOld : s.iterators[i]? = some (some old)) (q : Nat) (it : MutexIteratorBase τ)
    (hIt : s.privates q = some it) (hNot : some q ∉ s.iterators.set i o) (hq : q ≠ old) :
    it.closed = true := by
  refine hClosed q it hIt fun hIn => hNot ?_
  obtain ⟨j, hj⟩ := List.mem_iff_getElem?.mp hIn
  have hNe : i ≠ j := by
    rintro rfl
    rw [hOld] at hj
    cases hj
    exact hq rfl
  refine List.mem_iff_getElem?.mpr ⟨j, ?_⟩
  rw [List.getElem?_set_ne hNe, hj]

/-- A handle is set to data that has one, or to none. -/
theorem Invariant.set (h : Invariant s) {i : Nat} {o : Option Nat}
    (hKnown : ∀ p, o = some p → some p ∈ s.iterators) :
    Invariant { s with iterators := s.iterators.set i o } := by
  refine ⟨⟨fun p hp => ?_, h.booked.nodup, h.booked.opened, h.booked.live, h.booked.dead, h.booked.once,
    h.booked.there⟩, h.lock, h.settled, h.idle, h.asserted⟩
  obtain ⟨hNone, hNot, hUnreleased⟩ := h.booked.fresh p hp
  refine ⟨hNone, fun hIn => ?_, hUnreleased⟩
  rcases List.mem_or_eq_of_mem_set hIn with hIn | hIn
  · exact hNot hIn
  · exact hNot (hKnown p hIn.symm)

theorem Invariant.step (h : Invariant s) (hClosed : Closed s) {a : Action τ}
    (hStep : MutexModel.step s a = some s') : Invariant s' ∧ Closed s' := by
  cases a with
  | call t op =>
    simp only [MutexModel.step, Option.ite_none_right_eq_some, Option.some.injEq] at hStep
    obtain ⟨⟨hFree, hHere⟩, rfl⟩ := hStep
    refine ⟨?_, hClosed⟩
    have hReading : reading (s.calls t) = 0 := by rw [hFree]; rfl
    have hNot : ¬s.Writing t := fun ⟨op', hCall, _⟩ => by rw [hFree] at hCall; cases hCall
    have hSettled : Settled s.d t := h.settled hHere t (by simp [hFree])
    obtain ⟨writer, -, hHolds⟩ := h.lock hHere
    cases hWrite : op.isWrite with
    | true =>
      simp only [if_true]
      refine h.enter hHere hReading hNot (fun hHolds => ?_) (hHolds.lockForWrite t).2
      rw [hWrite]
      exact (hHolds.lockForWrite t).1
    | false =>
      simp only [Bool.false_eq_true, if_false]
      refine h.enter hHere hReading hNot (fun hHolds => ?_) (hHolds.lockForRead hSettled).2
      rw [hWrite]
      exact (hHolds.lockForRead hSettled).1
  | retry t =>
    simp only [MutexModel.step] at hStep
    split at hStep
    · rename_i op hCall
      obtain ⟨lock, hRetry, rfl⟩ := Option.map_eq_some_iff.mp hStep
      refine ⟨?_, hClosed⟩
      have hHere := h.here hCall
      have hReading : reading (s.calls t) = 0 := by rw [hCall]; rfl
      have hNot : ¬s.Writing t := fun ⟨op', hCall', _⟩ => by rw [hCall] at hCall'; cases hCall'
      obtain ⟨writer, -, hHolds⟩ := h.lock hHere
      exact h.enter hHere hReading hNot (fun hHolds => (hHolds.retry hRetry).1) (hHolds.retry hRetry).2
    · cases hStep
  | finish t valid woken =>
    simp only [MutexModel.step] at hStep
    split at hStep
    · rename_i op hCall
      simp only [Option.ite_none_right_eq_some, Option.some.injEq] at hStep
      obtain ⟨hWakes, rfl⟩ := hStep
      exact h.finish hClosed hCall hWakes
    · cases hStep
  | next t it haveNext woken =>
    simp only [MutexModel.step] at hStep
    split at hStep
    · rename_i p hFree hIt
      cases haveNext with
      | true =>
        cases hStep
        exact ⟨h, hClosed⟩
      | false => exact h.closeHandle hClosed hFree hStep
    · cases hStep
  | close t it woken =>
    simp only [MutexModel.step] at hStep
    split at hStep
    · rename_i p hFree hIt
      exact h.closeHandle hClosed hFree hStep
    · cases hStep
  | copy t it =>
    simp only [MutexModel.step] at hStep
    split at hStep
    · rename_i p hFree hIt
      cases hStep
      refine ⟨⟨⟨fun q hq => ?_, h.booked.nodup, h.booked.opened, h.booked.live, h.booked.dead,
        h.booked.once, h.booked.there⟩, h.lock, h.settled, h.idle, h.asserted⟩,
        fun q it' hIt' hNot => hClosed q it' hIt' (mem_append_created hNot)⟩
      obtain ⟨hNone, hNot, hUnreleased⟩ := h.booked.fresh q hq
      refine ⟨hNone, ?_, hUnreleased⟩
      rw [List.mem_append, List.mem_singleton]
      exact fun hIn => hIn.elim hNot fun hEq => hNot (hEq ▸ List.mem_of_getElem? hIt)
    · cases hStep
  | assign t target source woken =>
    simp only [MutexModel.step] at hStep
    split at hStep
    · rename_i old p hFree hOld hSource
      refine Invariant.deref (h.set fun q hq => ?_) (closed_set hClosed hOld) hFree hStep
      exact hq ▸ List.mem_of_getElem? hSource
    · cases hStep
  | destroy t it woken =>
    simp only [MutexModel.step] at hStep
    split at hStep
    · rename_i p hFree hIt
      exact Invariant.deref (h.set fun q hq => by cases hq) (closed_set hClosed hIt) hFree hStep
    · cases hStep
  | destroyModel =>
    simp only [MutexModel.step, Option.ite_none_right_eq_some, Option.some.injEq] at hStep
    obtain ⟨⟨hIdle, -⟩, rfl⟩ := hStep
    exact h.destroyModel hClosed hIdle

/-- No step that finds the model gone, or destroys it, removes an iterator. -/
theorem Invariant.released_of_gone (h : Invariant s) {a : Action τ}
    (hStep : MutexModel.step s a = some s') (hGone : s'.gone = true) : s'.released = s.released := by
  have hClose : ∀ {t p woken}, s.calls t = none → s.close t woken p = some s' →
      s'.released = s.released := by
    intro t p woken hFree hClose
    have hEnded := (h.close hFree hClose).2
    exact hEnded.released (hEnded.gone ▸ hGone)
  cases a with
  | call t op =>
    simp only [MutexModel.step, Option.ite_none_right_eq_some, Option.some.injEq] at hStep
    rw [← hStep.2]
    rfl
  | retry t =>
    simp only [MutexModel.step] at hStep
    split at hStep
    · obtain ⟨lock, -, rfl⟩ := Option.map_eq_some_iff.mp hStep
      rfl
    · cases hStep
  | finish t valid woken =>
    simp only [MutexModel.step] at hStep
    split at hStep
    · rename_i op hCall
      simp only [Option.ite_none_right_eq_some, Option.some.injEq] at hStep
      obtain ⟨-, rfl⟩ := hStep
      rw [State.finish]
      cases op.returnsIterator <;> cases valid <;> rfl
    · cases hStep
  | next t it haveNext woken =>
    simp only [MutexModel.step] at hStep
    split at hStep
    · rename_i p hFree hIt
      cases haveNext with
      | true =>
        cases hStep
        rfl
      | false => exact hClose hFree hStep
    · cases hStep
  | close t it woken =>
    simp only [MutexModel.step] at hStep
    split at hStep
    · rename_i p hFree hIt
      exact hClose hFree hStep
    · cases hStep
  | copy t it =>
    simp only [MutexModel.step] at hStep
    split at hStep
    · cases hStep
      rfl
    · cases hStep
  | assign t target source woken =>
    simp only [MutexModel.step] at hStep
    split at hStep
    · rename_i old p hFree hOld hSource
      have hSet : Invariant { s with iterators := s.iterators.set target (some p) } :=
        h.set fun q hq => hq ▸ List.mem_of_getElem? hSource
      exact hSet.deref_gone hFree hStep hGone
    · cases hStep
  | destroy t it woken =>
    simp only [MutexModel.step] at hStep
    split at hStep
    · rename_i p hFree hIt
      have hSet : Invariant { s with iterators := s.iterators.set it none } :=
        h.set fun q hq => by cases hq
      exact hSet.deref_gone hFree hStep hGone
    · cases hStep
  | destroyModel =>
    simp only [MutexModel.step, Option.ite_none_right_eq_some, Option.some.injEq] at hStep
    rw [← hStep.2]
    rfl

theorem invariant_init {mode : ProtectionMode} (hMode : mode ≠ .ReadWriteSingleThreading) :
    Invariant (init mode : State τ) ∧ Closed (init mode : State τ) := by
  refine ⟨⟨⟨fun _ _ => ⟨rfl, List.not_mem_nil, List.not_mem_nil⟩, List.nodup_nil,
    fun p hp => absurd hp List.not_mem_nil, (by intros; contradiction), (by intros; contradiction), List.nodup_nil,
    fun x hx => absurd hx List.not_mem_nil⟩, fun _ => ⟨none, fun t => ?_, ?_⟩, fun _ t _ _ => rfl,
    fun _ _ => rfl, rfl⟩, (by rintro _ _ ⟨⟩)⟩
  · exact iff_of_false (by rintro ⟨⟩) (by rintro ⟨op, hCall, _⟩; cases hCall)
  · have hHeld : (init mode : State τ).held = fun _ => 0 := rfl
    rw [hHeld]
    cases mode with
    | PlainMultiThreading => exact ⟨rfl, fun _ => rfl⟩
    | ReadWriteMultiThreading =>
      refine ⟨rfl, rfl, .inl ⟨rfl, ?_⟩, fun _ _ => rfl⟩
      simp [init, ExtReadWriteLock.init]
    | ReadWriteSingleThreading => exact absurd rfl hMode

/-- The lock is held by the operations in progress and the open iterators.  An iterator that has ended, by
`close`, at its end, or with its last handle, was removed once, and never behind the end of the model.  A
writer finds no open iterator. -/
theorem locks_accounted {mode : ProtectionMode} (hMode : mode ≠ .ReadWriteSingleThreading)
    {actions : List (Action τ)} {s : State τ} (hRun : Runs.run step (init mode) actions = some s) :
    (s.gone = false → ∃ writer, (∀ t, writer = some t ↔ s.Writing t) ∧ Holds s.d s.held writer) ∧
    (∀ p it, s.privates p = some it →
      s.released.count (p, false) ≤ 1 ∧
      (s.gone = false → s.released.count (p, false) = (if it.closed then 1 else 0) ∧
        (p ∈ s.d.openIterators ↔ it.closed = false)) ∧
      (some p ∉ s.iterators → it.closed = true) ∧
      ∀ t i woken s', s.iterators[i]? = some (some p) →
        step s (.close t i woken) = some s' ∨ step s (.next t i false woken) = some s' →
          ∀ it', s'.privates p = some it' → it'.closed = true) ∧
    (∀ x ∈ s.released, x.2 = false) ∧
    (∀ a s', step s a = some s' → s'.gone = true → s'.released = s.released) ∧
    (∀ t, s.Writing t → s.d.openIterators = []) ∧
    s.asserted = true := by
  obtain ⟨h, hClosed⟩ := Runs.invariant_of_forall (I := fun s => Invariant s ∧ Closed s)
    (fun h hStep => h.1.step h.2 hStep) (invariant_init hMode) hRun
  refine ⟨h.lock, fun p it hIt => ⟨?_, fun hHere => ?_, hClosed p it hIt, ?_⟩, h.booked.there,
    fun a s' hStep hGone => h.released_of_gone hStep hGone, fun t hWriting => ?_, h.asserted⟩
  · exact List.nodup_iff_count_le_one.mp h.booked.once _
  · cases hModel : it.m_model with
    | true =>
      obtain ⟨-, hOpen, hNot, hUnreleased⟩ := h.booked.live p it hIt hModel
      rw [List.count_eq_zero.mpr hUnreleased, hNot]
      exact ⟨rfl, iff_of_true hOpen rfl⟩
    | false =>
      obtain ⟨hEnd, hReleased⟩ := h.booked.dead p it hIt hModel hHere
      rw [List.count_eq_one_of_mem h.booked.once hReleased, hEnd]
      refine ⟨rfl, iff_of_false (fun hOpen => ?_) nofun⟩
      obtain ⟨it', hIt', hModel'⟩ := h.booked.opened p hOpen
      rw [hIt] at hIt'
      cases hIt'
      rw [hModel] at hModel'
      cases hModel'
  · intro t i woken s' hHandle hEnds it' hIt'
    have hEnded : Ended p s s' := by
      rcases hEnds with hStep | hStep
      all_goals
        simp only [step, hHandle] at hStep
        split at hStep
        · rename_i q hFree hEq
          obtain rfl : p = q := Option.some.inj (Option.some.inj hEq)
          exact (h.close hFree hStep).2
        · cases hStep
    exact hEnded.closed it' hIt'
  · obtain ⟨op, hCall, -⟩ := id hWriting
    have hHere := h.here hCall
    obtain ⟨writer, hWriter, hHolds⟩ := h.lock hHere
    rw [(hWriter t).mpr hWriting] at hHolds
    exact h.booked.openIterators_eq_nil fun u => hHolds.alone u

/-- A thread lists statements, copies the iterator and reads it to its end, and lets both handles go; then
another one may write. -/
theorem locks_accounted_two :
    let actions : List (Action (Fin 2)) := [.call 0 .listStatements, .finish 0 true none, .copy 0 0,
      .call 1 .addStatement, .next 0 0 true none, .next 0 1 false (some 1), .destroy 0 0 none,
      .destroy 0 1 none, .retry 1]
    ∃ s, Runs.run step (init .ReadWriteMultiThreading) actions = some s ∧ s.Writing 1 ∧
      s.d.openIterators = [] ∧ s.asserted = true := by
  intro actions
  have hSome : (Runs.run step (init .ReadWriteMultiThreading) actions).isSome = true := by decide
  obtain ⟨s, hRun⟩ := Option.isSome_iff_exists.mp hSome
  have hEnd : (Runs.run step (init .ReadWriteMultiThreading) actions).map (·.calls 1) =
      some (some (.addStatement, true)) := by decide
  rw [hRun, Option.map_some, Option.some.injEq] at hEnd
  have hWriting : s.Writing 1 := ⟨_, hEnd, rfl⟩
  obtain ⟨-, -, -, -, hNone, hAsserted⟩ := locks_accounted (by decide) hRun
  exact ⟨s, hRun, hWriting, hNone 1 hWriting, hAsserted⟩

end Soprano.Util.MutexModel
