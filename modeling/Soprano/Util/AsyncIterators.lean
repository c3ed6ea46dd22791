import Soprano.Util.AsyncModel

/-! The iterators of an `AsyncModel` in `SingleThreaded` mode. Each backend is a handle that
registers with the model when it is constructed, and should leave it when the iterator is closed. -/

namespace Soprano.Util

/-- The backends of what `listStatements`, `listContexts` and `executeQuery` return: their handles. -/
inductive SyncBackend
  | syncIteratorBackend (handle : Nat)
  | syncQueryResultIteratorBackend (handle : Nat)

/-- The backends that clients see. Those of an `AsyncResult` have a backend of the first kind behind
their `m_iterator`, and no other object has it. -/
inductive Backend
  | sync (b : SyncBackend)
  | asyncIteratorBackend (handle : Nat) (m_iterator : SyncBackend)
  | asyncQueryResultIteratorBackend (handle : Nat) (m_iterator : SyncBackend)

/-- `Iterator::Private`, with the number of `Iterator` objects that share it, and whether a `close`
was called or a `next` returned false. -/
structure SharedIterator where
  backend : Backend
  objects : Nat
  ended : Bool

/-- Of a handle, the state has whether `m_asyncModelPrivate` is set; `removed` are the arguments of
the calls of `removeIterator`. -/
structure AsyncModel where
  d : AsyncModelPrivate
  handles : List Bool
  iterators : List SharedIterator
  removed : List Nat
  alive : Bool

namespace AsyncModel

def init : AsyncModel := ⟨.init, [], [], [], true⟩

def modelPrivate (σ : AsyncModel) (handle : Nat) : Bool := σ.handles[handle]?.getD false

/-- `AsyncIteratorHandle::remove`. A model that is gone cannot be called. -/
def remove (handle : Nat) (σ : AsyncModel) : Option AsyncModel :=
  if σ.modelPrivate handle then
    if σ.alive then
      some { σ with
        d := σ.d.removeIterator handle
        handles := σ.handles.set handle false
        removed := σ.removed ++ [handle] }
    else none
  else some σ

/-- `AsyncIteratorHandle::AsyncIteratorHandle` -/
def addHandle (σ : AsyncModel) : AsyncModel :=
  { σ with d := σ.d.addIterator σ.handles.length, handles := σ.handles ++ [true] }

end AsyncModel

namespace SyncBackend

def handle : SyncBackend → Nat
  | syncIteratorBackend handle | syncQueryResultIteratorBackend handle => handle

def isQuery : SyncBackend → Bool
  | syncIteratorBackend _ => false
  | syncQueryResultIteratorBackend _ => true

def close (σ : AsyncModel) : SyncBackend → Option AsyncModel
  | syncIteratorBackend handle => σ.remove handle
  | syncQueryResultIteratorBackend _ => some σ

end SyncBackend

namespace Backend

/-- `AsyncIteratorBase::closeIterator` -/
def closeIterator (σ : AsyncModel) (handle : Nat) (m_iterator : SyncBackend) : Option AsyncModel :=
  if σ.modelPrivate handle then (m_iterator.close σ).bind (AsyncModel.remove handle) else some σ

def close (σ : AsyncModel) : Backend → Option AsyncModel
  | sync b => b.close σ
  | asyncIteratorBackend handle m_iterator
  | asyncQueryResultIteratorBackend handle m_iterator => closeIterator σ handle m_iterator

/-- `AsyncIteratorBase::getNext`, where the iterator of the parent model answers `hasNext`. Without
a next element, `m_iterator.next` closes. -/
def getNext (σ : AsyncModel) (handle : Nat) (m_iterator : SyncBackend) (hasNext : Bool) :
    Option (Bool × AsyncModel) :=
  if σ.modelPrivate handle then
    if hasNext then some (true, σ) else (m_iterator.close σ).map (false, ·)
  else some (false, σ)

def next (σ : AsyncModel) (hasNext : Bool) : Backend → Option (Bool × AsyncModel)
  | sync _ => some (hasNext, σ)
  | asyncIteratorBackend handle m_iterator
  | asyncQueryResultIteratorBackend handle m_iterator => getNext σ handle m_iterator hasNext

/-- The destructor. `m_iterator` is destroyed before the handle that has it. -/
def delete (σ : AsyncModel) : Backend → Option AsyncModel
  | sync b => σ.remove b.handle
  | asyncIteratorBackend handle m_iterator
  | asyncQueryResultIteratorBackend handle m_iterator =>
    ((m_iterator.close σ).bind (AsyncModel.remove m_iterator.handle)).bind
      (AsyncModel.remove handle)

end Backend

namespace AsyncModel

def returned (σ : AsyncModel) (backend : Backend) : AsyncModel :=
  { σ with iterators := σ.iterators ++ [⟨backend, 1, false⟩] }

/-- `listStatements`, `listContexts` and `executeQuery` -/
def listStatements (σ : AsyncModel) : AsyncModel :=
  σ.addHandle.returned (.sync (.syncIteratorBackend σ.handles.length))

def listContexts (σ : AsyncModel) : AsyncModel :=
  σ.addHandle.returned (.sync (.syncIteratorBackend σ.handles.length))

def executeQuery (σ : AsyncModel) : AsyncModel :=
  σ.addHandle.returned (.sync (.syncQueryResultIteratorBackend σ.handles.length))

/-- What `execute` does to the iterators: the result of the command is an iterator of its own on what
the model returns. -/
def execute (σ : AsyncModel) : CommandClass → AsyncModel
  | .listStatementsCommand | .listContextsCommand =>
    σ.addHandle.addHandle.returned
      (.asyncIteratorBackend (σ.handles.length + 1) (.syncIteratorBackend σ.handles.length))
  | .executeQueryCommand =>
    σ.addHandle.addHandle.returned (.asyncQueryResultIteratorBackend (σ.handles.length + 1)
      (.syncQueryResultIteratorBackend σ.handles.length))
  | _ => σ

/-- The rest of `_s_executeNextCommand` for the innermost command. -/
def finishCommand (σ : AsyncModel) : Option AsyncModel :=
  match σ.d.executing with
  | [] => some σ
  | c :: _ =>
    let τ := σ.execute c.kind
    τ.d.finishCommand.map fun d => { τ with d := d }

/-- `~AsyncModel` -/
def delete (σ : AsyncModel) : AsyncModel :=
  { σ with
    handles := σ.d.openIterators.foldl (fun handles it => handles.set it false) σ.handles
    alive := false }

def setIterator (σ : AsyncModel) (i : Nat) (it : SharedIterator) : AsyncModel :=
  { σ with iterators := σ.iterators.set i it }

end AsyncModel

namespace SharedIterator

/-- `Iterator::close` -/
def close (σ : AsyncModel) (i : Nat) (it : SharedIterator) : Option AsyncModel :=
  (it.backend.close σ).map fun τ => τ.setIterator i { it with ended := true }

/-- `Iterator::next` -/
def next (σ : AsyncModel) (i : Nat) (it : SharedIterator) (hasNext : Bool) : Option AsyncModel :=
  (it.backend.next σ hasNext).bind fun
    | (true, τ) => some τ
    | (false, τ) => it.close τ i

def copy (σ : AsyncModel) (i : Nat) (it : SharedIterator) : Option AsyncModel :=
  some (σ.setIterator i { it with objects := it.objects + 1 })

/-- The destructor of an object, and of the shared data with the last one. -/
def destroy (σ : AsyncModel) (i : Nat) (it : SharedIterator) : Option AsyncModel :=
  let left := { it with objects := it.objects - 1 }
  if left.objects = 0 then
    ((it.backend.close σ).bind it.backend.delete).map fun τ => τ.setIterator i left
  else some (σ.setIterator i left)

end SharedIterator

namespace AsyncModel

/-- What a client does with one of the objects that share an iterator. -/
inductive Use
  | next (hasNext : Bool)
  | close
  | copy
  | destroy

inductive Action
  | submit (kind : CommandClass)
  | timer
  | finish
  | listStatements
  | listContexts
  | executeQuery
  | use (i : Nat) (use : Use)
  | delete

def use (σ : AsyncModel) (i : Nat) (it : SharedIterator) : Use → Option AsyncModel
  | .next hasNext => it.next σ i hasNext
  | .close => it.close σ i
  | .copy => it.copy σ i
  | .destroy => it.destroy σ i

/-- A step. The model is not deleted while it executes commands. What cannot happen changes nothing. -/
def step (σ : AsyncModel) : Action → Option AsyncModel
  | .submit kind => if σ.alive then (σ.d.step (.submit kind)).map fun d => { σ with d := d } else some σ
  | .timer => if σ.alive then (σ.d.step .timer).map fun d => { σ with d := d } else some σ
  | .finish => if σ.alive then σ.finishCommand else some σ
  | .listStatements => some (if σ.alive then σ.listStatements else σ)
  | .listContexts => some (if σ.alive then σ.listContexts else σ)
  | .executeQuery => some (if σ.alive then σ.executeQuery else σ)
  | .use i use =>
    match σ.iterators[i]? with
    | some it => if 0 < it.objects then σ.use i it use else some σ
    | none => some σ
  | .delete => some (if σ.alive ∧ σ.d.executing = [] then σ.delete else σ)

/-- Handles and the list of the model agree, and a handle that has left the list left it once. -/
structure Linked (σ : AsyncModel) : Prop where
  listed : σ.alive = true → ∀ h, h ∈ σ.d.openIterators ↔ σ.modelPrivate h = true
  gone : σ.alive = false → ∀ h, σ.modelPrivate h = false
  once : σ.alive = true → ∀ h < σ.handles.length,
    σ.d.openIterators.count h + σ.removed.count h = 1
  atMost : ∀ h, σ.removed.count h ≤ 1
  beyond : ∀ h, σ.handles.length ≤ h → h ∉ σ.removed

/-- The handles `hs` have left the model, and nothing else has changed for the iterators. -/
structure Cleared (σ τ : AsyncModel) (hs : List Nat) : Prop where
  linked : Linked τ
  modelPrivate : ∀ h, τ.modelPrivate h = true ↔ σ.modelPrivate h = true ∧ h ∉ hs
  size : τ.handles.length = σ.handles.length
  iterators : τ.iterators = σ.iterators
  alive : τ.alive = σ.alive

variable {σ τ : AsyncModel}

theorem lt_of_modelPrivate {h : Nat} (hSet : σ.modelPrivate h = true) : h < σ.handles.length := by
  by_contra hNot
  rw [modelPrivate, List.getElem?_eq_none (Nat.le_of_not_lt hNot)] at hSet
  cases hSet

theorem modelPrivate_set (l : List Bool) (i j : Nat) :
    (l.set i false)[j]?.getD false = true ↔ l[j]?.getD false = true ∧ j ≠ i := by
  rw [List.getElem?_set]
  by_cases hEq : i = j
  · subst hEq
    by_cases hLt : i < l.length <;> simp [hLt]
  · simp [hEq, Ne.symm hEq]

theorem Cleared.refl (h : Linked σ) : Cleared σ σ [] :=
  ⟨h, fun _ => by simp, rfl, rfl, rfl⟩

theorem Cleared.trans {υ : AsyncModel} {hs later : List Nat} (hFirst : Cleared σ τ hs)
    (hNext : Cleared τ υ later) : Cleared σ υ (hs ++ later) := by
  refine ⟨hNext.linked, fun h => ?_, hNext.size.trans hFirst.size,
    hNext.iterators.trans hFirst.iterators, hNext.alive.trans hFirst.alive⟩
  rw [hNext.modelPrivate, hFirst.modelPrivate, List.mem_append, not_or, and_assoc]

/-- A handle leaves the list of the model once, and never that of a deleted model. -/
theorem Linked.remove (h : Linked σ) (handle : Nat) :
    ∃ τ, σ.remove handle = some τ ∧ Cleared σ τ [handle] := by
  rw [AsyncModel.remove]
  by_cases hSet : σ.modelPrivate handle = true
  · have hAlive : σ.alive = true := by
      by_contra hNot
      rw [h.gone (Bool.eq_false_iff.mpr hNot) handle] at hSet
      cases hSet
    have hPresent := (h.listed hAlive handle).mpr hSet
    have hOnce := h.once hAlive handle (lt_of_modelPrivate hSet)
    have hCount := List.count_pos_iff.mpr hPresent
    have hListed : ∀ other, other ∈ (σ.d.removeIterator handle).openIterators ↔
        other ∈ σ.d.openIterators ∧ other ≠ handle := by
      intro other
      simp [AsyncModelPrivate.removeIterator]
    have hCounts : ∀ other, other ≠ handle →
        (σ.d.removeIterator handle).openIterators.count other = σ.d.openIterators.count other := by
      intro other hNe
      exact List.count_filter (by simpa using hNe)
    have hRemoved : ∀ other, (σ.removed ++ [handle]).count other =
        σ.removed.count other + if handle = other then 1 else 0 := by
      intro other
      rw [List.count_append, List.count_singleton]
      simp
    rw [if_pos hSet, if_pos hAlive]
    refine ⟨_, rfl, ⟨⟨fun _ other => ?_, fun hGone => ?_, fun _ other hOther => ?_, fun other => ?_,
      fun other hOther => ?_⟩, fun other => ?_, List.length_set, rfl, rfl⟩⟩
    · rw [hListed, h.listed hAlive]
      exact (modelPrivate_set ..).symm
    · exact absurd (hAlive.symm.trans hGone) (by decide)
    · rw [List.length_set] at hOther
      show (σ.d.removeIterator handle).openIterators.count other +
        (σ.removed ++ [handle]).count other = 1
      rw [hRemoved]
      by_cases hEq : handle = other
      · subst hEq
        rw [if_pos rfl, List.count_eq_zero_of_not_mem fun hMem => ((hListed _).mp hMem).2 rfl]
        omega
      · rw [if_neg hEq, hCounts other (Ne.symm hEq)]
        exact h.once hAlive other hOther
    · show (σ.removed ++ [handle]).count other ≤ 1
      have hBefore := h.atMost other
      rw [hRemoved]
      by_cases hEq : handle = other
      · subst hEq
        rw [if_pos rfl]
        omega
      · rw [if_neg hEq]
        exact hBefore
    · rw [List.length_set] at hOther
      have hLt := lt_of_modelPrivate hSet
      simp only [List.mem_append, List.mem_singleton, not_or]
      exact ⟨h.beyond other hOther, by omega⟩
    · rw [List.mem_singleton]
      exact modelPrivate_set ..
  · rw [if_neg hSet]
    refine ⟨σ, rfl, ⟨h, fun other => ?_, rfl, rfl, rfl⟩⟩
    rw [List.mem_singleton]
    refine ⟨fun hOther => ⟨hOther, ?_⟩, And.left⟩
    rintro rfl
    exact hSet hOther

end AsyncModel

namespace SyncBackend

open AsyncModel

/-- The handles that `close` makes leave. -/
def closes : SyncBackend → List Nat
  | syncIteratorBackend handle => [handle]
  | syncQueryResultIteratorBackend _ => []

theorem close_cleared {σ : AsyncModel} (h : Linked σ) (b : SyncBackend) :
    ∃ τ, b.close σ = some τ ∧ Cleared σ τ b.closes := by
  cases b with
  | syncIteratorBackend handle => exact h.remove handle
  | syncQueryResultIteratorBackend handle => exact ⟨σ, rfl, .refl h⟩

theorem mem_closes {b : SyncBackend} {h : Nat} :
    h ∈ b.closes ↔ b.isQuery = false ∧ h = b.handle := by
  cases b <;> simp [closes, isQuery, handle]

end SyncBackend

namespace Backend

open AsyncModel

def isQuery : Backend → Bool
  | sync b | asyncIteratorBackend _ b | asyncQueryResultIteratorBackend _ b => b.isQuery

/-- The handles, and whether it is one of `SyncQueryResultIteratorBackend`. -/
def slots : Backend → List (Nat × Bool)
  | sync b => [(b.handle, b.isQuery)]
  | asyncIteratorBackend handle b | asyncQueryResultIteratorBackend handle b =>
    [(b.handle, b.isQuery), (handle, false)]

def handles (b : Backend) : List Nat := b.slots.map Prod.fst

variable {σ : AsyncModel} {b : Backend}

/-- A handle that has left has taken the one behind it along. -/
def Settled (σ : AsyncModel) : Backend → Prop
  | sync _ => True
  | asyncIteratorBackend handle b | asyncQueryResultIteratorBackend handle b =>
    σ.modelPrivate handle = false → b.isQuery = false → σ.modelPrivate b.handle = false

/-- `hs` are handles of the backend, and they have left. -/
structure Leaves (σ τ : AsyncModel) (b : Backend) (hs : List Nat) : Prop where
  cleared : Cleared σ τ hs
  own : ∀ h ∈ hs, h ∈ b.handles

theorem Leaves.trans {τ υ : AsyncModel} {hs later : List Nat} (hFirst : Leaves σ τ b hs)
    (hNext : Leaves τ υ b later) : Leaves σ υ b (hs ++ later) := by
  refine ⟨hFirst.cleared.trans hNext.cleared, fun h hMem => ?_⟩
  rcases List.mem_append.mp hMem with hOld | hNew
  · exact hFirst.own h hOld
  · exact hNext.own h hNew

/-- Closing makes all handles leave but the one of a `SyncQueryResultIteratorBackend`. -/
theorem closeIterator_spec (h : Linked σ) {handle : Nat} {b : SyncBackend}
    (hDistinct : b.handle ≠ handle)
    (hSettled : σ.modelPrivate handle = false → b.isQuery = false →
      σ.modelPrivate b.handle = false) :
    ∃ τ hs, closeIterator σ handle b = some τ ∧ Cleared σ τ hs ∧
      (∀ h ∈ hs, h = b.handle ∨ h = handle) ∧ τ.modelPrivate handle = false ∧
      (τ.modelPrivate b.handle = true ↔ σ.modelPrivate b.handle = true ∧ b.isQuery = true) := by
  rw [closeIterator]
  by_cases hSet : σ.modelPrivate handle = true
  · obtain ⟨τ, hClose, hFirst⟩ := b.close_cleared h
    obtain ⟨υ, hRemove, hNext⟩ := hFirst.linked.remove handle
    refine ⟨υ, b.closes ++ [handle], ?_, hFirst.trans hNext, fun other hOther => ?_, ?_, ?_⟩
    · rw [if_pos hSet, hClose, Option.bind_some, hRemove]
    · rcases List.mem_append.mp hOther with hBehind | hLast
      · exact .inl (SyncBackend.mem_closes.mp hBehind).2
      · exact .inr (List.mem_singleton.mp hLast)
    · rw [Bool.eq_false_iff, Ne, (hFirst.trans hNext).modelPrivate]
      simp
    · rw [(hFirst.trans hNext).modelPrivate, List.mem_append, SyncBackend.mem_closes]
      simp [hDistinct]
  · rw [if_neg hSet]
    rw [Bool.not_eq_true] at hSet
    refine ⟨σ, [], rfl, .refl h, nofun, hSet, ⟨fun hBehind => ⟨hBehind, ?_⟩, And.left⟩⟩
    by_contra hListing
    rw [hSettled hSet ((Bool.not_eq_true _).mp hListing)] at hBehind
    cases hBehind

/-- The two classes of the asynchronous interface do the same with their handles. -/
structure IsAsync (b : Backend) (handle : Nat) (m_iterator : SyncBackend) : Prop where
  slots : b.slots = [(m_iterator.handle, m_iterator.isQuery), (handle, false)]
  settled : ∀ σ, b.Settled σ ↔ (σ.modelPrivate handle = false → m_iterator.isQuery = false →
    σ.modelPrivate m_iterator.handle = false)
  close : ∀ σ, b.close σ = closeIterator σ handle m_iterator
  next : ∀ σ hasNext, b.next σ hasNext = getNext σ handle m_iterator hasNext
  delete : ∀ σ, b.delete σ = ((m_iterator.close σ).bind (AsyncModel.remove m_iterator.handle)).bind
    (AsyncModel.remove handle)

theorem sync_or_async (b : Backend) :
    (∃ s, b = sync s) ∨ ∃ handle m_iterator, b.IsAsync handle m_iterator := by
  cases b with
  | sync s => exact .inl ⟨s, rfl⟩
  | asyncIteratorBackend handle m_iterator =>
    exact .inr ⟨handle, m_iterator, rfl, fun _ => .rfl, fun _ => rfl, fun _ _ => rfl, fun _ => rfl⟩
  | asyncQueryResultIteratorBackend handle m_iterator =>
    exact .inr ⟨handle, m_iterator, rfl, fun _ => .rfl, fun _ => rfl, fun _ _ => rfl, fun _ => rfl⟩

namespace IsAsync

variable {handle : Nat} {m_iterator : SyncBackend}

theorem mem_handles (hb : b.IsAsync handle m_iterator) {other : Nat} :
    other ∈ b.handles ↔ other = m_iterator.handle ∨ other = handle := by
  rw [handles, hb.slots]
  simp

theorem ne_of_nodup (hb : b.IsAsync handle m_iterator) (hNodup : b.handles.Nodup) :
    m_iterator.handle ≠ handle := by
  rw [handles, hb.slots] at hNodup
  simpa using hNodup

theorem mem_slots (hb : b.IsAsync handle m_iterator) {s : Nat × Bool} :
    s ∈ b.slots ↔ s = (m_iterator.handle, m_iterator.isQuery) ∨ s = (handle, false) := by
  rw [hb.slots]
  simp

end IsAsync

theorem close_spec (h : Linked σ) (hNodup : b.handles.Nodup) (hSettled : b.Settled σ) :
    ∃ τ hs, b.close σ = some τ ∧ Leaves σ τ b hs ∧
      ∀ s ∈ b.slots, τ.modelPrivate s.1 = true ↔ σ.modelPrivate s.1 = true ∧ s.2 = true := by
  rcases b.sync_or_async with ⟨b, rfl⟩ | ⟨handle, m_iterator, hb⟩
  · obtain ⟨τ, hClose, hCleared⟩ := b.close_cleared h
    refine ⟨τ, b.closes, hClose, ⟨hCleared, fun other hOther => ?_⟩, fun s hSlot => ?_⟩
    · rw [(SyncBackend.mem_closes.mp hOther).2]
      exact List.mem_singleton_self _
    · rw [List.mem_singleton.mp hSlot, hCleared.modelPrivate, SyncBackend.mem_closes]
      simp
  · obtain ⟨τ, hs, hClose, hCleared, hOwn, hLeft, hStays⟩ :=
      closeIterator_spec h (hb.ne_of_nodup hNodup) ((hb.settled σ).mp hSettled)
    refine ⟨τ, hs, (hb.close σ).trans hClose,
      ⟨hCleared, fun other hOther => hb.mem_handles.mpr (hOwn other hOther)⟩, fun s hSlot => ?_⟩
    rcases hb.mem_slots.mp hSlot with rfl | rfl
    · exact hStays
    · simp [hLeft]

theorem getNext_spec (h : Linked σ) {handle : Nat} {b : SyncBackend} (hDistinct : b.handle ≠ handle)
    (hSettled : σ.modelPrivate handle = false → b.isQuery = false →
      σ.modelPrivate b.handle = false) (hasNext : Bool) :
    ∃ answer τ hs, getNext σ handle b hasNext = some (answer, τ) ∧ (answer = true → τ = σ) ∧
      Cleared σ τ hs ∧ (∀ h ∈ hs, h = b.handle ∧ b.isQuery = false) ∧
      (τ.modelPrivate handle = false → b.isQuery = false → τ.modelPrivate b.handle = false) := by
  rw [getNext]
  by_cases hSet : σ.modelPrivate handle = true
  · rw [if_pos hSet]
    cases hasNext with
    | true => exact ⟨true, σ, [], rfl, fun _ => rfl, .refl h, nofun, hSettled⟩
    | false =>
      obtain ⟨τ, hClose, hCleared⟩ := b.close_cleared h
      refine ⟨false, τ, b.closes, ?_, nofun, hCleared, fun other hOther => ?_, fun hGone _ => ?_⟩
      · rw [hClose]
        rfl
      · exact (SyncBackend.mem_closes.mp hOther).symm
      · have hStill : τ.modelPrivate handle = true := by
          rw [hCleared.modelPrivate, SyncBackend.mem_closes]
          exact ⟨hSet, fun hBehind => hDistinct hBehind.2.symm⟩
        rw [hStill] at hGone
        cases hGone
  · rw [if_neg hSet]
    exact ⟨false, σ, [], rfl, nofun, .refl h, nofun, hSettled⟩

/-- What has to be closed after a `next` without an element. -/
theorem next_spec (h : Linked σ) (hNodup : b.handles.Nodup) (hSettled : b.Settled σ)
    (hasNext : Bool) :
    ∃ answer τ hs, b.next σ hasNext = some (answer, τ) ∧ (answer = true → τ = σ) ∧
      Leaves σ τ b hs ∧ b.Settled τ ∧
      ∀ s ∈ b.slots, s.2 = true → (τ.modelPrivate s.1 = true ↔ σ.modelPrivate s.1 = true) := by
  rcases b.sync_or_async with ⟨b, rfl⟩ | ⟨handle, m_iterator, hb⟩
  · exact ⟨hasNext, σ, [], rfl, fun _ => rfl, ⟨.refl h, nofun⟩, trivial, fun _ _ _ => .rfl⟩
  · obtain ⟨answer, τ, hs, hNext, hSame, hCleared, hOwn, hAfter⟩ :=
      getNext_spec h (hb.ne_of_nodup hNodup) ((hb.settled σ).mp hSettled) hasNext
    refine ⟨answer, τ, hs, (hb.next σ hasNext).trans hNext, hSame, ⟨hCleared, fun other hOther => ?_⟩,
      (hb.settled τ).mpr hAfter, fun s hSlot hQuery => ?_⟩
    · exact hb.mem_handles.mpr (.inl (hOwn other hOther).1)
    · rw [hCleared.modelPrivate, and_iff_left]
      intro hMem
      have hListing := (hOwn _ hMem).2
      rcases hb.mem_slots.mp hSlot with rfl | rfl
      · exact absurd (hQuery.symm.trans hListing) (by decide)
      · cases hQuery

/-- The destructor makes every handle leave. -/
theorem delete_spec (h : Linked σ) : ∃ τ hs, b.delete σ = some τ ∧ Leaves σ τ b hs ∧
    ∀ s ∈ b.slots, τ.modelPrivate s.1 = false := by
  rcases b.sync_or_async with ⟨b, rfl⟩ | ⟨handle, m_iterator, hb⟩
  · obtain ⟨τ, hRemove, hCleared⟩ := h.remove b.handle
    refine ⟨τ, [b.handle], hRemove, ⟨hCleared, fun _ hOther => hOther⟩, fun s hSlot => ?_⟩
    rw [List.mem_singleton.mp hSlot, Bool.eq_false_iff, Ne, hCleared.modelPrivate]
    simp
  · obtain ⟨τ, hClose, hFirst⟩ := m_iterator.close_cleared h
    obtain ⟨υ, hBehind, hSecond⟩ := hFirst.linked.remove m_iterator.handle
    obtain ⟨ω, hOwn, hThird⟩ := hSecond.linked.remove handle
    have hAll := (hFirst.trans hSecond).trans hThird
    refine ⟨ω, _, ?_, ⟨hAll, fun other hOther => ?_⟩, fun s hSlot => ?_⟩
    · rw [hb.delete, hClose, Option.bind_some, hBehind, Option.bind_some, hOwn]
    · rw [hb.mem_handles]
      simp only [List.mem_append, List.mem_singleton, SyncBackend.mem_closes] at hOther
      tauto
    · rw [Bool.eq_false_iff, Ne, hAll.modelPrivate]
      rcases hb.mem_slots.mp hSlot with rfl | rfl <;> simp

end Backend

namespace AsyncModel

variable {σ τ : AsyncModel} {it : SharedIterator} {i : Nat}

/-- While objects share it, an iterator that has not ended has all its handles registered, and one
that has ended has those registered that its `close` passes over. -/
def Registered (σ : AsyncModel) (it : SharedIterator) : Prop :=
  ∀ s ∈ it.backend.slots, σ.modelPrivate s.1 = true ↔
    σ.alive = true ∧ 0 < it.objects ∧ (it.ended = false ∨ s.2 = true)

/-- The handles are those of the iterators, in the order of their construction. -/
structure Invariant (σ : AsyncModel) : Prop extends Linked σ where
  owned : (σ.iterators.flatMap fun it => it.backend.handles) = List.range σ.handles.length
  registered : ∀ it ∈ σ.iterators, Registered σ it

theorem invariant_init : Invariant init :=
  ⟨⟨fun _ _ => by simp [init, AsyncModelPrivate.init, modelPrivate], nofun, nofun, fun _ => Nat.zero_le _,
    fun _ _ => List.not_mem_nil⟩, rfl, nofun⟩

namespace Invariant

theorem nodup (h : Invariant σ) (hi : it ∈ σ.iterators) : it.backend.handles.Nodup := by
  have hAll := List.nodup_range (n := σ.handles.length)
  rw [← h.owned, List.nodup_flatMap] at hAll
  exact hAll.1 it hi

/-- Two iterators have no handle in common. -/
theorem disjoint (h : Invariant σ) {j : Nat} {jt : SharedIterator} (hi : σ.iterators[i]? = some it)
    (hj : σ.iterators[j]? = some jt) (hNe : i ≠ j) {handle : Nat}
    (hOwn : handle ∈ it.backend.handles) : handle ∉ jt.backend.handles := by
  have hAll := List.nodup_range (n := σ.handles.length)
  rw [← h.owned, List.nodup_flatMap] at hAll
  have hPairs := List.pairwise_iff_getElem.mp hAll.2
  obtain ⟨hiLt, rfl⟩ := List.getElem?_eq_some_iff.mp hi
  obtain ⟨hjLt, rfl⟩ := List.getElem?_eq_some_iff.mp hj
  intro hOther
  rcases Nat.lt_or_gt_of_ne hNe with hLt | hLt
  · exact hPairs i j hiLt hjLt hLt hOwn hOther
  · exact hPairs j i hjLt hiLt hLt hOther hOwn

theorem settled (h : Invariant σ) (hi : it ∈ σ.iterators) : it.backend.Settled σ := by
  have hRegistered := h.registered it hi
  rcases it.backend.sync_or_async with ⟨b, hb⟩ | ⟨handle, m_iterator, hb⟩
  · rw [hb]
    trivial
  · rw [hb.settled]
    intro hGone hListing
    have hOwn := hRegistered (handle, false) (hb.mem_slots.mpr (.inr rfl))
    have hBehind := hRegistered (m_iterator.handle, m_iterator.isQuery) (hb.mem_slots.mpr (.inl rfl))
    rw [Bool.eq_false_iff, Ne, hOwn] at hGone
    rw [Bool.eq_false_iff, Ne, hBehind]
    simpa [hListing] using hGone

/-- An iterator that makes handles of its own leave leaves the others alone. -/
theorem update (h : Invariant σ) (hi : σ.iterators[i]? = some it) {later : SharedIterator}
    {hs : List Nat} (hLeaves : Backend.Leaves σ τ it.backend hs)
    (hRegistered : Registered τ later) (hBackend : later.backend = it.backend) :
    Invariant (τ.setIterator i later) := by
  have hLinked := hLeaves.cleared.linked
  refine ⟨⟨hLinked.listed, hLinked.gone, hLinked.once, hLinked.atMost, hLinked.beyond⟩, ?_,
    fun jt hjt => ?_⟩
  · have hSame : ((τ.setIterator i later).iterators.map fun it => it.backend.handles) =
        σ.iterators.map fun it => it.backend.handles := by
      rw [setIterator, hLeaves.cleared.iterators, List.map_set, hBackend]
      have hAt : (σ.iterators.map fun it => it.backend.handles)[i]? = some it.backend.handles := by
        rw [List.getElem?_map, hi, Option.map_some]
      obtain ⟨_, hGet⟩ := List.getElem?_eq_some_iff.mp hAt
      rw [← hGet, List.set_getElem_self]
    rw [List.flatMap_def, hSame, ← List.flatMap_def, h.owned]
    exact congrArg List.range hLeaves.cleared.size.symm
  · obtain ⟨j, hj⟩ := List.mem_iff_getElem?.mp hjt
    rw [setIterator, hLeaves.cleared.iterators] at hj
    by_cases hEq : i = j
    · subst hEq
      rw [List.getElem?_set_self (List.getElem?_eq_some_iff.mp hi).1] at hj
      cases hj
      exact hRegistered
    · rw [List.getElem?_set_ne hEq] at hj
      intro s hSlot
      have hOther : s.1 ∉ hs := by
        intro hMem
        exact h.disjoint hi hj hEq (hLeaves.own s.1 hMem) (List.mem_map_of_mem hSlot)
      have hBefore := h.registered jt (List.mem_of_getElem? hj) s hSlot
      rw [← hLeaves.cleared.alive] at hBefore
      exact (hLeaves.cleared.modelPrivate s.1).trans ((and_iff_left hOther).trans hBefore)

/-- Closing ends an iterator. -/
theorem close (h : Invariant σ) (hi : σ.iterators[i]? = some it) :
    ∃ τ, it.close σ i = some τ ∧ Invariant τ := by
  have hMem := List.mem_of_getElem? hi
  obtain ⟨τ, hs, hClose, hLeaves, hStays⟩ :=
    Backend.close_spec h.toLinked (h.nodup hMem) (h.settled hMem)
  have hEnd : Registered τ { it with ended := true } := by
    intro s hSlot
    rw [hStays s hSlot, h.registered it hMem s hSlot, hLeaves.cleared.alive]
    simp only [Bool.true_eq_false, false_or]
    tauto
  refine ⟨_, ?_, h.update hi hLeaves hEnd rfl⟩
  rw [SharedIterator.close, hClose, Option.map_some]

theorem next (h : Invariant σ) (hi : σ.iterators[i]? = some it) (hasNext : Bool) :
    ∃ τ, it.next σ i hasNext = some τ ∧ Invariant τ := by
  have hMem := List.mem_of_getElem? hi
  obtain ⟨answer, τ, hs, hNext, hSame, hFirst, hSettled, hQuery⟩ :=
    Backend.next_spec h.toLinked (h.nodup hMem) (h.settled hMem) hasNext
  rw [SharedIterator.next, hNext, Option.bind_some]
  cases answer with
  | true => exact ⟨σ, by rw [hSame rfl], h⟩
  | false =>
    obtain ⟨υ, later, hClose, hSecond, hStays⟩ :=
      Backend.close_spec hFirst.cleared.linked (h.nodup hMem) hSettled
    have hEnd : Registered υ { it with ended := true } := by
      intro s hSlot
      rw [hStays s hSlot, (hFirst.trans hSecond).cleared.alive]
      have hBefore := h.registered it hMem s hSlot
      have hKeeps := hQuery s hSlot
      simp only [Bool.true_eq_false, false_or]
      tauto
    refine ⟨_, ?_, h.update hi (hFirst.trans hSecond) hEnd rfl⟩
    simp only [SharedIterator.close, hClose, Option.map_some]

theorem copy (h : Invariant σ) (hi : σ.iterators[i]? = some it) (hLive : 0 < it.objects) :
    ∃ τ, it.copy σ i = some τ ∧ Invariant τ := by
  have hCopied : Registered σ { it with objects := it.objects + 1 } := by
    intro s hSlot
    rw [h.registered it (List.mem_of_getElem? hi) s hSlot]
    simp [hLive]
  exact ⟨_, rfl, h.update hi ⟨.refl h.toLinked, nofun⟩ hCopied rfl⟩

theorem destroy (h : Invariant σ) (hi : σ.iterators[i]? = some it) :
    ∃ τ, it.destroy σ i = some τ ∧ Invariant τ := by
  have hMem := List.mem_of_getElem? hi
  simp only [SharedIterator.destroy]
  by_cases hLast : it.objects - 1 = 0
  · obtain ⟨τ, hs, hClose, hFirst, -⟩ :=
      Backend.close_spec h.toLinked (h.nodup hMem) (h.settled hMem)
    obtain ⟨υ, later, hDelete, hSecond, hGone⟩ :=
      Backend.delete_spec (b := it.backend) hFirst.cleared.linked
    have hEnd : Registered υ { it with objects := it.objects - 1 } := by
      intro s hSlot
      rw [hGone s hSlot]
      simp [hLast]
    refine ⟨_, ?_, h.update hi (hFirst.trans hSecond) hEnd rfl⟩
    rw [if_pos hLast, hClose, Option.bind_some, hDelete, Option.map_some]
  · have hLeft : Registered σ { it with objects := it.objects - 1 } := by
      intro s hSlot
      have hBefore : 0 < it.objects := by omega
      rw [h.registered it hMem s hSlot]
      simp [hBefore, Nat.pos_of_ne_zero hLast]
    exact ⟨_, if_neg hLast, h.update hi ⟨.refl h.toLinked, nofun⟩ hLeft rfl⟩

theorem use (h : Invariant σ) (hi : σ.iterators[i]? = some it) (hLive : 0 < it.objects) (use : Use) :
    ∃ τ, σ.use i it use = some τ ∧ Invariant τ := by
  cases use with
  | next hasNext => exact h.next hi hasNext
  | close => exact h.close hi
  | copy => exact h.copy hi hLive
  | destroy => exact h.destroy hi

/-- The handles do not depend on the commands. -/
theorem setPrivate (h : Invariant σ) {d : AsyncModelPrivate}
    (hOpen : d.openIterators = σ.d.openIterators) : Invariant { σ with d := d } := by
  refine ⟨⟨fun hAlive other => ?_, h.gone, fun hAlive other hOther => ?_, h.atMost, h.beyond⟩,
    h.owned, h.registered⟩
  · show other ∈ d.openIterators ↔ _
    rw [hOpen]
    exact h.listed hAlive other
  · show d.openIterators.count other + _ = 1
    rw [hOpen]
    exact h.once hAlive other hOther

end Invariant

/-- The handles behind those of `σ` are new, and they are registered. -/
structure Added (σ τ : AsyncModel) : Prop where
  linked : Linked τ
  alive : τ.alive = true
  iterators : τ.iterators = σ.iterators
  size : σ.handles.length ≤ τ.handles.length
  old : ∀ handle < σ.handles.length, τ.modelPrivate handle = σ.modelPrivate handle
  new : ∀ handle, σ.handles.length ≤ handle → handle < τ.handles.length →
    τ.modelPrivate handle = true

theorem Added.trans {υ : AsyncModel} (hFirst : Added σ τ) (hNext : Added τ υ) : Added σ υ := by
  refine ⟨hNext.linked, hNext.alive, hNext.iterators.trans hFirst.iterators,
    Nat.le_trans hFirst.size hNext.size, fun handle hLt => ?_, fun handle hLe hLt => ?_⟩
  · exact (hNext.old handle (Nat.lt_of_lt_of_le hLt hFirst.size)).trans (hFirst.old handle hLt)
  · by_cases hBefore : handle < τ.handles.length
    · rw [hNext.old handle hBefore, hFirst.new handle hLe hBefore]
    · exact hNext.new handle (Nat.le_of_not_lt hBefore) hLt

theorem length_addHandle (σ : AsyncModel) : σ.addHandle.handles.length = σ.handles.length + 1 :=
  List.length_append

theorem Linked.addHandle (h : Linked σ) (hAlive : σ.alive = true) : Added σ σ.addHandle := by
  have hOld : ∀ handle < σ.handles.length,
      σ.addHandle.modelPrivate handle = σ.modelPrivate handle := by
    intro handle hLt
    rw [modelPrivate, AsyncModel.addHandle, List.getElem?_append_left hLt]
    rfl
  have hNew : σ.addHandle.modelPrivate σ.handles.length = true := by
    rw [modelPrivate, AsyncModel.addHandle, List.getElem?_concat_length]
    rfl
  have hFresh : σ.handles.length ∉ σ.d.openIterators := fun hMem =>
    Nat.lt_irrefl _ (lt_of_modelPrivate ((h.listed hAlive _).mp hMem))
  have hNone : ∀ υ : AsyncModel, ∀ handle, υ.handles.length ≤ handle →
      υ.modelPrivate handle ≠ true :=
    fun υ handle hLe hSet => Nat.not_lt.mpr hLe (lt_of_modelPrivate hSet)
  refine ⟨⟨fun _ handle => ?_, fun hGone => ?_, fun _ handle hLt => ?_, h.atMost,
    fun handle hLe => ?_⟩, hAlive, rfl, ?_, hOld, fun handle hLe hLt => ?_⟩
  · show handle ∈ σ.d.openIterators ++ [σ.handles.length] ↔ _
    rw [List.mem_append, List.mem_singleton]
    by_cases hEq : handle = σ.handles.length
    · subst hEq
      simp [hNew]
    rw [or_iff_left hEq, h.listed hAlive]
    by_cases hLt : handle < σ.handles.length
    · rw [hOld handle hLt]
    · have hOut : σ.addHandle.handles.length ≤ handle := by
        rw [length_addHandle]
        omega
      exact ⟨fun hSet => absurd hSet (hNone σ handle (Nat.le_of_not_lt hLt)),
        fun hSet => absurd hSet (hNone _ handle hOut)⟩
  · exact absurd (hAlive.symm.trans hGone) (by decide)
  · show (σ.d.openIterators ++ [σ.handles.length]).count handle + σ.removed.count handle = 1
    rw [length_addHandle] at hLt
    rw [List.count_append, List.count_singleton]
    by_cases hEq : handle = σ.handles.length
    · subst hEq
      rw [List.count_eq_zero_of_not_mem hFresh,
        List.count_eq_zero_of_not_mem (h.beyond _ (Nat.le_refl _))]
      simp
    · have hBefore := h.once hAlive handle (by omega)
      have hNe : ¬ (σ.handles.length == handle) = true := by simpa using Ne.symm hEq
      rw [if_neg hNe]
      omega
  · rw [length_addHandle] at hLe
    exact h.beyond handle (by omega)
  · rw [length_addHandle]
    omega
  · rw [length_addHandle] at hLt
    obtain rfl : handle = σ.handles.length := by omega
    exact hNew

namespace Invariant

/-- An iterator on new handles. -/
theorem returned (h : Invariant σ) (hWas : σ.alive = true) (hAdded : Added σ τ) {backend : Backend}
    (hHandles : List.range σ.handles.length ++ backend.handles = List.range τ.handles.length) :
    Invariant (τ.returned backend) := by
  have hLinked := hAdded.linked
  have hNew : ∀ s ∈ backend.slots, τ.modelPrivate s.1 = true := by
    intro s hSlot
    have hOwn : s.1 ∈ backend.handles := List.mem_map_of_mem hSlot
    apply hAdded.new
    · by_contra hOld
      have hNodup := List.nodup_range (n := τ.handles.length)
      rw [← hHandles] at hNodup
      exact (List.nodup_append.mp hNodup).2.2 s.1 (List.mem_range.mpr (by omega)) s.1 hOwn rfl
    · rw [← List.mem_range, ← hHandles]
      exact List.mem_append_right _ hOwn
  refine ⟨⟨hLinked.listed, hLinked.gone, hLinked.once, hLinked.atMost, hLinked.beyond⟩, ?_,
    fun it hIt s hSlot => ?_⟩
  · simp only [AsyncModel.returned, List.flatMap_append, hAdded.iterators, h.owned]
    simpa using hHandles
  · show τ.modelPrivate s.1 = true ↔ τ.alive = true ∧ _
    rw [hAdded.alive]
    rcases List.mem_append.mp hIt with hBefore | hLast
    · rw [hAdded.iterators] at hBefore
      have hLt : s.1 < σ.handles.length := by
        rw [← List.mem_range, ← h.owned]
        exact List.mem_flatMap.mpr ⟨it, hBefore, List.mem_map_of_mem hSlot⟩
      have hRegistered := h.registered it hBefore s hSlot
      rw [hWas] at hRegistered
      rw [hAdded.old s.1 hLt]
      exact hRegistered
    · rw [List.mem_singleton.mp hLast] at hSlot ⊢
      simp [hNew s hSlot]

/-- The synchronous methods. -/
theorem returned_sync (h : Invariant σ) (hAlive : σ.alive = true) {b : SyncBackend}
    (hHandle : b.handle = σ.handles.length) : Invariant (σ.addHandle.returned (.sync b)) := by
  apply h.returned hAlive (h.toLinked.addHandle hAlive)
  rw [length_addHandle, List.range_succ]
  simp [Backend.handles, Backend.slots, hHandle]

/-- A command of which the result is an iterator. -/
theorem returned_async (h : Invariant σ) (hAlive : σ.alive = true) {backend : Backend}
    (hHandles : backend.handles = [σ.handles.length, σ.handles.length + 1]) :
    Invariant (σ.addHandle.addHandle.returned backend) := by
  have hFirst := h.toLinked.addHandle hAlive
  apply h.returned hAlive (hFirst.trans (hFirst.linked.addHandle hFirst.alive))
  rw [length_addHandle, length_addHandle, List.range_succ, List.range_succ, hHandles,
    List.append_assoc]
  rfl

theorem execute (h : Invariant σ) (hAlive : σ.alive = true) (kind : CommandClass) :
    Invariant (σ.execute kind) := by
  cases kind with
  | listStatementsCommand => exact h.returned_async hAlive rfl
  | listContextsCommand => exact h.returned_async hAlive rfl
  | executeQueryCommand => exact h.returned_async hAlive rfl
  | _ => exact h

end Invariant

theorem length_foldl_set (hs : List Bool) (its : List Nat) :
    (its.foldl (fun hs it => hs.set it false) hs).length = hs.length := by
  induction its generalizing hs with
  | nil => rfl
  | cons it its ih => rw [List.foldl_cons, ih, List.length_set]

theorem modelPrivate_foldl_set (hs : List Bool) (its : List Nat) (j : Nat) :
    (its.foldl (fun hs it => hs.set it false) hs)[j]?.getD false = true ↔
      hs[j]?.getD false = true ∧ j ∉ its := by
  induction its generalizing hs with
  | nil => simp
  | cons it its ih => rw [List.foldl_cons, ih, modelPrivate_set, List.mem_cons, not_or, and_assoc]

/-- The destructor reaches every handle that would call the model. -/
theorem Invariant.delete (h : Invariant σ) (hAlive : σ.alive = true) : Invariant σ.delete := by
  have hGone : ∀ handle, σ.delete.modelPrivate handle = false := by
    intro handle
    rw [Bool.eq_false_iff]
    intro hSet
    obtain ⟨hBefore, hOut⟩ := (modelPrivate_foldl_set _ _ _).mp hSet
    exact hOut ((h.listed hAlive handle).mpr hBefore)
  have hSize : σ.delete.handles.length = σ.handles.length := length_foldl_set _ _
  refine ⟨⟨nofun, fun _ => hGone, nofun, h.atMost, fun handle hLe => ?_⟩, ?_, fun it hIt s hSlot => ?_⟩
  · rw [hSize] at hLe
    exact h.beyond handle hLe
  · rw [hSize]
    exact h.owned
  · rw [hGone]
    exact ⟨nofun, fun hNot => nomatch hNot.1⟩

theorem Invariant.step (h : Invariant σ) {a : Action} (hStep : σ.step a = some τ) :
    Invariant τ := by
  cases a with
  | submit kind =>
    rw [AsyncModel.step] at hStep
    split at hStep
    · cases hStep
      exact h.setPrivate rfl
    · cases hStep
      exact h
  | timer =>
    rw [AsyncModel.step] at hStep
    split at hStep
    · obtain ⟨d, hd, rfl⟩ := Option.map_eq_some_iff.mp hStep
      exact h.setPrivate (AsyncModelPrivate.openIterators_timer hd)
    · cases hStep
      exact h
  | finish =>
    rw [AsyncModel.step] at hStep
    split at hStep
    · rename_i hAlive
      rw [finishCommand] at hStep
      split at hStep
      · cases hStep
        exact h
      · rename_i c _ _
        obtain ⟨d, hd, rfl⟩ := Option.map_eq_some_iff.mp hStep
        exact (h.execute hAlive c.kind).setPrivate (AsyncModelPrivate.openIterators_finish hd)
    · cases hStep
      exact h
  | listStatements =>
    cases hStep
    split
    · rename_i hAlive
      exact h.returned_sync hAlive rfl
    · exact h
  | listContexts =>
    cases hStep
    split
    · rename_i hAlive
      exact h.returned_sync hAlive rfl
    · exact h
  | executeQuery =>
    cases hStep
    split
    · rename_i hAlive
      exact h.returned_sync hAlive rfl
    · exact h
  | use i use =>
    rw [AsyncModel.step] at hStep
    split at hStep
    · rename_i it hi
      split at hStep
      · rename_i hLive
        obtain ⟨υ, hUse, hAfter⟩ := h.use hi hLive use
        rw [hUse] at hStep
        cases hStep
        exact hAfter
      · cases hStep
        exact h
    · cases hStep
      exact h
  | delete =>
    cases hStep
    split
    · rename_i hCan
      exact h.delete hCan.1
    · exact h

/-- The handles of the iterator are out of the list, and each was removed from it once. -/
def Released (σ : AsyncModel) (it : SharedIterator) : Prop :=
  ∀ handle ∈ it.backend.handles, handle ∉ σ.d.openIterators ∧ σ.removed.count handle = 1

namespace Invariant

theorem lt_of_mem_handles (h : Invariant σ) (hIt : it ∈ σ.iterators) {handle : Nat}
    (hOwn : handle ∈ it.backend.handles) : handle < σ.handles.length := by
  rw [← List.mem_range, ← h.owned]
  exact List.mem_flatMap.mpr ⟨it, hIt, hOwn⟩

theorem left_iff (h : Invariant σ) (hAlive : σ.alive = true) (hIt : it ∈ σ.iterators) {handle : Nat}
    (hOwn : handle ∈ it.backend.handles) :
    (handle ∉ σ.d.openIterators ∧ σ.removed.count handle = 1) ↔ ¬ σ.modelPrivate handle = true := by
  have hOnce := h.once hAlive handle (h.lt_of_mem_handles hIt hOwn)
  rw [← h.listed hAlive handle]
  constructor
  · exact And.left
  · intro hOut
    have hCount := List.count_eq_zero_of_not_mem hOut
    exact ⟨hOut, by omega⟩

theorem released_iff (h : Invariant σ) (hAlive : σ.alive = true) (hIt : it ∈ σ.iterators) :
    σ.Released it ↔ it.objects = 0 ∨ it.ended = true ∧ it.backend.isQuery = false := by
  have hSlots : σ.Released it ↔
      ∀ s ∈ it.backend.slots, it.objects = 0 ∨ it.ended = true ∧ s.2 = false := by
    constructor
    · intro hReleased s hSlot
      have hOwn : s.1 ∈ it.backend.handles := List.mem_map_of_mem hSlot
      have hLeft := (h.left_iff hAlive hIt hOwn).mp (hReleased s.1 hOwn)
      rw [h.registered it hIt s hSlot] at hLeft
      by_cases hObjects : it.objects = 0
      · exact .inl hObjects
      · refine .inr ⟨?_, ?_⟩
        · by_contra hOpen
          exact hLeft ⟨hAlive, Nat.pos_of_ne_zero hObjects, .inl ((Bool.not_eq_true _).mp hOpen)⟩
        · by_contra hQuery
          exact hLeft ⟨hAlive, Nat.pos_of_ne_zero hObjects, .inr ((Bool.not_eq_false _).mp hQuery)⟩
    · intro hEnded handle hOwn
      obtain ⟨s, hSlot, rfl⟩ := List.mem_map.mp hOwn
      rw [h.left_iff hAlive hIt hOwn, h.registered it hIt s hSlot]
      rintro ⟨-, hObjects, hOpen⟩
      rcases hEnded s hSlot with hNone | ⟨hEnd, hListing⟩
      · omega
      · rw [hEnd, hListing] at hOpen
        simp at hOpen
  rw [hSlots]
  cases it.backend <;> simp [Backend.slots, Backend.isQuery] <;> tauto

/-- A write can be executed when every iterator is released. -/
theorem executable_iff (h : Invariant σ) (hAlive : σ.alive = true) {c : Command}
    (hWrite : c.type = .writeCommand) :
    σ.d.executable c = true ↔ ∀ it ∈ σ.iterators, σ.Released it := by
  have hEmpty : σ.d.executable c = true ↔ σ.d.openIterators = [] := by
    simp [AsyncModelPrivate.executable, hWrite]
  rw [hEmpty]
  constructor
  · intro hNone it hIt handle hOwn
    rw [h.left_iff hAlive hIt hOwn, ← h.listed hAlive, hNone]
    exact List.not_mem_nil
  · intro hReleased
    apply List.eq_nil_iff_forall_not_mem.mpr
    intro handle hOpen
    have hLt := lt_of_modelPrivate ((h.listed hAlive handle).mp hOpen)
    rw [← List.mem_range, ← h.owned] at hLt
    obtain ⟨it, hIt, hOwn⟩ := List.mem_flatMap.mp hLt
    exact (hReleased it hIt handle hOwn).1 hOpen

end Invariant

/-- An iterator that has ended is released, once, unless it is one of `executeQuery` and has copies
left; and the writes wait for just the iterators that are not released. -/
theorem iterators_released {actions : List Action} (hRun : Runs.run step init actions = some σ) :
    (∀ i use, ∃ τ, σ.step (.use i use) = some τ) ∧
    (∀ handle, σ.removed.count handle ≤ 1) ∧
    (σ.alive = true → ∀ it ∈ σ.iterators, it.ended = true ∨ it.objects = 0 →
      (σ.Released it ↔ it.backend.isQuery = false ∨ it.objects = 0)) ∧
    (σ.alive = true → ∀ c : Command, c.type = .writeCommand →
      (σ.d.executable c = true ↔ ∀ it ∈ σ.iterators, σ.Released it)) := by
  have h : Invariant σ :=
    Runs.invariant_of_forall (fun h hStep => Invariant.step h hStep) invariant_init hRun
  refine ⟨fun i use => ?_, h.atMost, fun hAlive it hIt hEnd => ?_,
    fun hAlive c hWrite => h.executable_iff hAlive hWrite⟩
  · cases hi : σ.iterators[i]? with
    | none => exact ⟨σ, by rw [AsyncModel.step, hi]⟩
    | some it =>
      simp only [AsyncModel.step, hi]
      split
      · rename_i hLive
        obtain ⟨τ, hUse, -⟩ := h.use hi hLive use
        exact ⟨τ, hUse⟩
      · exact ⟨σ, rfl⟩
  · rw [h.released_iff hAlive hIt]
    tauto

/-- An iterator of `executeQuery` that is closed through one of two copies keeps a write waiting, until
the second copy is destroyed. -/
theorem iterators_released_copies :
    ∃ σ, Runs.run step init [.executeQuery, .use 0 .copy, .submit .addStatementCommand,
        .use 0 .close, .use 0 .destroy, .use 0 .destroy] = some σ ∧
      ∀ it ∈ σ.iterators, σ.Released it := by
  obtain ⟨σ, hRun⟩ : ∃ σ, Runs.run step init [.executeQuery, .use 0 .copy,
      .submit .addStatementCommand, .use 0 .close, .use 0 .destroy, .use 0 .destroy] = some σ :=
    ⟨_, rfl⟩
  refine ⟨σ, hRun, fun it hIt => ?_⟩
  have hObjects : it.objects = 0 ∧ σ.alive = true := by
    cases hRun
    rw [List.mem_singleton.mp hIt]
    exact ⟨rfl, rfl⟩
  exact ((iterators_released hRun).2.2.1 hObjects.2 it hIt (.inr hObjects.1)).mpr (.inr hObjects.1)

/-- The iterator is at its end, and no write can be executed while it exists. -/
theorem iterators_released_query :
    ∃ σ, Runs.run step init [.executeQuery, .submit .addStatementCommand, .use 0 (.next false),
        .use 0 .close, .timer] = some σ ∧
      (∀ it ∈ σ.iterators, it.ended = true ∧ ¬ σ.Released it) ∧ σ.d.openIterators = [0] ∧
      σ.removed = [] ∧ σ.d.executable ⟨0, .addStatementCommand⟩ = false ∧ σ.d.timers = 0 := by
  refine ⟨_, rfl, fun it hIt => ?_, rfl, rfl, rfl, rfl⟩
  rw [List.mem_singleton.mp hIt]
  refine ⟨rfl, fun hReleased => ?_⟩
  exact (hReleased 0 (List.mem_singleton_self _)).1 (List.mem_singleton_self _)

end AsyncModel

end Soprano.Util
