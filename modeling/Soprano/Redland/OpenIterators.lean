import Mathlib.Data.List.Nodup
import Soprano.Library.Runs

/-! The iterators and results of a `RedlandModel`, and its destructor, which walks along lists that each
`close` takes an element out of. -/

namespace Soprano.Redland.OpenIterators

/-- `RedlandStatementIterator`, `NodeIteratorBackend` and `RedlandQueryResult` -/
inductive Kind where
  | statementIterator
  | nodeIterator
  | queryResult
deriving DecidableEq

/-- An iterator or a result: whether it has its stream, and a model. -/
structure Backend where
  kind : Kind
  stream : Bool
  model : Bool
deriving DecidableEq

inductive Event where
  | close (handle : Nat)
  | freeModel
  | freeStorage
deriving DecidableEq

/-- `RedlandModel::Private`: `iterators`, `nodeIterators` and `results`, and all that were ever created, by
their handles. -/
structure State where
  lists : Kind → List Nat
  backends : List Backend
  events : List Event

namespace State

def init : State := ⟨fun _ => [], [], []⟩

/-- `listStatements`, `listContexts` and `executeQuery` -/
def create (s : State) (kind : Kind) : State :=
  { s with
    lists := Function.update s.lists kind (s.lists kind ++ [s.backends.length])
    backends := s.backends ++ [⟨kind, true, true⟩] }

/-- `removeIterator` and `removeQueryResult` -/
def remove (s : State) (kind : Kind) (handle : Nat) : State :=
  { s with lists := Function.update s.lists kind ((s.lists kind).filter (· ≠ handle)) }

/-- `close` of an iterator or a result -/
def close (s : State) (handle : Nat) : State :=
  match s.backends[handle]? with
  | none => s
  | some b =>
    let s := if b.model then s.remove b.kind handle else s
    { s with
      backends := s.backends.set handle { b with stream := false, model := false }
      events := s.events ++ [.close handle] }

end State

/-! ### The destructor -/

/-- What an access outside a list, or a loop that does not end, stops with. -/
inductive Fault where
  | outOfRange
  | unfinished
deriving DecidableEq

/-- The walk along a list from the place `it` on.  Where an element is taken out, either the ones in front of
it move, so that its place is the one before the next element, or the ones behind it, so that its place is
the next element's: which, is up to `QList`, that has iterators invalid then. -/
def walk (movesFront : (size index : Nat) → Bool) (kind : Kind) :
    (fuel : Nat) → (it : Nat) → State → Except Fault State
  | 0, it, s => if it = (s.lists kind).length then .ok s else .error .unfinished
  | fuel + 1, it, s =>
    if it = (s.lists kind).length then .ok s
    else
      match (s.lists kind)[it]? with
      | none => .error .outOfRange
      | some handle =>
        let removed := decide (((s.close handle).lists kind).length < (s.lists kind).length)
        let stays := removed && movesFront (s.lists kind).length it
        walk movesFront kind fuel (if stays then it else it + 1) (s.close handle)

/-- `RedlandModel::~RedlandModel` -/
def destroy (movesFront : (size index : Nat) → Bool) (s : State) : Except Fault State := do
  let s ← walk movesFront .statementIterator ((s.lists .statementIterator).length + 1) 0 s
  let s ← walk movesFront .nodeIterator ((s.lists .nodeIterator).length + 1) 0 s
  let s ← walk movesFront .queryResult ((s.lists .queryResult).length + 1) 0 s
  .ok { s with events := s.events ++ [.freeModel, .freeStorage] }

/-- What is done with a model before it is destroyed. -/
inductive Action where
  | create (kind : Kind)
  | close (handle : Nat)

def step (s : State) : Action → Option State
  | .create kind => some (s.create kind)
  | .close handle => some (s.close handle)

/-- The iterator or result has a model. -/
def State.IsOpen (s : State) (handle : Nat) : Prop := ∃ b ∈ s.backends[handle]?, b.model = true

/-- The destructor closes what is open, each once, before it frees the model and the storage, and nothing is
left that has a model. -/
def ClosesAll (movesFront : (size index : Nat) → Bool) (s : State) : Prop :=
  ∃ s' closed, destroy movesFront s = .ok s' ∧
    s'.events = s.events ++ List.map .close closed ++ [.freeModel, .freeStorage] ∧
    closed.Nodup ∧ (∀ handle, handle ∈ closed ↔ s.IsOpen handle) ∧ ∀ handle, ¬ s'.IsOpen handle

/-! ### The lists hold what is open -/

/-- The lists hold each open iterator and result once, by its kind. -/
structure Invariant (s : State) : Prop where
  nodup : ∀ kind, (s.lists kind).Nodup
  listed : ∀ kind handle, handle ∈ s.lists kind ↔ ∃ b ∈ s.backends[handle]?, b.kind = kind ∧ b.model = true

variable {s s' : State} {kind : Kind} {handle : Nat} {movesFront : (size index : Nat) → Bool}

theorem invariant_init : Invariant .init := ⟨fun _ => .nil, fun kind handle => by simp [State.init]⟩

theorem Invariant.isOpen_iff (h : Invariant s) : s.IsOpen handle ↔ ∃ kind, handle ∈ s.lists kind := by
  constructor
  · rintro ⟨b, hb, hModel⟩
    exact ⟨b.kind, (h.listed _ _).mpr ⟨b, hb, rfl, hModel⟩⟩
  · rintro ⟨kind, hMem⟩
    obtain ⟨b, hb, -, hModel⟩ := (h.listed _ _).mp hMem
    exact ⟨b, hb, hModel⟩

theorem Invariant.create (h : Invariant s) (kind : Kind) : Invariant (s.create kind) := by
  have hNew : ∀ k, s.backends.length ∉ s.lists k := by
    intro k hMem
    obtain ⟨b, hb, -⟩ := (h.listed _ _).mp hMem
    simp at hb
  refine ⟨fun k => ?_, fun k handle => ?_⟩
  · by_cases hk : k = kind
    · subst hk
      simp only [State.create, Function.update_self]
      refine List.nodup_append.mpr ⟨h.nodup k, List.nodup_singleton _, fun a ha b hb => ?_⟩
      rintro rfl
      exact hNew k (List.mem_singleton.mp hb ▸ ha)
    · simp only [State.create, Function.update_of_ne hk]
      exact h.nodup k
  · have hListed := h.listed k handle
    rcases Nat.lt_trichotomy handle s.backends.length with hLt | rfl | hGt
    · have hBackend : (s.create kind).backends[handle]? = s.backends[handle]? :=
        List.getElem?_append_left hLt
      rw [hBackend, ← hListed]
      by_cases hk : k = kind
      · subst hk
        simp only [State.create, Function.update_self, List.mem_append, List.mem_singleton]
        exact or_iff_left (by omega)
      · simp only [State.create, Function.update_of_ne hk]
    · have hBackend : (s.create kind).backends[s.backends.length]? = some ⟨kind, true, true⟩ := by
        simp [State.create]
      rw [hBackend]
      by_cases hk : k = kind
      · subst hk
        simp [State.create]
      · simp only [State.create, Function.update_of_ne hk]
        refine iff_of_false (hNew k) ?_
        rintro ⟨b, hb, hKind, -⟩
        obtain rfl := Option.some.inj hb
        exact hk hKind.symm
    · have hNone : s.backends[handle]? = none := List.getElem?_eq_none (by omega)
      have hNone' : (s.create kind).backends[handle]? = none :=
        List.getElem?_eq_none (by simp [State.create]; omega)
      rw [hNone] at hListed
      rw [hNone']
      by_cases hk : k = kind
      · subst hk
        simp only [State.create, Function.update_self, List.mem_append, List.mem_singleton]
        rw [hListed, or_iff_left (by omega)]
      · simp only [State.create, Function.update_of_ne hk]
        exact hListed

/-- What `close` does with an iterator or result. -/
theorem Invariant.close_eq (h : Invariant s) {b : Backend} (hb : s.backends[handle]? = some b) :
    (∀ kind, (s.close handle).lists kind = (s.lists kind).filter (· ≠ handle)) ∧
      (s.close handle).backends = s.backends.set handle { b with stream := false, model := false } ∧
      (s.close handle).events = s.events ++ [.close handle] := by
  have hOther : ∀ kind, ¬ (b.kind = kind ∧ b.model = true) →
      (s.lists kind).filter (· ≠ handle) = s.lists kind := by
    intro kind hNot
    refine List.filter_eq_self.mpr fun a ha => decide_eq_true ?_
    rintro rfl
    obtain ⟨b', hb', hKept⟩ := (h.listed _ _).mp ha
    obtain rfl := Option.some.inj (hb.symm.trans hb')
    exact hNot hKept
  obtain ⟨own, stream, model⟩ := b
  simp only [State.close, hb]
  refine ⟨fun kind => ?_, ?_, ?_⟩
  · cases model with
    | false => exact (hOther kind (by simp)).symm
    | true =>
      by_cases hKind : kind = own
      · subst hKind
        simp [State.remove]
      · rw [hOther kind fun hKept => hKind hKept.1.symm]
        exact Function.update_of_ne hKind _ _
  · cases model <;> rfl
  · cases model <;> rfl

theorem Invariant.close (h : Invariant s) (handle : Nat) : Invariant (s.close handle) := by
  cases hb : s.backends[handle]? with
  | none =>
    rw [State.close, hb]
    exact h
  | some b =>
    obtain ⟨hLists, hBackends, -⟩ := h.close_eq hb
    refine ⟨fun kind => hLists kind ▸ (h.nodup kind).filter _, fun kind other => ?_⟩
    rw [hLists, hBackends, List.mem_filter, decide_eq_true_iff, h.listed]
    by_cases hSame : other = handle
    · subst hSame
      refine iff_of_false (fun hMem => hMem.2 rfl) ?_
      rintro ⟨b', hb', -, hModel⟩
      rw [List.getElem?_set_self (List.getElem?_eq_some_iff.mp hb).1] at hb'
      obtain rfl := Option.some.inj hb'
      cases hModel
    · rw [List.getElem?_set_ne (Ne.symm hSame), and_iff_left hSame]

theorem Invariant.step (h : Invariant s) {a : Action} (hStep : OpenIterators.step s a = some s') :
    Invariant s' := by
  cases a with
  | create kind =>
    cases hStep
    exact h.create kind
  | close handle =>
    cases hStep
    exact h.close handle

/-- An element of a list, when it is closed, leaves the others, and the other lists. -/
theorem Invariant.close_listed (h : Invariant s) (hMem : handle ∈ s.lists kind) :
    (s.close handle).lists kind = (s.lists kind).filter (· ≠ handle) ∧
      (∀ other, other ≠ kind → (s.close handle).lists other = s.lists other) ∧
      (s.close handle).events = s.events ++ [.close handle] := by
  obtain ⟨b, hb, hKind, -⟩ := (h.listed kind handle).mp hMem
  obtain ⟨hLists, -, hEvents⟩ := h.close_eq hb
  refine ⟨hLists kind, fun other hOther => ?_, hEvents⟩
  rw [hLists]
  refine List.filter_eq_self.mpr fun a ha => decide_eq_true ?_
  rintro rfl
  obtain ⟨b', hb', hKind', -⟩ := (h.listed other a).mp ha
  obtain rfl := Option.some.inj (hb.symm.trans hb')
  exact hOther (hKind'.symm.trans hKind)

theorem Invariant.close_head (h : Invariant s) {first : Nat} {rest : List Nat}
    (hList : s.lists kind = first :: rest) : (s.close first).lists kind = rest := by
  have hNodup := h.nodup kind
  rw [hList] at hNodup
  rw [(h.close_listed (hList ▸ List.mem_cons_self)).1, hList, List.filter_cons_of_neg (by simp)]
  refine List.filter_eq_self.mpr fun a ha => decide_eq_true ?_
  rintro rfl
  exact (List.nodup_cons.mp hNodup).1 ha

/-- No iterator or result is in two lists. -/
theorem Invariant.nodup_all (h : Invariant s) :
    (s.lists .statementIterator ++ s.lists .nodeIterator ++ s.lists .queryResult).Nodup := by
  have hApart : ∀ kind other, kind ≠ other → ∀ a ∈ s.lists kind, ∀ b ∈ s.lists other, a ≠ b := by
    rintro kind other hNe a ha b hb rfl
    obtain ⟨x, hx, rfl, -⟩ := (h.listed kind a).mp ha
    obtain ⟨y, hy, rfl, -⟩ := (h.listed other a).mp hb
    obtain rfl := Option.some.inj (hx.symm.trans hy)
    exact hNe rfl
  refine List.nodup_append.mpr ⟨List.nodup_append.mpr ⟨h.nodup _, h.nodup _, ?_⟩, h.nodup _, ?_⟩
  · exact hApart _ _ (by decide)
  · intro a ha
    rcases List.mem_append.mp ha with ha | ha
    · exact hApart _ _ (by decide) a ha
    · exact hApart _ _ (by decide) a ha

/-! ### The walk along a list -/

theorem walk_at_end {fuel it : Nat} (h : it = (s.lists kind).length) :
    walk movesFront kind fuel it s = .ok s := by
  cases fuel <;> exact if_pos h

variable (kind movesFront) in
/-- Where taking the first element out never moves the others, the walk closes them all. -/
theorem walk_all (h : Invariant s) {fuel : Nat} (hFuel : (s.lists kind).length ≤ fuel)
    (hMoves : ∀ size, 0 < size → size ≤ (s.lists kind).length → movesFront size 0 = true) :
    ∃ s', walk movesFront kind fuel 0 s = .ok s' ∧ Invariant s' ∧ s'.lists kind = [] ∧
      (∀ other, other ≠ kind → s'.lists other = s.lists other) ∧
      s'.events = s.events ++ (s.lists kind).map .close := by
  induction fuel generalizing s with
  | zero =>
    have hNil : s.lists kind = [] := List.eq_nil_of_length_eq_zero (by omega)
    exact ⟨s, walk_at_end (by rw [hNil]; rfl), h, hNil, fun _ _ => rfl, by simp [hNil]⟩
  | succ fuel ih =>
    cases hList : s.lists kind with
    | nil => exact ⟨s, walk_at_end (by rw [hList]; rfl), h, hList, fun _ _ => rfl, by simp⟩
    | cons first rest =>
      have hRest := h.close_head hList
      obtain ⟨-, hOthers, hEvents⟩ := h.close_listed (hList ▸ List.mem_cons_self)
      rw [hList, List.length_cons] at hFuel hMoves
      obtain ⟨s', hWalk, hInv, hNil, hKept, hClosed⟩ := ih (h.close first) (by rw [hRest]; omega)
        (by rw [hRest]; exact fun size hPos hLe => hMoves size hPos (by omega))
      refine ⟨s', ?_, hInv, hNil, fun other hOther => (hKept other hOther).trans (hOthers other hOther), ?_⟩
      · rw [walk, if_neg (by simp [hList]), hList]
        simp only [List.getElem?_cons_zero, hRest, List.length_cons, Nat.lt_add_one, decide_true,
          Bool.true_and, hMoves _ (Nat.succ_pos _) (Nat.le_refl _), if_true]
        exact hWalk
      · rw [hClosed, hEvents, hRest]
        simp

/-- A walk keeps the lists in order, and the other lists as they are. -/
theorem walk_frame (h : Invariant s) {fuel it : Nat} (hWalk : walk movesFront kind fuel it s = .ok s') :
    Invariant s' ∧ ∀ other, other ≠ kind → s'.lists other = s.lists other := by
  induction fuel generalizing s it with
  | zero =>
    rw [walk] at hWalk
    split at hWalk
    · cases hWalk
      exact ⟨h, fun _ _ => rfl⟩
    · cases hWalk
  | succ fuel ih =>
    rw [walk] at hWalk
    split at hWalk
    · cases hWalk
      exact ⟨h, fun _ _ => rfl⟩
    · split at hWalk
      · cases hWalk
      · next handle hHandle =>
        obtain ⟨-, hOthers, -⟩ := h.close_listed (List.mem_of_getElem? hHandle)
        obtain ⟨hInv, hKept⟩ := ih (h.close handle) hWalk
        exact ⟨hInv, fun other hOther => (hKept other hOther).trans (hOthers other hOther)⟩

/-- Behind the first place, a walk does not come back to the first element. -/
theorem walk_kept (h : Invariant s) {fuel it first : Nat} {rest : List Nat}
    (hList : s.lists kind = first :: rest) (hit : 0 < it)
    (hWalk : walk movesFront kind fuel it s = .ok s') : s'.lists kind ≠ [] := by
  induction fuel generalizing s it rest with
  | zero =>
    rw [walk] at hWalk
    split at hWalk
    · cases hWalk
      simp [hList]
    · cases hWalk
  | succ fuel ih =>
    rw [walk] at hWalk
    split at hWalk
    · cases hWalk
      simp [hList]
    · split at hWalk
      · cases hWalk
      · next handle hHandle =>
        have hLater : handle ≠ first := by
          rintro rfl
          have hNodup := h.nodup kind
          rw [hList] at hHandle hNodup
          obtain ⟨it, rfl⟩ := Nat.exists_eq_succ_of_ne_zero (Nat.ne_of_gt hit)
          exact (List.nodup_cons.mp hNodup).1 (List.mem_of_getElem? hHandle)
        have hClosed : (s.close handle).lists kind = first :: rest.filter (· ≠ handle) := by
          rw [(h.close_listed (List.mem_of_getElem? hHandle)).1, hList,
            List.filter_cons_of_pos (by simpa using Ne.symm hLater)]
        exact ih (h.close handle) hClosed (by split <;> omega) hWalk

/-- A walk that closes the whole list never had others moved by the first element. -/
theorem moves_of_walk (h : Invariant s) {fuel : Nat} (hWalk : walk movesFront kind fuel 0 s = .ok s')
    (hNil : s'.lists kind = []) {size : Nat} (hPos : 0 < size) (hLe : size ≤ (s.lists kind).length) :
    movesFront size 0 = true := by
  induction fuel generalizing s with
  | zero =>
    rw [walk] at hWalk
    split at hWalk
    · omega
    · cases hWalk
  | succ fuel ih =>
    cases hList : s.lists kind with
    | nil =>
      rw [hList, List.length_nil] at hLe
      omega
    | cons first rest =>
      have hRest := h.close_head hList
      rw [walk, if_neg (by simp [hList]), hList] at hWalk
      simp only [List.getElem?_cons_zero, hRest, List.length_cons, Nat.lt_add_one, decide_true,
        Bool.true_and] at hWalk
      cases hMoves : movesFront (rest.length + 1) 0 with
      | true =>
        rw [hMoves, if_pos rfl] at hWalk
        rw [hList, List.length_cons] at hLe
        rcases Nat.lt_or_eq_of_le hLe with hLt | rfl
        · exact ih (h.close first) hWalk (by rw [hRest]; omega)
        · exact hMoves
      | false =>
        rw [hMoves, if_neg (by simp)] at hWalk
        cases rest with
        | nil =>
          -- the place is behind the end of the empty list
          cases fuel <;> simp [walk, hRest] at hWalk
        | cons next rest => exact absurd hNil (walk_kept (h.close first) hRest (by omega) hWalk)

theorem not_isOpen_iff (h : Invariant s) :
    (∀ handle, ¬ s.IsOpen handle) ↔ ∀ kind, s.lists kind = [] := by
  constructor
  · intro hNone kind
    refine List.eq_nil_iff_forall_not_mem.mpr fun handle hMem => ?_
    exact hNone handle (h.isOpen_iff.mpr ⟨kind, hMem⟩)
  · rintro hNil handle hOpen
    obtain ⟨kind, hMem⟩ := h.isOpen_iff.mp hOpen
    rw [hNil] at hMem
    cases hMem

theorem exists_of_bind {α β : Type} {x : Except Fault α} {f : α → Except Fault β} {r : β}
    (h : (x >>= f) = .ok r) : ∃ a, x = .ok a ∧ f a = .ok r := by
  cases x with
  | error fault => cases h
  | ok a => exact ⟨a, rfl, h⟩

/-- The destructor closes everything exactly where, as long as a list has elements, taking out the first one
does not move the others. -/
theorem closesAll_iff {actions : List Action} (hRun : Runs.run step State.init actions = some s)
    (movesFront : (size index : Nat) → Bool) :
    ClosesAll movesFront s ↔
      ∀ kind size, 0 < size → size ≤ (s.lists kind).length → movesFront size 0 = true := by
  have h : Invariant s := Runs.invariant_of_forall (fun h hStep => h.step hStep) invariant_init hRun
  constructor
  · rintro ⟨s', closed, hDestroy, -, -, -, hClosed⟩
    rw [destroy] at hDestroy
    obtain ⟨s₁, hFirst, hDestroy⟩ := exists_of_bind hDestroy
    obtain ⟨s₂, hSecond, hDestroy⟩ := exists_of_bind hDestroy
    obtain ⟨s₃, hThird, hDestroy⟩ := exists_of_bind hDestroy
    cases hDestroy
    obtain ⟨hInv₁, hKept₁⟩ := walk_frame h hFirst
    obtain ⟨hInv₂, hKept₂⟩ := walk_frame hInv₁ hSecond
    obtain ⟨hInv₃, hKept₃⟩ := walk_frame hInv₂ hThird
    have hNil : ∀ kind, s₃.lists kind = [] := (not_isOpen_iff hInv₃).mp hClosed
    -- each list is emptied by its own walk
    intro kind size hPos hLe
    cases kind with
    | statementIterator =>
      refine moves_of_walk h hFirst ?_ hPos hLe
      rw [← hKept₂ _ (by decide), ← hKept₃ _ (by decide)]
      exact hNil _
    | nodeIterator =>
      refine moves_of_walk hInv₁ hSecond ?_ hPos (by rw [hKept₁ _ (by decide)]; exact hLe)
      rw [← hKept₃ _ (by decide)]
      exact hNil _
    | queryResult =>
      refine moves_of_walk hInv₂ hThird (hNil _) hPos ?_
      rw [hKept₂ _ (by decide), hKept₁ _ (by decide)]
      exact hLe
  · intro hMoves
    obtain ⟨s₁, hFirst, hInv₁, hNil₁, hKept₁, hEvents₁⟩ :=
      walk_all .statementIterator movesFront h (Nat.le_succ _) (hMoves _)
    obtain ⟨s₂, hSecond, hInv₂, hNil₂, hKept₂, hEvents₂⟩ :=
      walk_all .nodeIterator movesFront hInv₁ (Nat.le_succ _)
        (by rw [hKept₁ _ (by decide)]; exact hMoves _)
    obtain ⟨s₃, hThird, hInv₃, hNil₃, hKept₃, hEvents₃⟩ :=
      walk_all .queryResult movesFront hInv₂ (Nat.le_succ _)
        (by rw [hKept₂ _ (by decide), hKept₁ _ (by decide)]; exact hMoves _)
    rw [hKept₁ _ (by decide)] at hEvents₂
    rw [hKept₂ _ (by decide), hKept₁ _ (by decide)] at hEvents₃
    have hNil : ∀ kind, s₃.lists kind = [] := by
      intro kind
      cases kind with
      | statementIterator => rw [hKept₃ _ (by decide), hKept₂ _ (by decide), hNil₁]
      | nodeIterator => rw [hKept₃ _ (by decide), hNil₂]
      | queryResult => exact hNil₃
    refine ⟨{ s₃ with events := s₃.events ++ [.freeModel, .freeStorage] },
      s.lists .statementIterator ++ s.lists .nodeIterator ++ s.lists .queryResult, ?_, ?_, ?_, ?_,
      (not_isOpen_iff hInv₃).mpr hNil⟩
    · simp only [destroy, hFirst, hSecond, hThird, bind, Except.bind]
    · simp [hEvents₃, hEvents₂, hEvents₁]
    · exact h.nodup_all
    · intro handle
      rw [h.isOpen_iff, List.mem_append, List.mem_append]
      constructor
      · rintro ((hMem | hMem) | hMem) <;> exact ⟨_, hMem⟩
      · rintro ⟨kind, hMem⟩
        cases kind with
        | statementIterator => exact .inl (.inl hMem)
        | nodeIterator => exact .inl (.inr hMem)
        | queryResult => exact .inr hMem

/-- Two statement iterators and a result, one iterator closed, of a `QList` that moves the elements behind
the one it takes out. -/
theorem closesAll_iff_example :
    ∃ s, Runs.run step State.init [.create .statementIterator, .create .queryResult,
        .create .statementIterator, .close 0] = some s ∧ ¬ ClosesAll (fun _ _ => false) s := by
  obtain ⟨s, hRun, hLength⟩ : ∃ s, Runs.run step State.init [.create .statementIterator, .create .queryResult,
      .create .statementIterator, .close 0] = some s ∧ 1 ≤ (s.lists .queryResult).length :=
    ⟨_, rfl, by decide⟩
  refine ⟨s, hRun, fun h => ?_⟩
  cases (closesAll_iff hRun (fun _ _ => false)).mp h .queryResult 1 (by decide) hLength

/-- One open statement iterator, whose removal leaves the walk behind the end of the list. -/
theorem not_closesAll : ¬ ∀ movesFront actions s, Runs.run step State.init actions = some s →
    ClosesAll movesFront s := by
  intro h
  obtain ⟨s', closed, hDestroy, -⟩ := h (fun _ _ => false) [.create .statementIterator] _ rfl
  have hFault : destroy (fun _ _ => false) (State.init.create .statementIterator) = .error .outOfRange := rfl
  rw [hFault] at hDestroy
  cases hDestroy

end Soprano.Redland.OpenIterators
