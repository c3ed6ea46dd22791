import Mathlib.Data.List.Basic

/-! Implicitly shared data.  Handles point to objects; a copy of a handle points to the same object,
and the object is cloned when a handle that shares it is changed.  `view` forgets the objects: each
handle has a value of its own, and a command changes the value of its target only. -/

namespace Sharing

variable {α β ω : Type}

/-- The objects, and the one that each handle points to.  A handle that was destroyed points to
none. -/
structure Heap (α : Type) where
  objects : List α
  pointers : List (Option Nat)

/-- What a program does with handles, which are numbered in the order of their creation. -/
inductive Command (ω : Type) where
  | create
  | copy (source : Nat)
  | assign (target source : Nat)
  | destroy (target : Nat)
  | change (target : Nat) (operation : ω)

/-- The existing handle that the command changes. -/
def Command.target : Command ω → Option Nat
  | create | copy _ => none
  | assign target _ | destroy target | change target _ => some target

/-! ### Values -/

/-- A command on the values of the handles. -/
def Command.onValues (initial : α) (apply : ω → α → Option α) (values : List (Option α)) :
    Command ω → Option (List (Option α))
  | create => some (values ++ [some initial])
  | copy source => do
    let a ← values[source]?.join
    some (values ++ [some a])
  | assign target source => do
    let a ← values[source]?.join
    let _ ← values[target]?.join
    some (values.set target (some a))
  | destroy target => do
    let _ ← values[target]?.join
    some (values.set target none)
  | change target operation => do
    let a ← values[target]?.join
    let b ← apply operation a
    some (values.set target (some b))

/-- The operations that led to the value of each handle. -/
def histories (program : List (Command ω)) : Option (List (Option (List ω))) :=
  program.foldlM (Command.onValues [] fun o history => some (history ++ [o])) []

/-- The value that a history of operations leads to. -/
def replay (initial : α) (apply : ω → α → Option α) (history : List ω) : Option α :=
  history.foldlM (fun a o => apply o a) initial

section Values

variable {initial : α} {apply : ω → α → Option α}

theorem replay_append (history : List ω) (o : ω) :
    replay initial apply (history ++ [o]) = (replay initial apply history).bind (apply o) := by
  simp [replay, List.foldlM_append]

theorem getElem?_join_map {f : Option β → Option α} (hNone : f none = none) (l : List (Option β))
    (i : Nat) : (l.map f)[i]?.join = l[i]?.join.bind fun b => f (some b) := by
  rw [List.getElem?_map]
  cases l[i]? with
  | none => rfl
  | some o => cases o <;> simp [hNone]

/-- A command on values that were replayed is a command on their histories. -/
theorem onValues_replay {c : Command ω} {known : List (Option (List ω))}
    {values : List (Option α)}
    (h : c.onValues initial apply (known.map (·.bind (replay initial apply))) = some values) :
    ∃ known', c.onValues [] (fun o history => some (history ++ [o])) known = some known' ∧
      values = known'.map (·.bind (replay initial apply)) := by
  have hJoin : ∀ (i : Nat) (a : α), (known.map (·.bind (replay initial apply)))[i]?.join = some a →
      ∃ history : List ω, known[i]?.join = some history ∧
        replay initial apply history = some a := by
    intro i a hi
    rw [getElem?_join_map rfl] at hi
    exact Option.bind_eq_some_iff.mp hi
  cases c with
  | create =>
    cases h
    exact ⟨_, rfl, by simp [replay]⟩
  | copy source =>
    simp only [Command.onValues, Option.bind_eq_bind, Option.bind_eq_some_iff,
      Option.some.injEq] at h
    obtain ⟨a, hSource, rfl⟩ := h
    obtain ⟨history, hHistory, hReplay⟩ := hJoin _ _ hSource
    exact ⟨known ++ [some history], by simp [Command.onValues, hHistory], by simp [hReplay]⟩
  | assign target source =>
    simp only [Command.onValues, Option.bind_eq_bind, Option.bind_eq_some_iff,
      Option.some.injEq] at h
    obtain ⟨a, hSource, b, hTarget, rfl⟩ := h
    obtain ⟨history, hHistory, hReplay⟩ := hJoin _ _ hSource
    obtain ⟨old, hOld, -⟩ := hJoin _ _ hTarget
    exact ⟨known.set target (some history), by simp [Command.onValues, hHistory, hOld],
      by simp [List.map_set, hReplay]⟩
  | destroy target =>
    simp only [Command.onValues, Option.bind_eq_bind, Option.bind_eq_some_iff,
      Option.some.injEq] at h
    obtain ⟨b, hTarget, rfl⟩ := h
    obtain ⟨old, hOld, -⟩ := hJoin _ _ hTarget
    exact ⟨known.set target none, by simp [Command.onValues, hOld], by simp [List.map_set]⟩
  | change target operation =>
    simp only [Command.onValues, Option.bind_eq_bind, Option.bind_eq_some_iff,
      Option.some.injEq] at h
    obtain ⟨a, hTarget, b, hApply, rfl⟩ := h
    obtain ⟨history, hHistory, hReplay⟩ := hJoin _ _ hTarget
    exact ⟨known.set target (some (history ++ [operation])),
      by simp [Command.onValues, hHistory],
      by simp [List.map_set, hReplay, hApply, replay_append]⟩

/-- The values that a program leads to are those of the histories. -/
theorem foldlM_replay {program : List (Command ω)} {l : List (Option (List ω))}
    {values : List (Option α)}
    (h : program.foldlM (Command.onValues initial apply)
      (l.map (·.bind (replay initial apply))) = some values) :
    ∃ known', program.foldlM (Command.onValues [] fun o history => some (history ++ [o])) l =
      some known' ∧ values = known'.map (·.bind (replay initial apply)) := by
  induction program generalizing l with
  | nil =>
    cases h
    exact ⟨l, rfl, rfl⟩
  | cons c program ih =>
    rw [List.foldlM_cons, Option.bind_eq_bind, Option.bind_eq_some_iff] at h
    obtain ⟨next, hFirst, hRest⟩ := h
    obtain ⟨known₁, hKnown, rfl⟩ := onValues_replay hFirst
    obtain ⟨known', hProgram, hValues⟩ := ih hRest
    exact ⟨known', by rw [List.foldlM_cons, hKnown]; exact hProgram, hValues⟩

/-- A command changes no other value than that of its target. -/
theorem onValues_of_ne {c : Command ω} {values values' : List (Option α)}
    (h : c.onValues initial apply values = some values') {handle : Nat} {a : α}
    (hValue : values[handle]?.join = some a) (hTarget : c.target ≠ some handle) :
    values'[handle]?.join = some a := by
  have hHandle : handle < values.length :=
    (List.getElem?_eq_some_iff.mp (Option.join_eq_some_iff.mp hValue)).1
  cases c with
  | create =>
    cases h
    rwa [List.getElem?_append_left hHandle]
  | copy source =>
    simp only [Command.onValues, Option.bind_eq_bind, Option.bind_eq_some_iff,
      Option.some.injEq] at h
    obtain ⟨b, -, rfl⟩ := h
    rwa [List.getElem?_append_left hHandle]
  | assign target source | destroy target | change target operation =>
    have hne : target ≠ handle := fun hEq => hTarget (congrArg some hEq)
    simp only [Command.onValues, Option.bind_eq_bind, Option.bind_eq_some_iff,
      Option.some.injEq] at h
    obtain ⟨b, -, h⟩ := h
    first
      | obtain rfl := h
      | obtain ⟨d, -, rfl⟩ := h
    rwa [List.getElem?_set_ne hne]

end Values

/-! ### Objects -/

namespace Heap

/-- The value of a handle. -/
def read (heap : Heap α) (handle : Nat) : Option α :=
  heap.pointers[handle]?.join.bind fun p => heap.objects[p]?

/-- The handle has an object of its own, a clone where others point to it too. -/
def detach (heap : Heap α) (handle : Nat) : Option (Heap α × Nat) := do
  let p ← heap.pointers[handle]?.join
  let a ← heap.objects[p]?
  if heap.pointers.count (some p) = 1 then some (heap, p)
  else
    some (⟨heap.objects ++ [a], heap.pointers.set handle (some heap.objects.length)⟩,
      heap.objects.length)

def perform (initial : α) (apply : ω → α → Option α) (heap : Heap α) :
    Command ω → Option (Heap α)
  | .create => some ⟨heap.objects ++ [initial], heap.pointers ++ [some heap.objects.length]⟩
  | .copy source => do
    let p ← heap.pointers[source]?.join
    some ⟨heap.objects, heap.pointers ++ [some p]⟩
  | .assign target source => do
    let p ← heap.pointers[source]?.join
    let _ ← heap.pointers[target]?.join
    some ⟨heap.objects, heap.pointers.set target (some p)⟩
  | .destroy target => do
    let _ ← heap.pointers[target]?.join
    some ⟨heap.objects, heap.pointers.set target none⟩
  | .change target operation => do
    let (heap, p) ← heap.detach target
    let a ← heap.objects[p]?
    let b ← apply operation a
    some ⟨heap.objects.set p b, heap.pointers⟩

def run (initial : α) (apply : ω → α → Option α) (program : List (Command ω)) :
    Option (Heap α) :=
  program.foldlM (perform initial apply) ⟨[], []⟩

/-- The value of each handle. -/
def view (heap : Heap α) : List (Option α) := heap.pointers.map (·.bind (heap.objects[·]?))

/-- Every pointer points to an object. -/
def WellFormed (heap : Heap α) : Prop := ∀ p, some p ∈ heap.pointers → p < heap.objects.length

variable {initial : α} {apply : ω → α → Option α} {heap heap' : Heap α} {c : Command ω}

theorem read_eq (heap : Heap α) (handle : Nat) : heap.read handle = heap.view[handle]?.join := by
  rw [view, getElem?_join_map rfl]
  unfold read
  cases heap.pointers[handle]?.join <;> rfl

theorem eq_of_count_eq_one [BEq β] [LawfulBEq β] {l : List β} {b : β} (h : l.count b = 1) {i j : Nat}
    (hi : l[i]? = some b) (hj : l[j]? = some b) : i = j := by
  induction l generalizing i j with
  | nil => cases hi
  | cons c l ih =>
    have hNotMem : c = b → b ∉ l := by
      rintro rfl
      rw [List.count_cons_self, Nat.add_eq_right, List.count_eq_zero] at h
      exact h
    cases i with
    | zero =>
      cases j with
      | zero => rfl
      | succ j =>
        have hc : c = b := by simpa using hi
        have hj' : l[j]? = some b := by simpa using hj
        exact absurd (List.mem_of_getElem? hj') (hNotMem hc)
    | succ i =>
      cases j with
      | zero =>
        have hc : c = b := by simpa using hj
        have hi' : l[i]? = some b := by simpa using hi
        exact absurd (List.mem_of_getElem? hi') (hNotMem hc)
      | succ j =>
        have hi' : l[i]? = some b := by simpa using hi
        have hc : c ≠ b := fun hc => hNotMem hc (List.mem_of_getElem? hi')
        rw [List.count_cons_of_ne hc] at h
        exact congrArg Nat.succ (ih h hi' (by simpa using hj))

theorem mem_of_join {l : List (Option β)} {i : Nat} {b : β} (h : l[i]?.join = some b) :
    l[i]? = some (some b) ∧ some b ∈ l := by
  have hGet : l[i]? = some (some b) := Option.join_eq_some_iff.mp h
  exact ⟨hGet, List.mem_of_getElem? hGet⟩

/-- New objects do not show through the pointers that exist. -/
theorem map_append (hHeap : heap.WellFormed) (a : α) :
    heap.pointers.map (·.bind ((heap.objects ++ [a])[·]?)) = heap.view := by
  refine List.map_congr_left fun o ho => ?_
  cases o with
  | none => rfl
  | some p => simp [List.getElem?_append_left (hHeap p ho)]

/-- A handle that is the only one to point to its object can change it in place. -/
theorem view_set {handle p : Nat} (hPointer : heap.pointers[handle]? = some (some p))
    (hOnly : heap.pointers.count (some p) = 1) (hp : p < heap.objects.length) (b : α) :
    view ⟨heap.objects.set p b, heap.pointers⟩ = heap.view.set handle (some b) := by
  refine List.ext_getElem? fun i => ?_
  rw [view, view, List.getElem?_set, List.getElem?_map, List.length_map]
  split
  · rename_i hi
    subst hi
    obtain ⟨hLength, hGet⟩ := List.getElem?_eq_some_iff.mp hPointer
    simp [hGet, hLength, hp]
  · rename_i hi
    rw [List.getElem?_map]
    cases hOther : heap.pointers[i]? with
    | none => rfl
    | some o =>
      cases o with
      | none => rfl
      | some q =>
        have hne : p ≠ q := by
          rintro rfl
          exact hi (eq_of_count_eq_one hOnly hPointer hOther)
        simp [List.getElem?_set_ne hne]

/-- Detaching changes no value, and leaves the handle the only one to point to its object. -/
theorem detach_spec (hHeap : heap.WellFormed) {handle p : Nat} {heap' : Heap α}
    (h : heap.detach handle = some (heap', p)) :
    heap'.view = heap.view ∧ heap'.WellFormed ∧ heap'.pointers[handle]? = some (some p) ∧
      heap'.pointers.count (some p) = 1 := by
  simp only [detach, Option.bind_eq_bind, Option.bind_eq_some_iff] at h
  obtain ⟨q, hPointer, a, hObject, h⟩ := h
  obtain ⟨hGet, hMem⟩ := mem_of_join hPointer
  obtain ⟨hHandle, hAt⟩ := List.getElem?_eq_some_iff.mp hGet
  split at h
  · rename_i hOnly
    cases h
    exact ⟨rfl, hHeap, hGet, hOnly⟩
  · cases h
    have hNew : some heap.objects.length ∉ heap.pointers := fun hNew =>
      Nat.lt_irrefl _ (hHeap _ hNew)
    refine ⟨?_, fun q hq => ?_, by simp [hHandle], ?_⟩
    · rw [view, List.map_set, map_append hHeap]
      refine List.ext_getElem? fun i => ?_
      rw [List.getElem?_set]
      split
      · rename_i hi
        subst hi
        simp [view, hHandle, hAt, hObject]
      · rfl
    · rcases List.mem_or_eq_of_mem_set hq with hq | hq
      · have := hHeap q hq
        simp only [List.length_append, List.length_singleton]
        omega
      · cases hq
        simp
    · have hOther : q ≠ heap.objects.length := Nat.ne_of_lt (hHeap q hMem)
      rw [List.count_set hHandle, List.count_eq_zero.mpr hNew, hAt]
      simp [hOther]

theorem getElem?_view (hHeap : heap.WellFormed) {handle p : Nat}
    (h : heap.pointers[handle]?.join = some p) :
    ∃ a, heap.objects[p]? = some a ∧ heap.view[handle]?.join = some a := by
  have hp := hHeap p (mem_of_join h).2
  refine ⟨heap.objects[p], by simp [hp], ?_⟩
  rw [view, getElem?_join_map rfl, h]
  simp [hp]

/-- A command does to the values what it does to the objects. -/
theorem perform_view (hHeap : heap.WellFormed) (h : heap.perform initial apply c = some heap') :
    c.onValues initial apply heap.view = some heap'.view ∧ heap'.WellFormed := by
  cases c with
  | create =>
    cases h
    refine ⟨?_, fun p hp => ?_⟩
    · have hView : view ⟨heap.objects ++ [initial], heap.pointers ++ [some heap.objects.length]⟩ =
          heap.view ++ [some initial] := by
        rw [← map_append hHeap initial]
        simp [view]
      rw [hView]
      rfl
    · rw [List.length_append, List.length_singleton]
      rcases List.mem_append.mp hp with hp | hp
      · exact Nat.lt_succ_of_lt (hHeap p hp)
      · cases List.mem_singleton.mp hp
        exact Nat.lt_succ_self _
  | copy source =>
    simp only [perform, Option.bind_eq_bind, Option.bind_eq_some_iff, Option.some.injEq] at h
    obtain ⟨p, hSource, rfl⟩ := h
    obtain ⟨a, hObject, hValue⟩ := getElem?_view hHeap hSource
    have hView : view ⟨heap.objects, heap.pointers ++ [some p]⟩ = heap.view ++ [some a] := by
      simp [view, hObject]
    refine ⟨by simp [hView, Command.onValues, hValue], fun q hq => ?_⟩
    rcases List.mem_append.mp hq with hq | hq
    · exact hHeap q hq
    · cases List.mem_singleton.mp hq
      exact hHeap p (mem_of_join hSource).2
  | assign target source =>
    simp only [perform, Option.bind_eq_bind, Option.bind_eq_some_iff, Option.some.injEq] at h
    obtain ⟨p, hSource, old, hTarget, rfl⟩ := h
    obtain ⟨a, hObject, hValue⟩ := getElem?_view hHeap hSource
    obtain ⟨b, -, hOld⟩ := getElem?_view hHeap hTarget
    have hView : view ⟨heap.objects, heap.pointers.set target (some p)⟩ =
        heap.view.set target (some a) := by
      simp [view, hObject, List.map_set]
    refine ⟨by simp [hView, Command.onValues, hValue, hOld], fun q hq => ?_⟩
    rcases List.mem_or_eq_of_mem_set hq with hq | hq
    · exact hHeap q hq
    · cases hq
      exact hHeap p (mem_of_join hSource).2
  | destroy target =>
    simp only [perform, Option.bind_eq_bind, Option.bind_eq_some_iff, Option.some.injEq] at h
    obtain ⟨old, hTarget, rfl⟩ := h
    obtain ⟨b, -, hOld⟩ := getElem?_view hHeap hTarget
    have hView : view ⟨heap.objects, heap.pointers.set target none⟩ =
        heap.view.set target none := by
      simp [view, List.map_set]
    refine ⟨by simp [hView, Command.onValues, hOld], fun q hq => ?_⟩
    rcases List.mem_or_eq_of_mem_set hq with hq | hq
    · exact hHeap q hq
    · cases hq
  | change target operation =>
    simp only [perform, Option.bind_eq_bind, Option.bind_eq_some_iff, Option.some.injEq,
      Prod.exists] at h
    obtain ⟨detached, p, hDetach, a, hObject, b, hApply, rfl⟩ := h
    obtain ⟨hView, hDetached, hPointer, hOnly⟩ := detach_spec hHeap hDetach
    have hp := hDetached p (List.mem_of_getElem? hPointer)
    obtain ⟨a', hObject', hValue⟩ := getElem?_view hDetached (Option.join_eq_some_iff.mpr hPointer)
    obtain rfl : a = a' := Option.some.inj (hObject.symm.trans hObject')
    refine ⟨?_, fun q hq => ?_⟩
    · rw [view_set hPointer hOnly hp, hView]
      rw [hView] at hValue
      simp [Command.onValues, hValue, hApply]
    · rw [List.length_set]
      exact hDetached q hq

theorem foldlM_view {program : List (Command ω)} (hHeap : heap.WellFormed)
    (h : program.foldlM (perform initial apply) heap = some heap') :
    program.foldlM (Command.onValues initial apply) heap.view = some heap'.view ∧
      heap'.WellFormed := by
  induction program generalizing heap with
  | nil =>
    cases h
    exact ⟨rfl, hHeap⟩
  | cons c program ih =>
    rw [List.foldlM_cons, Option.bind_eq_bind, Option.bind_eq_some_iff] at h
    obtain ⟨next, hFirst, hRest⟩ := h
    obtain ⟨hValues, hNext⟩ := perform_view hHeap hFirst
    rw [List.foldlM_cons, hValues]
    exact ih hNext hRest

/-- The value of a handle is what its history leads to. -/
theorem read_run {program : List (Command ω)} (h : run initial apply program = some heap)
    {handle : Nat} {a : α} (hRead : heap.read handle = some a) :
    heap.WellFormed ∧ ∃ known history, histories program = some known ∧
      known[handle]?.join = some history ∧ replay initial apply history = some a := by
  have hStart : WellFormed (⟨[], []⟩ : Heap α) := fun p hp => absurd hp List.not_mem_nil
  obtain ⟨hValues, hHeap⟩ := foldlM_view hStart h
  obtain ⟨known, hKnown, hView⟩ := foldlM_replay (l := []) hValues
  rw [read_eq, hView, getElem?_join_map rfl, Option.bind_eq_some_iff] at hRead
  obtain ⟨history, hHistory, hReplay⟩ := hRead
  exact ⟨hHeap, known, history, hKnown, hHistory, hReplay⟩

/-- A command changes no other handle than its target. -/
theorem read_of_ne (hHeap : heap.WellFormed) (h : heap.perform initial apply c = some heap')
    {handle : Nat} {a : α} (hRead : heap.read handle = some a) (hTarget : c.target ≠ some handle) :
    heap'.read handle = some a := by
  rw [read_eq] at hRead ⊢
  exact onValues_of_ne (perform_view hHeap h).1 hRead hTarget

end Heap

end Sharing
