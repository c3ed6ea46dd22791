import Mathlib.Data.List.AList
import Soprano.Library.Sharing
import Soprano.Node

/-! The shared data of a `BindingSet`: the names, the values, and a map from each name to the position
of its value. -/

namespace Soprano

namespace BindingSet

open Sharing

section Sets

variable [Qt]

/-- `BindingSet::Private` -/
structure Private where
  bindingMap : AList fun _ : QString => Nat
  names : List QString
  values : List Node

namespace Private

def new : Private := ⟨∅, [], []⟩

def bindingNames (d : Private) : List QString := d.names

/-- `value( int )` -/
def valueAt (d : Private) (offset : Int) : Node :=
  if 0 ≤ offset ∧ offset < d.values.length then d.values[offset.toNat]?.getD .empty else .empty

/-- `value( const QString& )` -/
def value (d : Private) (name : QString) : Node :=
  match d.bindingMap.lookup name with
  | some i => d.values[i]?.getD .empty
  | none => .empty

def contains (d : Private) (name : QString) : Bool := (d.bindingMap.lookup name).isSome

def count (d : Private) : Nat := d.bindingMap.keys.length

def insert (d : Private) (name : QString) (value : Node) : Private :=
  ⟨d.bindingMap.insert name d.values.length, d.names ++ [name], d.values ++ [value]⟩

/-- `replace( int, const Node& )`, whose assertions fail for an offset that does not exist. -/
def replaceAt (d : Private) (offset : Int) (value : Node) : Option Private :=
  if 0 ≤ offset ∧ offset < d.values.length then
    some { d with values := d.values.set offset.toNat value }
  else none

/-- `replace( const QString&, const Node& )`, whose assertion fails for a name that is not bound. -/
def replace (d : Private) (name : QString) (value : Node) : Option Private :=
  match d.bindingMap.lookup name with
  | some i => d.replaceAt i value
  | none => none

/-- The binding set that the data stands for. -/
def toBindingSet (d : Private) : BindingSet := ⟨d.names.zip d.values⟩

end Private

/-- A call that changes a set. -/
inductive Change where
  | insert (name : QString) (value : Node)
  | replaceAt (offset : Int) (value : Node)
  | replace (name : QString) (value : Node)

namespace Change

def apply : Change → Private → Option Private
  | insert name value, d => some (d.insert name value)
  | replaceAt offset value, d => d.replaceAt offset value
  | replace name value, d => d.replace name value

/-- The name that the change binds. -/
def inserted : Change → Option QString
  | insert name _ => some name
  | _ => none

/-- The node of the latest change that names `name` or its position; the changes come in the order
from the latest to the first. -/
def latest (name : QString) : List Change → Option Node
  | [] => none
  | insert other value :: earlier | replace other value :: earlier =>
    if name = other then some value else latest name earlier
  | replaceAt offset value :: earlier =>
    if (earlier.reverse.filterMap inserted)[offset.toNat]? = some name then some value
    else latest name earlier

end Change

/-- The names that the changes bind, in order. -/
def insertedNames (changes : List Change) : List QString := changes.filterMap Change.inserted

/-! ### What the data holds -/

/-- The position is the last one of the name. -/
def IsLast (names : List QString) (name : QString) (i : Nat) : Prop :=
  names[i]? = some name ∧ ∀ j, i < j → names[j]? ≠ some name

omit [Qt] in
theorem isLast_append {names : List QString} {name other : QString} {i : Nat} :
    IsLast (names ++ [other]) name i ↔
      (name = other ∧ i = names.length) ∨ (name ≠ other ∧ IsLast names name i) := by
  have hEnd : (names ++ [other])[names.length]? = some other := by simp
  have hOld : ∀ j, j < names.length → (names ++ [other])[j]? = names[j]? := fun j hj =>
    List.getElem?_append_left hj
  have hBound : ∀ {l : List QString} {j}, l[j]? = some name → j < l.length := fun h =>
    (List.getElem?_eq_some_iff.mp h).1
  constructor
  · rintro ⟨hAt, hLater⟩
    have hi : i < names.length + 1 := by simpa using hBound hAt
    by_cases hEq : i = names.length
    · subst hEq
      rw [hEnd, Option.some.injEq] at hAt
      exact .inl ⟨hAt.symm, rfl⟩
    · have hLast := hLater names.length (by omega)
      rw [hEnd] at hLast
      rw [hOld i (by omega)] at hAt
      refine .inr ⟨fun hName => hLast (congrArg some hName.symm), hAt, fun j hj hName => ?_⟩
      have hj' := hBound hName
      exact hLater j hj (by rw [hOld j hj']; exact hName)
  · rintro (⟨rfl, rfl⟩ | ⟨hne, hAt, hLater⟩)
    · refine ⟨hEnd, fun j hj hName => ?_⟩
      have := hBound hName
      simp only [List.length_append, List.length_singleton] at this
      omega
    · have hi := hBound hAt
      refine ⟨by rw [hOld i hi]; exact hAt, fun j hj hName => ?_⟩
      have hj' := hBound hName
      simp only [List.length_append, List.length_singleton] at hj'
      by_cases hEq : j = names.length
      · subst hEq
        rw [hEnd, Option.some.injEq] at hName
        exact hne hName.symm
      · rw [hOld j (by omega)] at hName
        exact hLater j hj hName

omit [Qt] in
theorem IsLast.unique {names : List QString} {name : QString} {i j : Nat}
    (hi : IsLast names name i) (hj : IsLast names name j) : i = j := by
  by_contra hne
  rcases Nat.lt_or_gt_of_ne hne with h | h
  · exact hi.2 j h hj.1
  · exact hj.2 i h hi.1

omit [Qt] in
theorem exists_isLast {names : List QString} {name : QString} (h : name ∈ names) :
    ∃ i, IsLast names name i := by
  induction names using List.reverseRecOn with
  | nil => cases h
  | append_singleton names other ih =>
    by_cases hName : name = other
    · exact ⟨names.length, isLast_append.mpr (.inl ⟨hName, rfl⟩)⟩
    · have hMem : name ∈ names := by simpa [hName] using h
      obtain ⟨i, hi⟩ := ih hMem
      exact ⟨i, isLast_append.mpr (.inr ⟨hName, hi⟩)⟩

/-- The value that a list of bindings gives a name is the one at its last position. -/
theorem lookup_reverse {l : List (QString × Node)} {name : QString} {i : Nat}
    (h : IsLast (l.map Prod.fst) name i) : l.reverse.lookup name = (l.map Prod.snd)[i]? := by
  induction l using List.reverseRecOn with
  | nil => cases h.1
  | append_singleton l b ih =>
    rw [List.map_append, List.map_singleton, isLast_append] at h
    rw [List.reverse_append, List.reverse_singleton, List.singleton_append, List.lookup_cons,
      List.map_append, List.map_singleton]
    rcases h with ⟨rfl, rfl⟩ | ⟨hne, h⟩
    · simp
    · have hi : i < (l.map Prod.snd).length := by
        have := (List.getElem?_eq_some_iff.mp h.1).1
        simpa using this
      rw [List.getElem?_append_left hi, ← ih h]
      simp [beq_eq_false_iff_ne.mpr hne]

/-- There is a value for each name, and the map holds the last position of each name. -/
structure Private.WellFormed (d : Private) : Prop where
  length : d.values.length = d.names.length
  index : ∀ name i, d.bindingMap.lookup name = some i ↔ IsLast d.names name i

namespace Private

variable {d d' : Private} {name : QString} {v : Node}

theorem wellFormed_new : new.WellFormed :=
  ⟨rfl, fun name i => by simp [new, IsLast]⟩

theorem WellFormed.insert (h : d.WellFormed) (name : QString) (value : Node) :
    (d.insert name value).WellFormed := by
  refine ⟨by simp [Private.insert, h.length], fun other i => ?_⟩
  simp only [Private.insert, isLast_append]
  by_cases hName : other = name
  · subst hName
    simp [AList.lookup_insert, h.length, eq_comm]
  · simp [AList.lookup_insert_ne hName, hName, h.index]

theorem replaceAt_spec {offset : Int} (h : d.replaceAt offset v = some d') :
    0 ≤ offset ∧ offset < d.values.length ∧
      d' = { d with values := d.values.set offset.toNat v } := by
  rw [replaceAt] at h
  split at h
  · rename_i hOffset
    exact ⟨hOffset.1, hOffset.2, (Option.some.inj h).symm⟩
  · cases h

theorem replace_spec (h : d.replace name v = some d') :
    ∃ i, d.bindingMap.lookup name = some i ∧ i < d.values.length ∧
      d' = { d with values := d.values.set i v } := by
  rw [replace] at h
  split at h
  · rename_i i hLookup
    obtain ⟨-, hi, hd⟩ := replaceAt_spec h
    exact ⟨i, hLookup, by omega, hd⟩
  · cases h

/-- Replacing values keeps the names and the map. -/
theorem WellFormed.set (h : d.WellFormed) (i : Nat) (value : Node) :
    WellFormed { d with values := d.values.set i value } := ⟨by simp [h.length], h.index⟩

theorem WellFormed.apply (h : d.WellFormed) {c : Change} (hApply : c.apply d = some d') :
    d'.WellFormed ∧ d'.names = d.names ++ c.inserted.toList := by
  cases c with
  | insert name value =>
    cases hApply
    exact ⟨h.insert name value, rfl⟩
  | replaceAt offset value =>
    obtain ⟨-, -, rfl⟩ := replaceAt_spec hApply
    exact ⟨h.set _ _, (List.append_nil _).symm⟩
  | replace name value =>
    obtain ⟨i, -, -, rfl⟩ := replace_spec hApply
    exact ⟨h.set _ _, (List.append_nil _).symm⟩

/-! ### The binding set that the data stands for -/

theorem toBindingSet_insert (h : d.WellFormed) (name : QString) (value : Node) :
    (d.insert name value).toBindingSet = d.toBindingSet.insert name value := by
  simp [toBindingSet, Private.insert, BindingSet.insert, List.zip_append h.length.symm]

theorem bindingNames_toBindingSet (h : d.WellFormed) :
    d.toBindingSet.bindingNames = d.bindingNames := by
  simp [toBindingSet, BindingSet.bindingNames, bindingNames, List.map_fst_zip h.length.ge]

theorem values_toBindingSet (h : d.WellFormed) : d.toBindingSet.values = d.values := by
  simp [toBindingSet, BindingSet.values, List.map_snd_zip h.length.le]

theorem contains_iff (h : d.WellFormed) : d.contains name = true ↔ name ∈ d.names := by
  rw [contains, Option.isSome_iff_exists]
  constructor
  · rintro ⟨i, hi⟩
    exact List.mem_of_getElem? ((h.index name i).mp hi).1
  · intro hMem
    obtain ⟨i, hi⟩ := exists_isLast hMem
    exact ⟨i, (h.index name i).mpr hi⟩

theorem count_eq_dedup (h : d.WellFormed) : d.count = d.names.dedup.length := by
  have hPerm : d.bindingMap.keys.Perm d.names.dedup := by
    refine (List.perm_ext_iff_of_nodup d.bindingMap.keys_nodup (List.nodup_dedup _)).mpr
      fun name => ?_
    rw [List.mem_dedup, ← contains_iff h, contains, AList.lookup_isSome, AList.mem_keys]
  exact hPerm.length_eq

theorem count_toBindingSet (h : d.WellFormed) : d.toBindingSet.count = d.count := by
  rw [BindingSet.count, bindingNames_toBindingSet h, count_eq_dedup h, bindingNames]

theorem value_toBindingSet (h : d.WellFormed) (name : QString) :
    d.toBindingSet.value name = d.value name := by
  have hNames : (d.names.zip d.values).map Prod.fst = d.names := bindingNames_toBindingSet h
  have hValues : (d.names.zip d.values).map Prod.snd = d.values := values_toBindingSet h
  rw [BindingSet.value, toBindingSet, value]
  cases hLookup : d.bindingMap.lookup name with
  | some i =>
    have hLast := (h.index name i).mp hLookup
    rw [lookup_reverse (by rw [hNames]; exact hLast), hValues]
  | none =>
    have hNot : name ∉ d.names := by
      rw [← contains_iff h, contains, hLookup]
      decide
    rw [List.lookup_eq_none_iff.mpr fun b hb => ?_]
    · rfl
    · rw [bne_iff_ne]
      rintro rfl
      exact hNot (List.of_mem_zip (List.mem_reverse.mp hb)).1

theorem replay_spec {changes : List Change} (h : replay new Change.apply changes = some d) :
    d.WellFormed ∧ d.names = insertedNames changes := by
  induction changes using List.reverseRecOn generalizing d with
  | nil =>
    cases h
    exact ⟨wellFormed_new, rfl⟩
  | append_singleton changes c ih =>
    rw [replay_append, Option.bind_eq_some_iff] at h
    obtain ⟨before, hBefore, hApply⟩ := h
    obtain ⟨hWellFormed, hNames⟩ := ih hBefore
    obtain ⟨hAfter, hAppend⟩ := hWellFormed.apply hApply
    refine ⟨hAfter, ?_⟩
    rw [hAppend, hNames, insertedNames, insertedNames, List.filterMap_append]
    cases c <;> rfl

/-- The position of a name in a list without duplicates. -/
theorem WellFormed.lookup_eq_iff (h : d.WellFormed) (hDistinct : d.names.Nodup) {i : Nat} :
    d.bindingMap.lookup name = some i ↔ d.names[i]? = some name := by
  rw [h.index]
  refine ⟨fun hLast => hLast.1, fun hAt => ⟨hAt, fun j hj hName => ?_⟩⟩
  obtain ⟨hi, hiAt⟩ := List.getElem?_eq_some_iff.mp hAt
  obtain ⟨hj', hjAt⟩ := List.getElem?_eq_some_iff.mp hName
  have hSame : i = j := hDistinct.getElem_inj_iff.mp (hiAt.trans hjAt.symm)
  omega

theorem value_insert (h : d.WellFormed) (other : QString) :
    (d.insert other v).value name = if name = other then v else d.value name := by
  by_cases hName : name = other
  · subst hName
    simp [Private.value, Private.insert]
  · rw [if_neg hName]
    simp only [Private.value, Private.insert, AList.lookup_insert_ne hName]
    cases hLookup : d.bindingMap.lookup name with
    | none => rfl
    | some i =>
      have hi := (List.getElem?_eq_some_iff.mp ((h.index name i).mp hLookup).1).1
      rw [← h.length] at hi
      simp only [List.getElem?_append_left hi]

/-- A new value is the value of the name at its position. -/
theorem value_set (h : d.WellFormed) (hDistinct : d.names.Nodup) {i : Nat}
    (hi : i < d.values.length) :
    value { d with values := d.values.set i v } name =
      if d.names[i]? = some name then v else d.value name := by
  by_cases hName : d.names[i]? = some name
  · rw [if_pos hName, Private.value]
    simp only [(h.lookup_eq_iff hDistinct).mpr hName]
    simp [hi]
  · rw [if_neg hName]
    simp only [Private.value]
    cases hLookup : d.bindingMap.lookup name with
    | none => rfl
    | some j =>
      have hne : i ≠ j := by
        rintro rfl
        exact hName ((h.lookup_eq_iff hDistinct).mp hLookup)
      simp only [List.getElem?_set_ne hne]

/-- Where no name is bound twice, each name has the value of the latest change of it. -/
theorem value_eq_latest {changes : List Change} (h : replay new Change.apply changes = some d)
    (hDistinct : (insertedNames changes).Nodup) (name : QString) :
    d.value name = (Change.latest name changes.reverse).getD .empty := by
  induction changes using List.reverseRecOn generalizing d with
  | nil =>
    cases h
    rfl
  | append_singleton changes c ih =>
    rw [replay_append, Option.bind_eq_some_iff] at h
    obtain ⟨before, hBefore, hApply⟩ := h
    obtain ⟨hWellFormed, hNames⟩ := replay_spec hBefore
    rw [insertedNames, List.filterMap_append, List.nodup_append] at hDistinct
    have hBeforeDistinct := hDistinct.1
    have ih := ih hBefore hBeforeDistinct
    rw [List.reverse_append, List.reverse_singleton, List.singleton_append]
    change before.names = changes.filterMap Change.inserted at hNames
    rw [← hNames] at hBeforeDistinct
    cases c with
    | insert other value =>
      cases hApply
      rw [value_insert hWellFormed, Change.latest, ih]
      split <;> rfl
    | replaceAt offset value =>
      obtain ⟨hPos, hOffset, rfl⟩ := replaceAt_spec hApply
      have hi : offset.toNat < before.values.length := by omega
      rw [value_set hWellFormed hBeforeDistinct hi, Change.latest, List.reverse_reverse, ← hNames,
        ih]
      split <;> rfl
    | replace other value =>
      obtain ⟨i, hLookup, hi, rfl⟩ := replace_spec hApply
      have hAt := (hWellFormed.lookup_eq_iff hBeforeDistinct).mp hLookup
      rw [value_set hWellFormed hBeforeDistinct hi, hAt, Change.latest, ih]
      simp only [Option.some.injEq, eq_comm]
      split <;> rfl

/-- What a caller of a set relies on: the numbers of bindings agree, no name is listed twice, each
name has the value at its position, a name is contained exactly if it is listed, and its value is
the latest. -/
structure Consistent (d : Private) (changes : List Change) : Prop where
  count : d.count = d.bindingNames.length
  distinct : d.bindingNames.Nodup
  value : ∀ i name, i < d.count → d.bindingNames[i]? = some name →
    d.value name = d.valueAt i
  contains : ∀ name, d.contains name = true ↔ name ∈ d.bindingNames
  latest : ∀ name, d.value name = (Change.latest name changes.reverse).getD .empty

theorem consistent_iff {changes : List Change} (h : replay new Change.apply changes = some d) :
    d.Consistent changes ↔ (insertedNames changes).Nodup := by
  obtain ⟨hWellFormed, hNames⟩ := replay_spec h
  constructor
  · intro hConsistent
    rw [← hNames]
    exact hConsistent.distinct
  · intro hInserted
    have hDistinct : d.names.Nodup := by rw [hNames]; exact hInserted
    refine ⟨?_, hDistinct, fun i name hi hAt => ?_, fun name => contains_iff hWellFormed,
      value_eq_latest h hInserted⟩
    · rw [count_eq_dedup hWellFormed, List.dedup_eq_self.mpr hDistinct]
      rfl
    · have hLength := (List.getElem?_eq_some_iff.mp hAt).1
      rw [bindingNames, ← hWellFormed.length] at hLength
      rw [value, (hWellFormed.lookup_eq_iff hDistinct).mpr hAt, valueAt,
        if_pos ⟨by omega, by omega⟩]
      rfl

end Private

/-! ### Sets and their copies -/

/-- The handle has the set `d`, which the changes `changes` led to. -/
structure Reached (program : List (Command Change)) (heap : Heap Private) (handle : Nat)
    (d : Private) (changes : List Change) : Prop where
  run : Heap.run Private.new Change.apply program = some heap
  read : heap.read handle = some d
  history : ∃ known, histories program = some known ∧ known[handle]?.join = some changes

/-- Each set of a program is consistent exactly if no change of its history binds a name that is
bound already; and a command on another set, a copy or not, does not show in it. -/
theorem sharedSets_consistent_iff {program : List (Command Change)} {heap : Heap Private}
    (hRun : Heap.run Private.new Change.apply program = some heap) {handle : Nat} {d : Private}
    (hRead : heap.read handle = some d) :
    (∃ changes, Reached program heap handle d changes ∧
      (d.Consistent changes ↔ (insertedNames changes).Nodup)) ∧
    ∀ command heap', heap.perform Private.new Change.apply command = some heap' →
      command.target ≠ some handle → heap'.read handle = some d := by
  obtain ⟨hHeap, known, changes, hKnown, hHistory, hReplay⟩ := Heap.read_run hRun hRead
  constructor
  · exact ⟨changes, ⟨hRun, hRead, known, hKnown, hHistory⟩, Private.consistent_iff hReplay⟩
  · intro command heap' hPerform hTarget
    exact Heap.read_of_ne hHeap hPerform hRead hTarget

end Sets

section Example

local instance setQt : Qt := asciiQt

/-- A set, changed by `insert`, and its copy, which is changed by `insert` and `replace`. -/
def copied : List (Command Change) :=
  let n := Node.ofIdentifier "n".toList
  let m := Node.ofIdentifier "m".toList
  [.create, .change 0 (.insert "a".toList n), .copy 0, .change 1 (.insert "b".toList m),
    .change 1 (.replaceAt 0 m)]

theorem sharedSets_consistent_copied :
    ∃ heap d changes, Reached copied heap 1 d changes ∧
      (d.Consistent changes ↔ (insertedNames changes).Nodup) ∧
      d.value "a".toList = Node.ofIdentifier "m".toList := by
  obtain ⟨heap, hRun⟩ : ∃ heap, Heap.run Private.new Change.apply copied = some heap := ⟨_, rfl⟩
  obtain ⟨d, hRead, hValue⟩ : ∃ d, heap.read 1 = some d ∧
      d.value "a".toList = Node.ofIdentifier "m".toList := by
    cases hRun
    exact ⟨_, rfl, rfl⟩
  obtain ⟨⟨changes, hReached, hIff⟩, -⟩ := sharedSets_consistent_iff hRun hRead
  exact ⟨heap, d, changes, hReached, hIff, hValue⟩

/-- A name that is bound twice is listed twice and counted once. -/
theorem sharedSets_twice :
    let n := Node.ofIdentifier "n".toList
    let changes := [Change.insert "a".toList n, Change.insert "a".toList n]
    ∃ heap d, Reached (.create :: changes.map (.change 0)) heap 0 d changes ∧
      d.count = 1 ∧ d.bindingNames.length = 2 ∧ ¬d.Consistent changes := by
  refine ⟨_, _, ⟨rfl, rfl, _, rfl, rfl⟩, rfl, rfl, fun h => ?_⟩
  have hCount : 1 = 2 := h.count
  omega

end Example

end BindingSet

end Soprano
