import Mathlib.Data.List.Nodup
import Mathlib.Data.List.Perm.Subperm

/-! A pass over a list that keeps the items a test accepts, where the test sees what the pass has kept so
far.  It keeps the items that are wanted in whichever order it meets them if and only if the test is
right behind every choice of wanted items. -/

namespace Selection

variable {α : Type*} (test : List α → α → Bool)

/-- The items that are kept, the last one first. -/
def select : List α → List α → List α
  | kept, [] => kept
  | kept, x :: items => select (if test kept x then x :: kept else kept) items

theorem select_append (kept xs ys : List α) :
    select test kept (xs ++ ys) = select test (select test kept xs) ys := by
  induction xs generalizing kept with
  | nil => rfl
  | cons x xs ih => exact ih _

/-- What was kept stays, and the new items stand in front of it in the reverse order. -/
theorem exists_select_eq (kept items : List α) :
    ∃ new, select test kept items = new.reverse ++ kept ∧ List.Sublist new items := by
  induction items generalizing kept with
  | nil => exact ⟨[], rfl, List.Sublist.refl _⟩
  | cons x items ih =>
    by_cases hTest : test kept x = true
    · obtain ⟨new, hNew, hSub⟩ := ih (x :: kept)
      refine ⟨x :: new, ?_, hSub.cons_cons x⟩
      rw [select, if_pos hTest, hNew]
      simp
    · obtain ⟨new, hNew, hSub⟩ := ih kept
      refine ⟨new, ?_, hSub.cons x⟩
      rw [select, if_neg hTest, hNew]

variable {test} {items kept rest : List α} {want : α → Bool} {x : α}

/-- An item is kept when its turn comes or not at all. -/
theorem mem_select_cons (hKept : x ∉ kept) (hRest : x ∉ rest) :
    x ∈ select test kept (x :: rest) ↔ test kept x = true := by
  obtain ⟨new, hNew, hSub⟩ := exists_select_eq test (if test kept x then x :: kept else kept) rest
  have hOut : x ∉ new := fun hIn => hRest (hSub.subset hIn)
  rw [select, hNew]
  by_cases hTest : test kept x = true
  · simp [hTest]
  · simp [hTest, hOut, hKept]

/-- Items that are kept in the end were kept when their turn came. -/
theorem select_reverse (hNodup : (kept.reverse ++ rest).Nodup)
    (hAll : ∀ y ∈ kept, y ∈ select test [] (kept.reverse ++ rest)) : select test [] kept.reverse = kept := by
  obtain ⟨new, hNew, hSub⟩ := exists_select_eq test [] kept.reverse
  obtain ⟨later, hLater, hLaterSub⟩ := exists_select_eq test (select test [] kept.reverse) rest
  have hSubset : kept.reverse ⊆ new := by
    intro y hy
    have hSelected := hAll y (List.mem_reverse.mp hy)
    rw [select_append, hLater, hNew] at hSelected
    rcases List.mem_append.mp hSelected with hyLater | hyNew
    · have hyRest : y ∈ rest := hLaterSub.subset (List.mem_reverse.mp hyLater)
      exact absurd hyRest (List.disjoint_of_nodup_append hNodup hy)
    · simpa using hyNew
  have hEq : new = kept.reverse :=
    hSub.eq_of_length_le (List.subperm_of_subset hNodup.of_append_left hSubset).length_le
  rw [hNew, hEq]
  simp

/-- There is an order that begins with a choice of items, from the back, and goes on with another item. -/
theorem exists_order (hKept : (x :: kept).Nodup) (hSubset : x :: kept ⊆ items) :
    ∃ rest, (kept.reverse ++ x :: rest).Perm items := by
  obtain ⟨kept', hPerm, hSub⟩ := List.subperm_of_subset hKept hSubset
  obtain ⟨rest, hRest⟩ := hSub.exists_perm_append
  refine ⟨rest, ?_⟩
  calc (kept.reverse ++ x :: rest).Perm (x :: (kept.reverse ++ rest)) := List.perm_middle
    _ |>.Perm (x :: (kept ++ rest)) := ((List.reverse_perm kept).append_right rest).cons x
    _ |>.Perm (kept' ++ rest) := hPerm.symm.append_right rest
    _ |>.Perm items := hRest.symm

/-- The test accepts an item if and only if it is wanted, whichever wanted items are kept. -/
def Right (test : List α → α → Bool) (items : List α) (want : α → Bool) : Prop :=
  ∀ kept : List α, kept.Nodup → (∀ y ∈ kept, y ∈ items ∧ want y = true) →
    ∀ x ∈ items, x ∉ kept → test kept x = want x

/-- Only what the test says behind wanted items counts. -/
theorem right_congr {test' : List α → α → Bool}
    (h : ∀ kept : List α, (∀ y ∈ kept, y ∈ items ∧ want y = true) → test kept = test' kept) :
    Right test items want ↔ Right test' items want := by
  refine forall_congr' fun kept => forall_congr' fun _ => forall_congr' fun hWanted => ?_
  rw [h kept hWanted]

theorem select_subset (order : List α) : select test [] order ⊆ order := by
  obtain ⟨new, hNew, hSub⟩ := exists_select_eq test [] order
  rw [hNew, List.append_nil]
  exact fun x hx => hSub.subset (List.mem_reverse.mp hx)

/-- One order of the items: the pass goes from a choice of wanted items to a choice of wanted items. -/
theorem Right.select_eq (h : Right test items want) {order kept : List α} (hNodup : (order ++ kept).Nodup)
    (hOrder : ∀ x ∈ order, x ∈ items) (hKept : ∀ y ∈ kept, y ∈ items ∧ want y = true) :
    select test kept order = (order.filter want).reverse ++ kept := by
  induction order generalizing kept with
  | nil => rfl
  | cons x order ih =>
    have hx : x ∉ order ++ kept := (List.nodup_cons.mp hNodup).1
    have hRest : (order ++ kept).Nodup := (List.nodup_cons.mp hNodup).2
    have hTest : test kept x = want x :=
      h kept hRest.of_append_right hKept x (hOrder x List.mem_cons_self) fun hMem =>
        hx (List.mem_append_right _ hMem)
    have hOrder' : ∀ y ∈ order, y ∈ items := fun y hy => hOrder y (List.mem_cons_of_mem _ hy)
    rw [select, hTest]
    by_cases hWant : want x = true
    · rw [if_pos hWant, List.filter_cons_of_pos hWant, ih _ hOrder']
      · simp
      · rintro y (_ | ⟨_, hy⟩)
        · exact ⟨hOrder x List.mem_cons_self, hWant⟩
        · exact hKept y hy
      · exact List.nodup_middle.mpr (List.nodup_cons.mpr ⟨hx, hRest⟩)
    · rw [if_neg hWant, List.filter_cons_of_neg hWant]
      exact ih hRest hOrder' hKept

/-- The pass that keeps what is wanted in every order is one whose test is right. -/
theorem forall_perm_iff (hItems : items.Nodup) :
    (∀ order : List α, order.Perm items → (select test [] order).Perm (items.filter want)) ↔
      Right test items want := by
  constructor
  · intro h kept hKept hWanted x hx hNot
    have hSubset : x :: kept ⊆ items := by
      rintro y (_ | ⟨_, hy⟩)
      · exact hx
      · exact (hWanted y hy).1
    obtain ⟨rest, hOrder⟩ := exists_order (List.nodup_cons.mpr ⟨hNot, hKept⟩) hSubset
    have hNodup : (kept.reverse ++ x :: rest).Nodup := hOrder.nodup_iff.mpr hItems
    have hMem : ∀ y, y ∈ select test [] (kept.reverse ++ x :: rest) ↔ y ∈ items.filter want := fun y =>
      (h _ hOrder).mem_iff
    have hFirst : select test [] kept.reverse = kept :=
      select_reverse hNodup fun y hy => (hMem y).mpr (List.mem_filter.mpr (hWanted y hy))
    have hLast := hMem x
    rw [select_append, hFirst, mem_select_cons hNot (List.nodup_cons.mp hNodup.of_append_right).1,
      List.mem_filter] at hLast
    exact Bool.eq_iff_iff.mpr (hLast.trans (and_iff_right hx))
  · intro h order hOrder
    have hNodup : order.Nodup := hOrder.nodup_iff.mpr hItems
    rw [h.select_eq (by simpa using hNodup) (fun x hx => hOrder.subset hx) (by simp), List.append_nil]
    exact (List.reverse_perm _).trans (hOrder.filter want)

end Selection
