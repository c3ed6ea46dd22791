import Mathlib.Data.List.Forall2
import Mathlib.Data.List.Nodup

/-! Patterns over tuples: each place of a pattern has a value or a variable.  A tuple solves a pattern if the
values that it gives to the variables fill the pattern with the tuple, and a solution fills a template. -/

namespace Soprano

namespace Pattern

/-- What stands at a place of a pattern. -/
inductive Place (ν α : Type) where
  | value (a : α)
  | variable (x : ν)
deriving DecidableEq

/-- What the variables stand for. -/
abbrev Solution (ν α : Type) : Type := List (ν × α)

variable {ν α : Type} [DecidableEq ν] [DecidableEq α]

/-- The solution behind a place that has a value in the tuple. -/
def bind (μ : Solution ν α) : Place ν α → α → Option (Solution ν α)
  | .value b, a => if b = a then some μ else none
  | .variable x, a =>
    match μ.lookup x with
    | none => some ((x, a) :: μ)
    | some b => if b = a then some μ else none

/-- The solution behind the places of a pattern. -/
def solveFrom (μ : Solution ν α) : List (Place ν α) → List α → Option (Solution ν α)
  | [], [] => some μ
  | p :: pattern, a :: tuple => (bind μ p a).bind fun μ => solveFrom μ pattern tuple
  | _, _ => none

/-- The solution that a tuple is of a pattern, if it is one. -/
def solve (pattern : List (Place ν α)) (tuple : List α) : Option (Solution ν α) := solveFrom [] pattern tuple

/-- What a place stands for. -/
def valueAt (μ : Solution ν α) : Place ν α → Option α
  | .value a => some a
  | .variable x => μ.lookup x

/-- The tuple that a template stands for. -/
def fill (μ : Solution ν α) : List (Place ν α) → Option (List α)
  | [] => some []
  | p :: template => (valueAt μ p).bind fun a => (fill μ template).map (a :: ·)

/-- The tuple that a template stands for, where a tuple solves a pattern. -/
def result (template pattern : List (Place ν α)) (tuple : List α) : Option (List α) :=
  (solve pattern tuple).bind fun μ => fill μ template

variable {μ μ' : Solution ν α} {p : Place ν α} {a b : α} {x : ν} {pattern : List (Place ν α)} {tuple : List α}

/-- A place keeps what the variables stand for. -/
theorem lookup_of_bind (h : bind μ p a = some μ') (hLookup : μ.lookup x = some b) : μ'.lookup x = some b := by
  cases p with
  | value c =>
    obtain ⟨-, hSame⟩ := Option.ite_none_right_eq_some.mp h
    cases hSame
    exact hLookup
  | «variable» y =>
    simp only [bind] at h
    split at h
    · rename_i hNew
      cases h
      have hNe : x ≠ y := by
        rintro rfl
        rw [hNew] at hLookup
        cases hLookup
      rw [List.lookup_cons, beq_false_of_ne hNe]
      exact hLookup
    · obtain ⟨-, hSame⟩ := Option.ite_none_right_eq_some.mp h
      cases hSame
      exact hLookup

/-- It stands for the value that it has in the tuple. -/
theorem valueAt_of_bind (h : bind μ p a = some μ') : valueAt μ' p = some a := by
  cases p with
  | value c =>
    obtain ⟨rfl, -⟩ := Option.ite_none_right_eq_some.mp h
    rfl
  | «variable» y =>
    simp only [bind] at h
    split at h
    · cases h
      simp [valueAt]
    · rename_i hLookup
      obtain ⟨rfl, hSame⟩ := Option.ite_none_right_eq_some.mp h
      cases hSame
      exact hLookup

theorem lookup_of_solveFrom (h : solveFrom μ pattern tuple = some μ') (hLookup : μ.lookup x = some b) :
    μ'.lookup x = some b := by
  induction pattern generalizing μ tuple with
  | nil =>
    cases tuple with
    | nil =>
      cases h
      exact hLookup
    | cons => cases h
  | cons p pattern ih =>
    cases tuple with
    | nil => cases h
    | cons a tuple =>
      obtain ⟨middle, hBind, hRest⟩ := Option.bind_eq_some_iff.mp h
      exact ih hRest (lookup_of_bind hBind hLookup)

theorem valueAt_of_solveFrom (h : solveFrom μ pattern tuple = some μ') (hValue : valueAt μ p = some b) :
    valueAt μ' p = some b := by
  cases p with
  | value c => exact hValue
  | «variable» y => exact lookup_of_solveFrom h hValue

theorem fill_of_solveFrom (h : solveFrom μ pattern tuple = some μ') : fill μ' pattern = some tuple := by
  induction pattern generalizing μ tuple with
  | nil =>
    cases tuple with
    | nil => rfl
    | cons => cases h
  | cons p pattern ih =>
    cases tuple with
    | nil => cases h
    | cons a tuple =>
      obtain ⟨middle, hBind, hRest⟩ := Option.bind_eq_some_iff.mp h
      have hValue := valueAt_of_solveFrom hRest (valueAt_of_bind hBind)
      rw [fill, hValue, Option.bind_some, ih hRest]
      rfl

/-- A solution fills its pattern with the tuple. -/
theorem fill_of_solve (h : solve pattern tuple = some μ) : fill μ pattern = some tuple := fill_of_solveFrom h

/-- A pattern that is its own template stands for the tuples that solve it. -/
theorem result_self_eq_some {other : List α} :
    result pattern pattern tuple = some other ↔ (solve pattern tuple).isSome = true ∧ other = tuple := by
  unfold result
  cases hSolve : solve pattern tuple with
  | none => simp
  | some μ =>
    rw [Option.bind_some, fill_of_solve hSolve]
    simp [eq_comm]

/-! ### Patterns with a variable of its own at each place -/

/-- A value, or the variable of the place. -/
def place (x : ν) (wanted : Option α) : Place ν α :=
  match wanted with
  | some a => .value a
  | none => .variable x

/-- The place has no other value in the tuple. -/
def Fits (wanted : Option α) (a : α) : Prop := ∀ b ∈ wanted, b = a

instance (wanted : Option α) (a : α) : Decidable (Fits wanted a) :=
  decidable_of_iff (wanted = none ∨ wanted = some a) <| by
    cases wanted <;> simp [Fits]

omit [DecidableEq α] in
@[simp] theorem fits_none : Fits none a := fun _ hMem => by cases hMem

omit [DecidableEq α] in
@[simp] theorem fits_some : Fits (some b) a ↔ b = a := by simp [Fits]

/-- A variable that is new takes any value. -/
theorem bind_place {wanted : Option α} (hNew : μ.lookup x = none) :
    (∃ μ', bind μ (place x wanted) a = some μ') ↔ Fits wanted a := by
  cases wanted with
  | none => simp [place, bind, hNew]
  | some b => simp [place, bind]

theorem lookup_bind_place {wanted : Option α} {y : ν} (hNe : x ≠ y) (h : bind μ (place y wanted) a = some μ')
    (hNew : μ.lookup x = none) : μ'.lookup x = none := by
  cases wanted with
  | none =>
    simp only [place, bind] at h
    split at h
    · cases h
      rwa [List.lookup_cons, beq_false_of_ne hNe]
    · obtain ⟨-, hSame⟩ := Option.ite_none_right_eq_some.mp h
      cases hSame
      exact hNew
  | some b =>
    obtain ⟨-, hSame⟩ := Option.ite_none_right_eq_some.mp h
    cases hSame
    exact hNew

theorem solveFrom_places {wanted : List (ν × Option α)} (hNodup : (wanted.map Prod.fst).Nodup)
    (hNew : ∀ x ∈ wanted.map Prod.fst, μ.lookup x = none) :
    (solveFrom μ (wanted.map fun w => place w.1 w.2) tuple).isSome = true ↔
      List.Forall₂ (fun w a => Fits w.2 a) wanted tuple := by
  induction wanted generalizing μ tuple with
  | nil => cases tuple <;> simp [solveFrom]
  | cons w wanted ih =>
    cases tuple with
    | nil => simp [solveFrom]
    | cons a tuple =>
      rw [List.map_cons, List.nodup_cons] at hNodup
      obtain ⟨hFirst, hRest⟩ := hNodup
      have hOwn : (∃ μ', bind μ (place w.1 w.2) a = some μ') ↔ Fits w.2 a := bind_place (hNew w.1 (by simp))
      rw [List.forall₂_cons, ← hOwn, List.map_cons, solveFrom]
      cases hBind : bind μ (place w.1 w.2) a with
      | none => simp
      | some μ' =>
        have hLater : ∀ x ∈ wanted.map Prod.fst, μ'.lookup x = none := by
          intro x hx
          refine lookup_bind_place ?_ hBind (hNew x (List.mem_cons_of_mem _ hx))
          rintro rfl
          exact hFirst hx
        rw [Option.bind_some, ih hRest hLater]
        simp

/-- Where each variable stands at one place, the tuples that fit at every place solve the pattern. -/
theorem solve_places {wanted : List (ν × Option α)} (hNodup : (wanted.map Prod.fst).Nodup) :
    (solve (wanted.map fun w => place w.1 w.2) tuple).isSome = true ↔
      List.Forall₂ (fun w a => Fits w.2 a) wanted tuple :=
  solveFrom_places hNodup fun _ _ => rfl

/-- The value of a variable is the one of its place. -/
theorem lookup_of_solve_places {wanted : List (ν × Option α)}
    (h : solve (wanted.map fun w => place w.1 w.2) tuple = some μ) :
    List.Forall₂ (fun w a => w.2 = none → μ.lookup w.1 = some a) wanted tuple := by
  have hFill := fill_of_solve h
  clear h
  induction wanted generalizing tuple with
  | nil =>
    cases hFill
    exact .nil
  | cons w wanted ih =>
    obtain ⟨a, hValue, hRest⟩ := Option.bind_eq_some_iff.mp hFill
    obtain ⟨rest, hTuple, rfl⟩ := Option.map_eq_some_iff.mp hRest
    refine .cons (fun hNone => ?_) (ih hTuple)
    have hPlace : valueAt μ (place w.1 w.2) = some a := hValue
    rwa [hNone] at hPlace

end Pattern

end Soprano
