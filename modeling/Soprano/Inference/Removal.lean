import Mathlib.Data.List.Dedup
import Mathlib.Data.Finset.Card
import Soprano.Inference.InferenceModel

/-! `InferenceModel::removeStatement` and `removeAllStatements`: a statement is removed with the graphs
that were inferred from it, whose statements are removed in the same way. The parent model can fail. -/

namespace Soprano

namespace Inference

open Vocabulary

section Qt

variable [Qt]

/-- The model that an inference model filters. It lists the statements that match, and it reports no
error only where it has removed what it was to remove; it never adds a statement. -/
structure Parent where
  listStatements : Statement → Store → List Statement
  removeStatement : Statement → Store → ErrorCode × Store
  removeAllStatements : Statement → Store → ErrorCode × Store
  executeQuery : QString → Store → List BindingSet
  mem_listStatements : ∀ {p store s},
    s ∈ listStatements p store ↔ s ∈ store ∧ Store.isMatch p s = true
  removed : ∀ {s store store'}, removeStatement s store = (.errorNone, store') → s ∉ store'
  removedAll : ∀ {p store store'}, removeAllStatements p store = (.errorNone, store') →
    ∀ q ∈ store', Store.isMatch p q = false
  shrinks : ∀ s store, (removeStatement s store).2 ⊆ store
  shrinksAll : ∀ p store, (removeAllStatements p store).2 ⊆ store

/-- The parent that never fails. -/
def Parent.ofStore (select : QString → Store → List BindingSet) : Parent where
  listStatements p store := Store.listStatements store p
  removeStatement s store := (.errorNone, Store.removeStatement store s)
  removeAllStatements p store := (.errorNone, Store.removeAllStatements store p)
  executeQuery := select
  mem_listStatements := List.mem_filter
  removed {s store store'} h := by
    obtain rfl := (Prod.mk.inj h).2
    simp [Store.removeStatement]
  removedAll {p store store'} h q hq := by
    obtain rfl := (Prod.mk.inj h).2
    simpa using (List.mem_filter.mp hq).2
  shrinks _ _ := List.filter_sublist.subset
  shrinksAll _ _ := List.filter_sublist.subset

/-- What a call returns and leaves, unless its recursion is too deep. -/
abbrev Outcome := Option (ErrorCode × Store)

namespace Outcome

/-- An error code is returned at once. -/
def unlessError (r : Outcome) (next : Store → Outcome) : Outcome :=
  r.bind fun (c, store) => if c = .errorNone then next store else some (c, store)

/-- A loop that ends with the first error. -/
def forEach {α : Type} (f : α → Store → Outcome) : List α → Store → Outcome
  | [], store => some (.errorNone, store)
  | a :: rest, store => (f a store).unlessError (forEach f rest)

end Outcome

namespace InferenceModel

/-- The query for the graphs that have the node as a source statement. -/
def graphQuery (node : Node) : QString :=
  QString.arg (QString.arg "SELECT ?g WHERE \x7b ?g <%1> <%2> . \x7d".toList
    (Qt.urlToString SIL.sourceStatement)) node.toString

section Parent

variable (parent : Parent) (compressedStatements : Bool)

/-- The subjects of the statements with a predicate and an object. -/
def subjectsOf (predicate object : Node) (store : Store) : List Node :=
  (parent.listStatements ⟨.empty, predicate, object, .empty⟩ store).map Statement.subject

/-- The nodes that describe a triple, in some order. -/
def sourceStatementsOf (statement : Statement) (store : Store) : List Node :=
  ((subjectsOf parent (.ofUri RDF.subject) statement.subject store).dedup.filter
    (· ∈ subjectsOf parent (.ofUri RDF.predicate) statement.predicate store)).filter
      (· ∈ subjectsOf parent (.ofUri RDF.object) statement.object store)

def inferedGraphsForStatement (statement : Statement) (store : Store) : List Node :=
  if compressedStatements then
    (parent.listStatements ⟨.empty, .ofUri SIL.sourceStatement,
      .ofLiteral (compressStatement statement), .ofUri SIL.InferenceMetaData⟩ store).map Statement.subject
  else (sourceStatementsOf parent statement store).flatMap fun node =>
    (parent.executeQuery (graphQuery node) store).map fun b => b.values.head?.getD .empty

/-- Step 1 for a graph: its source statements are removed. -/
def removeSources (graph : Node) (store : Store) : Outcome :=
  if compressedStatements then some (.errorNone, store)
  else
    let graphSources := (parent.listStatements
      ⟨graph, .ofUri SIL.sourceStatement, .empty, .ofUri SIL.InferenceMetaData⟩ store).map Statement.object
    Outcome.forEach (fun node store => some (parent.removeAllStatements
      ⟨node, .empty, .empty, .ofUri SIL.InferenceMetaData⟩ store)) graphSources store

/-- `Model::removeContext`, where `removeAllStatements` is the model's own. -/
def removeContextWith (removeAllStatements : Statement → Store → Outcome) (context : Node)
    (store : Store) : Outcome :=
  if context.isValid then removeAllStatements ⟨.empty, .empty, .empty, context⟩ store
  else some (.errorInvalidArgument, store)

/-- A graph is removed: its source statements, its metadata, and its statements. -/
def removeGraph (removeAllStatements : Statement → Store → Outcome) (graph : Node) (store : Store) :
    Outcome :=
  (removeSources parent compressedStatements graph store).unlessError fun store =>
    Outcome.unlessError (some (parent.removeAllStatements
      ⟨graph, .empty, .empty, .ofUri SIL.InferenceMetaData⟩ store)) fun store =>
        removeContextWith removeAllStatements graph store

def removeStatementWith (removeAllStatements : Statement → Store → Outcome) (statement : Statement)
    (store : Store) : Outcome :=
  Outcome.unlessError (some (parent.removeStatement statement store)) fun store =>
    Outcome.forEach (removeGraph parent compressedStatements removeAllStatements)
      (inferedGraphsForStatement parent compressedStatements statement store) store

/-- `removeAllStatements`; the number bounds the depth of the recursion. -/
def removeAllStatements : Nat → Statement → Store → Outcome
  | 0, _, _ => none
  | fuel + 1, statement, store =>
    if !statement.object.isLiteral then
      let removedStatements := parent.listStatements statement store
      Outcome.forEach (removeStatementWith parent compressedStatements (removeAllStatements fuel))
        removedStatements store
    else some (.errorNone, store)

def removeStatement (fuel : Nat) (statement : Statement) (store : Store) : Outcome :=
  removeStatementWith parent compressedStatements
    (removeAllStatements parent compressedStatements fuel) statement store

def removeContext (fuel : Nat) (context : Node) (store : Store) : Outcome :=
  removeContextWith (removeAllStatements parent compressedStatements fuel) context store

/-- `Model::removeAllStatements` of nodes -/
def removeAllStatementsOf (fuel : Nat) (subject predicate object context : Node) (store : Store) :
    Outcome :=
  removeAllStatements parent compressedStatements fuel ⟨subject, predicate, object, context⟩ store

/-- `Model::removeAllStatements()` -/
def clear (fuel : Nat) (store : Store) : Outcome :=
  removeAllStatements parent compressedStatements fuel .empty store

end Parent

end InferenceModel

namespace Outcome

variable {r : Outcome} {next : Store → Outcome} {store store' : Store} {c : ErrorCode} {α : Type}
  {f : α → Store → Outcome} {l : List α}

theorem unlessError_eq_some (h : r.unlessError next = some (c, store')) :
    (∃ mid, r = some (.errorNone, mid) ∧ next mid = some (c, store')) ∨
      c ≠ .errorNone ∧ r = some (c, store') := by
  obtain ⟨⟨c', mid⟩, hFirst, hRest⟩ := Option.bind_eq_some_iff.mp h
  by_cases hNone : c' = .errorNone
  · subst hNone
    exact .inl ⟨mid, hFirst, by simpa using hRest⟩
  · simp only [if_neg hNone, Option.some.injEq, Prod.mk.injEq] at hRest
    obtain ⟨rfl, rfl⟩ := hRest
    exact .inr ⟨hNone, hFirst⟩

/-- Whatever a call returns, no statement has been added. -/
def Shrinks (store : Store) (r : Outcome) : Prop := ∀ c store', r = some (c, store') → store' ⊆ store

theorem Shrinks.some (h : store' ⊆ store) : Shrinks store (Option.some (c, store')) := by
  intro c' store'' hEq
  obtain ⟨-, rfl⟩ := Prod.mk.inj (Option.some.inj hEq)
  exact h

theorem Shrinks.unlessError (h : Shrinks store r)
    (hNext : ∀ mid, mid ⊆ store → Shrinks mid (next mid)) : Shrinks store (r.unlessError next) := by
  intro c store' hEq
  rcases unlessError_eq_some hEq with ⟨mid, hFirst, hRest⟩ | ⟨-, hFirst⟩
  · have hMid := h _ _ hFirst
    exact List.Subset.trans (hNext mid hMid _ _ hRest) hMid
  · exact h _ _ hFirst

theorem Shrinks.forEach (h : ∀ a store, Shrinks store (f a store)) (l : List α) (store : Store) :
    Shrinks store (Outcome.forEach f l store) := by
  induction l generalizing store with
  | nil => exact .some (List.Subset.refl store)
  | cons a l ih => exact (h a store).unlessError fun mid _ => ih mid

theorem isSome_unlessError (h : r.isSome = true)
    (hNext : ∀ mid, r = some (.errorNone, mid) → (next mid).isSome = true) :
    (r.unlessError next).isSome = true := by
  obtain ⟨⟨c, mid⟩, rfl⟩ := Option.isSome_iff_exists.mp h
  rw [unlessError, Option.bind_some]
  by_cases hNone : c = .errorNone
  · subst hNone
    simpa using hNext mid rfl
  · simp [hNone]

/-- A loop returns if its body does in every store that it can find. -/
theorem isSome_forEach (good : Store → Prop)
    (hGood : ∀ {store store'}, good store → store' ⊆ store → good store') (hShrinks : ∀ a store, Shrinks store (f a store))
    (h : ∀ a ∈ l, ∀ store, good store → (f a store).isSome = true) (hStore : good store) :
    (forEach f l store).isSome = true := by
  induction l generalizing store with
  | nil => rfl
  | cons a l ih =>
    refine isSome_unlessError (h a List.mem_cons_self store hStore) fun mid hMid => ?_
    exact ih (fun b hb => h b (List.mem_cons_of_mem a hb)) (hGood hStore (hShrinks a store _ _ hMid))

/-- What each turn of a loop removes is gone behind the loop. -/
theorem forEach_removes {f : Statement → Store → Outcome} {l : List Statement}
    (hShrinks : ∀ s store, Shrinks store (f s store))
    (hRemoves : ∀ s store store', f s store = some (.errorNone, store') → s ∉ store')
    (h : forEach f l store = some (.errorNone, store')) : ∀ s ∈ l, s ∉ store' := by
  induction l generalizing store with
  | nil => exact fun s hs => absurd hs List.not_mem_nil
  | cons s l ih =>
    rw [forEach] at h
    rcases unlessError_eq_some h with ⟨mid, hFirst, hRest⟩ | ⟨hNot, -⟩
    · refine List.forall_mem_cons.mpr ⟨fun hMem => ?_, ih hRest⟩
      exact hRemoves s store mid hFirst (Shrinks.forEach hShrinks l mid _ _ hRest hMem)
    · exact absurd rfl hNot

end Outcome

namespace InferenceModel

open Outcome

variable (parent : Parent) (compressedStatements : Bool) {again : Statement → Store → Outcome}

theorem removeSources_shrinks (graph : Node) (store : Store) :
    Shrinks store (removeSources parent compressedStatements graph store) := by
  rw [removeSources]
  split
  · exact .some (List.Subset.refl store)
  · exact .forEach (fun node store => .some (parent.shrinksAll _ store)) _ store

section Shrinks

variable (hAgain : ∀ p store, Shrinks store (again p store))

include hAgain

omit parent compressedStatements in
theorem removeContextWith_shrinks (context : Node) (store : Store) :
    Shrinks store (removeContextWith again context store) := by
  rw [removeContextWith]
  split
  · exact hAgain _ store
  · exact .some (List.Subset.refl store)

theorem removeGraph_shrinks (graph : Node) (store : Store) :
    Shrinks store (removeGraph parent compressedStatements again graph store) := by
  refine (removeSources_shrinks parent compressedStatements graph store).unlessError fun store _ => ?_
  refine Shrinks.unlessError (.some (parent.shrinksAll _ store)) fun store _ => ?_
  exact removeContextWith_shrinks hAgain graph store

theorem removeStatementWith_shrinks (statement : Statement) (store : Store) :
    Shrinks store (removeStatementWith parent compressedStatements again statement store) := by
  refine Shrinks.unlessError (.some (parent.shrinks statement store)) fun store _ => ?_
  exact .forEach (removeGraph_shrinks parent compressedStatements hAgain) _ store

end Shrinks

theorem removeAllStatements_shrinks (fuel : Nat) (p : Statement) (store : Store) :
    Shrinks store (removeAllStatements parent compressedStatements fuel p store) := by
  induction fuel generalizing p store with
  | zero => exact nofun
  | succ fuel ih =>
    rw [removeAllStatements]
    split
    · exact .forEach (removeStatementWith_shrinks parent compressedStatements ih) _ store
    · exact .some (List.Subset.refl store)

/-- A statement that is removed is gone, whatever else is removed with it. -/
theorem removeStatementWith_removes (hAgain : ∀ p store, Shrinks store (again p store))
    {statement : Statement} {store store' : Store}
    (h : removeStatementWith parent compressedStatements again statement store = some (.errorNone, store')) :
    statement ∉ store' := by
  rcases unlessError_eq_some h with ⟨mid, hFirst, hRest⟩ | ⟨hNot, -⟩
  · intro hMem
    exact parent.removed (Option.some.inj hFirst)
      (Shrinks.forEach (removeGraph_shrinks parent compressedStatements hAgain) _ mid _ _ hRest hMem)
  · exact absurd rfl hNot

/-! ### Termination -/

/-- The number of statements, which every removal of a statement that is there lowers. -/
def size (store : Store) : Nat := store.toFinset.card

omit parent in
theorem size_le {store store' : Store} (h : store' ⊆ store) : size store' ≤ size store :=
  Finset.card_le_card fun _ hs => List.mem_toFinset.mpr (h (List.mem_toFinset.mp hs))

omit parent in
theorem size_lt {store store' : Store} {s : Statement} (h : store' ⊆ store) (hs : s ∈ store)
    (hRemoved : s ∉ store') : size store' < size store := by
  refine Finset.card_lt_card ((Finset.ssubset_iff_of_subset fun q hq => ?_).mpr ⟨s, ?_, ?_⟩)
  · exact List.mem_toFinset.mpr (h (List.mem_toFinset.mp hq))
  · exact List.mem_toFinset.mpr hs
  · exact fun hMem => hRemoved (List.mem_toFinset.mp hMem)

section Returns

theorem removeSources_isSome (graph : Node) (store : Store) :
    (removeSources parent compressedStatements graph store).isSome = true := by
  rw [removeSources]
  split
  · rfl
  · exact isSome_forEach (fun _ => True) (fun _ _ => trivial) (fun node store => .some (parent.shrinksAll _ store))
      (fun _ _ _ _ => rfl) trivial

variable {n : Nat} (hAgain : ∀ p store, Shrinks store (again p store))
  (hReturns : ∀ p store, size store < n → (again p store).isSome = true)

include hReturns

theorem removeGraph_isSome (graph : Node) {store : Store} (hSize : size store < n) :
    (removeGraph parent compressedStatements again graph store).isSome = true := by
  refine isSome_unlessError (removeSources_isSome parent compressedStatements graph store)
    fun mid hMid => isSome_unlessError rfl fun store' hStore' => ?_
  have hSubset := removeSources_shrinks parent compressedStatements graph store _ _ hMid
  have hSubset' : store' ⊆ mid := by
    have := parent.shrinksAll ⟨graph, .empty, .empty, .ofUri SIL.InferenceMetaData⟩ mid
    rwa [Option.some.inj hStore'] at this
  rw [removeContextWith]
  split
  · have := size_le hSubset
    have := size_le hSubset'
    exact hReturns _ store' (by omega)
  · rfl

include hAgain

theorem removeStatementWith_isSome {statement : Statement} {store : Store}
    (hSize : ∀ store', parent.removeStatement statement store = (.errorNone, store') → size store' < n) :
    (removeStatementWith parent compressedStatements again statement store).isSome = true := by
  refine isSome_unlessError rfl fun mid hMid => ?_
  refine isSome_forEach (fun store => size store < n) (fun hGood hSubset => ?_)
    (removeGraph_shrinks parent compressedStatements hAgain)
    (fun graph _ store hStore => removeGraph_isSome parent compressedStatements hReturns graph hStore)
    (hSize mid (Option.some.inj hMid))
  exact Nat.lt_of_le_of_lt (size_le hSubset) hGood

end Returns

/-- The first statement that is listed is removed from the store before any call that lists again. -/
theorem removeAllStatements_isSome (p : Statement) (store : Store) {fuel : Nat} (h : size store < fuel) :
    (removeAllStatements parent compressedStatements fuel p store).isSome = true := by
  induction fuel generalizing p store with
  | zero => omega
  | succ fuel ih =>
    have hShrinks := removeAllStatements_shrinks parent compressedStatements fuel
    rw [removeAllStatements]
    split
    · have hListed : ∀ s ∈ parent.listStatements p store, s ∈ store := fun s hs =>
        (parent.mem_listStatements.mp hs).1
      cases hList : parent.listStatements p store with
      | nil => rfl
      | cons s rest =>
        have hs : s ∈ store := hListed s (by simp [hList])
        refine isSome_unlessError ?_ fun mid hMid => ?_
        · refine removeStatementWith_isSome parent compressedStatements hShrinks ih fun store' hStore' => ?_
          have hSubset : store' ⊆ store := by
            have := parent.shrinks s store
            rwa [hStore'] at this
          have := size_lt hSubset hs (parent.removed hStore')
          omega
        · have hGone : size mid < fuel := by
            have hSubset := removeStatementWith_shrinks parent compressedStatements hShrinks s store _ _ hMid
            have := size_lt hSubset hs (removeStatementWith_removes parent compressedStatements hShrinks hMid)
            omega
          refine isSome_forEach (fun store => size store < fuel)
            (fun hGood hSubset => Nat.lt_of_le_of_lt (size_le hSubset) hGood)
            (removeStatementWith_shrinks parent compressedStatements hShrinks)
            (fun t _ store hStore => ?_) hGone
          refine removeStatementWith_isSome parent compressedStatements hShrinks ih fun store' hStore' => ?_
          have hSubset : store' ⊆ store := by
            have := parent.shrinks t store
            rwa [hStore'] at this
          exact Nat.lt_of_le_of_lt (size_le hSubset) hStore
    · rfl

/-- Removing a statement and removing all that match end in every store, whatever metadata is in it. -/
theorem removal_terminates (statement p : Statement) (store : Store) :
    ∃ n, ∀ fuel, n ≤ fuel →
      (∃ c store', removeStatement parent compressedStatements fuel statement store = some (c, store')) ∧
      ∃ c store', removeAllStatements parent compressedStatements fuel p store = some (c, store') := by
  refine ⟨size store + 1, fun fuel hFuel => ⟨?_, ?_⟩⟩
  · have hReturns : (removeStatement parent compressedStatements fuel statement store).isSome = true := by
      refine removeStatementWith_isSome parent compressedStatements
        (removeAllStatements_shrinks parent compressedStatements fuel)
        (fun p store hSize => removeAllStatements_isSome parent compressedStatements p store hSize)
        fun store' hStore' => ?_
      have hSubset : store' ⊆ store := by
        have := parent.shrinks statement store
        rwa [hStore'] at this
      have := size_le hSubset
      omega
    obtain ⟨⟨c, store'⟩, hResult⟩ := Option.isSome_iff_exists.mp hReturns
    exact ⟨c, store', hResult⟩
  · have hReturns := removeAllStatements_isSome parent compressedStatements p store hFuel
    obtain ⟨⟨c, store'⟩, hResult⟩ := Option.isSome_iff_exists.mp hReturns
    exact ⟨c, store', hResult⟩

/-! ### What is gone -/

/-- Without an error, nothing in the store matches any more, unless the object is a literal: then
nothing has been done. -/
theorem removeAllStatements_gone {fuel : Nat} {p : Statement} {store store' : Store}
    (h : removeAllStatements parent compressedStatements fuel p store = some (.errorNone, store')) :
    (p.object.isLiteral = false → ∀ q ∈ store', Store.isMatch p q = false) ∧
      (p.object.isLiteral = true → store' = store) := by
  cases fuel with
  | zero => cases h
  | succ fuel =>
    rw [removeAllStatements] at h
    cases hLiteral : p.object.isLiteral with
    | true =>
      rw [hLiteral] at h
      exact ⟨nofun, fun _ => (Prod.mk.inj (Option.some.inj h)).2.symm⟩
    | false =>
      rw [hLiteral] at h
      have hShrinks := removeStatementWith_shrinks parent compressedStatements
        (removeAllStatements_shrinks parent compressedStatements fuel)
      refine ⟨fun _ q hq => ?_, nofun⟩
      by_contra hMatch
      have hListed : q ∈ parent.listStatements p store :=
        parent.mem_listStatements.mpr ⟨Shrinks.forEach hShrinks _ store _ _ h hq, by simpa using hMatch⟩
      exact forEach_removes hShrinks (fun s store store' => removeStatementWith_removes parent
        compressedStatements (removeAllStatements_shrinks parent compressedStatements fuel)) h q hListed hq

/-- Where no error is reported, nothing matches any more exactly if the object of the pattern is no
literal or nothing has matched before; and so for the calls that forward to it. -/
theorem removed_means_gone (fuel : Nat) (p : Statement) (context : Node) (store store' : Store) :
    (removeAllStatements parent compressedStatements fuel p store = some (.errorNone, store') →
      ((∀ q ∈ store', Store.isMatch p q = false) ↔
        (p.object.isLiteral = false ∨ ∀ q ∈ store, Store.isMatch p q = false))) ∧
    (removeAllStatementsOf parent compressedStatements fuel p.subject p.predicate p.object p.context store =
        some (.errorNone, store') →
      ((∀ q ∈ store', Store.isMatch p q = false) ↔
        (p.object.isLiteral = false ∨ ∀ q ∈ store, Store.isMatch p q = false))) ∧
    (clear parent compressedStatements fuel store = some (.errorNone, store') → store' = []) ∧
    (removeContext parent compressedStatements fuel context store = some (.errorNone, store') →
      ∀ q ∈ store', q.context ≠ context) := by
  have hPattern : removeAllStatements parent compressedStatements fuel p store = some (.errorNone, store') →
      ((∀ q ∈ store', Store.isMatch p q = false) ↔
        (p.object.isLiteral = false ∨ ∀ q ∈ store, Store.isMatch p q = false)) := by
    intro h
    obtain ⟨hGone, hSame⟩ := removeAllStatements_gone parent compressedStatements h
    cases hLiteral : p.object.isLiteral with
    | false => exact ⟨fun _ => .inl rfl, fun _ => hGone hLiteral⟩
    | true =>
      rw [hSame hLiteral]
      exact ⟨.inr, fun h => h.resolve_left nofun⟩
  refine ⟨hPattern, hPattern, fun h => ?_, fun h => ?_⟩
  · have hGone := (removeAllStatements_gone parent compressedStatements h).1 rfl
    rw [List.eq_nil_iff_forall_not_mem]
    intro q hq
    exact nomatch hGone q hq
  · rw [removeContext, removeContextWith] at h
    split at h
    · rename_i hValid
      intro q hq hContext
      have hGone := (removeAllStatements_gone parent compressedStatements h).1 rfl q hq
      rw [← hContext] at hGone
      simp [Store.isMatch, Node.isEmpty, Node.type] at hGone
    · cases h

end InferenceModel

end Qt

section Example

open InferenceModel

local instance removalQt : Qt := asciiQt

/-- What a resource is the subject of is gone. -/
theorem removed_means_gone_subject :
    let s : Statement := ⟨.ofUri RDF.type, .ofUri RDF.type, .ofUri RDF.subject, .ofUri RDF.object⟩
    let p : Statement := ⟨.ofUri RDF.type, .empty, .empty, .empty⟩
    ∃ store', removeAllStatements (.ofStore fun _ _ => []) true 2 p [s] = some (.errorNone, store') ∧
      ∀ q ∈ store', Store.isMatch p q = false := by
  intro s p
  have hRun : removeAllStatements (.ofStore fun _ _ => []) true 2 p [s] = some (.errorNone, []) := by
    decide
  exact ⟨[], hRun, ((removed_means_gone _ true 2 p .empty [s] []).1 hRun).mpr (.inl rfl)⟩

/-- A statement with a literal matches a pattern with that literal, before and behind the call. -/
theorem literal_remains :
    let s : Statement := ⟨.ofUri RDF.type, .ofUri RDF.type,
      .ofLiteral (.createPlainLiteral "x".toList .empty), .empty⟩
    let p : Statement := ⟨.empty, .empty, s.object, .empty⟩
    removeAllStatements (.ofStore fun _ _ => []) true 1 p [s] = some (.errorNone, [s]) ∧
      Store.isMatch p s = true := by
  decide

end Example

end Inference

end Soprano
