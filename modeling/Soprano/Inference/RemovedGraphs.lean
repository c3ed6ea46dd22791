import Soprano.Inference.Bookkeeping
import Soprano.Library.Cascade

/-! What `InferenceModel::removeStatement` takes out: the statement, and the graphs whose recorded sources lead
back to it. -/

namespace Soprano

namespace Inference

open Cascade Sparql Vocabulary InferenceModel

section Qt

variable [Qt] {select : QString → Store → List BindingSet} {createRandomUri : Nat → QUrl}
  {compressed : Bool} {uris : Nat} {R : List Source} {W : Set Statement} {store store₀ store' : Store}
  {q s : Statement} {g : Node}

/-- The lookup of `t` finds the graphs that `s` is a source of. -/
def SameSource (compressed : Bool) (s t : Statement) : Prop :=
  if compressed then compressText s = compressText t else s.triple = t.triple

section Ledger

variable (createRandomUri : Nat → QUrl) (compressed : Bool) (R : List Source)

/-- The graphs of the statements, and the sources on record. -/
def ledger : Ledger Statement Node where
  group := Statement.context
  source q g := ∃ r ∈ R, r.graphNode createRandomUri = g ∧ SameSource compressed r.statement q

/-- The statements beside the metadata, and the graphs of inferred statements. -/
def onRecord (store : Store) : State Statement Node where
  items := {q | q ∈ store ∧ q.context ≠ .ofUri SIL.InferenceMetaData}
  alive := {g | graphQuad g ∈ store ∧ ∃ r ∈ R, r.graphNode createRandomUri = g}

end Ledger

theorem compressText_triple (s : Statement) : compressText s.triple = compressText s := rfl

theorem SameSource.of_triple (h : s.triple = q.triple) : SameSource compressed s q := by
  rw [SameSource]
  split
  · rw [← compressText_triple s, h, compressText_triple]
  · exact h

/-- The graphs that are found for a statement are those that it is a source of. -/
theorem Kept.mem_inferedGraphs (h : Kept createRandomUri compressed uris R store)
    (hRandom : RandomUris createRandomUri) (hSelect : Answers select) (hFull : Select.Full s) :
    g ∈ inferedGraphsForStatement (.ofStore select) compressed s store ↔
      g ∈ (onRecord createRandomUri R store).alive ∧ (ledger createRandomUri compressed R).source s g := by
  have hRecord : (g ∈ (onRecord createRandomUri R store).alive ∧
      (ledger createRandomUri compressed R).source s g) ↔
      ∃ r ∈ R, r.graphNode createRandomUri = g ∧ graphQuad g ∈ store ∧ SameSource compressed r.statement s := by
    constructor
    · rintro ⟨⟨hAlive, -⟩, r, hr, hGraph, hSame⟩
      exact ⟨r, hr, hGraph, hAlive, hSame⟩
    · rintro ⟨r, hr, hGraph, hAlive, hSame⟩
      exact ⟨⟨hAlive, r, hr, hGraph⟩, r, hr, hGraph, hSame⟩
  rw [hRecord]
  cases compressed with
  | true => exact h.mem_compressed
  | false => exact h.mem_uncompressed hRandom hSelect hFull

/-- A statement beside the metadata does not read as metadata. -/
theorem Kept.foreign (h : Kept createRandomUri compressed uris R store) (hq : q ∈ store)
    (hContext : q.context ≠ .ofUri SIL.InferenceMetaData) : Foreign createRandomUri compressed q := by
  rcases h.known q hq with hForeign | ⟨k, rfl⟩ | ⟨r, -, hQuad⟩
  · exact hForeign
  · exact absurd rfl hContext
  · exact absurd (mem_sourceQuads hQuad).1 hContext

/-! ### One call -/

/-- What a call takes out that ends without an error. -/
structure Removes (createRandomUri : Nat → QUrl) (compressed : Bool) (uris : Nat) (R : List Source)
    (W : Set Statement) (store store' : Store) : Prop where
  kept : Kept createRandomUri compressed uris R store'
  subset : store' ⊆ store
  cascades : (ledger createRandomUri compressed R).Cascades W (onRecord createRandomUri R store)
    (onRecord createRandomUri R store')

theorem Removes.refl (h : Kept createRandomUri compressed uris R store) :
    Removes createRandomUri compressed uris R W store store :=
  ⟨h, List.Subset.refl store, .refl W _⟩

theorem Removes.trans {mid : Store} (h : Removes createRandomUri compressed uris R W store mid)
    (h' : Removes createRandomUri compressed uris R W mid store') :
    Removes createRandomUri compressed uris R W store store' :=
  ⟨h'.kept, List.Subset.trans h'.subset h.subset, h.cascades.trans h'.cascades⟩

/-- A loop takes out what its turns take out, and what a turn has brought about stays so. -/
theorem Removes.forEach {α : Type} {f : α → Store → Outcome} {l : List α} {P : α → Store → Prop}
    (hP : ∀ a {store store'}, store' ⊆ store → P a store → P a store')
    (hStep : ∀ a ∈ l, ∀ {store store'}, Kept createRandomUri compressed uris R store → store ⊆ store₀ →
      f a store = some (.errorNone, store') →
        Removes createRandomUri compressed uris R W store store' ∧ P a store')
    (h : Kept createRandomUri compressed uris R store) (hSubset : store ⊆ store₀)
    (hRun : Outcome.forEach f l store = some (.errorNone, store')) :
    Removes createRandomUri compressed uris R W store store' ∧ ∀ a ∈ l, P a store' := by
  induction l generalizing store with
  | nil =>
    obtain ⟨-, rfl⟩ := Prod.mk.inj (Option.some.inj hRun)
    exact ⟨.refl h, fun a ha => absurd ha List.not_mem_nil⟩
  | cons a l ih =>
    rcases Outcome.unlessError_eq_some hRun with ⟨mid, hFirst, hRest⟩ | ⟨hNot, -⟩
    · obtain ⟨hTurn, hDone⟩ := hStep a List.mem_cons_self h hSubset hFirst
      obtain ⟨hLater, hAll⟩ := ih (fun b hb => hStep b (List.mem_cons_of_mem a hb)) hTurn.kept
        (List.Subset.trans hTurn.subset hSubset) hRest
      exact ⟨hTurn.trans hLater, List.forall_mem_cons.mpr ⟨hP a hLater.subset hDone, hAll⟩⟩
    · exact absurd rfl hNot

section Call

variable {again : Statement → Store → Outcome} (hRandom : RandomUris createRandomUri)
  (hSelect : Answers select)
  (hAgain : ∀ {p store store'}, Kept createRandomUri compressed uris R store → store ⊆ store₀ →
    (∀ q ∈ store, Store.isMatch p q = true → q.context ≠ .ofUri SIL.InferenceMetaData ∧ q ∈ W) →
    again p store = some (.errorNone, store') → Removes createRandomUri compressed uris R W store store')
  (hGone : ∀ {p store store'}, p.object.isLiteral = false → again p store = some (.errorNone, store') →
    ∀ q ∈ store', Store.isMatch p q = false)

include hRandom hAgain hGone

/-- A graph is removed with its record, and with what was inferred from its statements. -/
theorem Removes.removeGraph (h : Kept createRandomUri compressed uris R store) (hSubset : store ⊆ store₀)
    {r : Source} (hr : r ∈ R) (hTaken : ∀ q, q.context = r.graphNode createRandomUri → q ∈ W)
    (hRun : InferenceModel.removeGraph (.ofStore select) compressed again (r.graphNode createRandomUri) store =
      some (.errorNone, store')) :
    Removes createRandomUri compressed uris R W store store' ∧
      (ledger createRandomUri compressed R).Gone (onRecord createRandomUri R store')
        (r.graphNode createRandomUri) := by
  have hSome : r.graphNode createRandomUri ≠ .empty := by
    rw [Source.graphNode, Node.ofUri_self _ (hRandom.isEmpty r.graph)]
    rintro ⟨⟩
  have hOther : r.graphNode createRandomUri ≠ .ofUri SIL.InferenceMetaData := hRandom.ofUri_ne r.graph
  obtain ⟨mid, hEq, hMem⟩ := removeGraph_eq select compressed again hSome h.valid
  have hMid := h.removeMetadata hRandom hr hMem
  have hMidSubset : mid ⊆ store := fun q hq => ((hMem q).mp hq).1
  rw [hEq, removeContextWith, if_pos (isValid_iff.mpr hSome)] at hRun
  have hContext : ∀ {q}, Store.isMatch ⟨.empty, .empty, .empty, r.graphNode createRandomUri⟩ q = true ↔
      q.context = r.graphNode createRandomUri := by
    intro q
    rw [Store.isMatch_iff]
    exact ⟨fun hMatch => hMatch.2.2.2 hSome, fun hEq => ⟨fun hNot => absurd rfl hNot,
      fun hNot => absurd rfl hNot, fun hNot => absurd rfl hNot, fun _ => hEq⟩⟩
  have hRest := hAgain hMid (List.Subset.trans hMidSubset hSubset)
    (fun q _ hMatch => ⟨hContext.mp hMatch ▸ hOther, hTaken q (hContext.mp hMatch)⟩) hRun
  have hEmpty : (ledger createRandomUri compressed R).Gone (onRecord createRandomUri R store')
      (r.graphNode createRandomUri) := by
    refine ⟨fun hAlive => ?_, fun q hq hGraph => ?_⟩
    · exact ((hMem _).mp (hRest.subset hAlive.1)).2 ⟨rfl, .inl rfl⟩
    · exact Bool.false_ne_true ((hGone rfl hRun q hq.1).symm.trans (hContext.mpr hGraph))
  refine ⟨⟨hRest.kept, List.Subset.trans hRest.subset hMidSubset, .of_group ?_ (fun g => ?_) hRest.cascades hEmpty⟩, hEmpty⟩
  · ext q
    refine and_congr_left fun hNot => ⟨fun hq => hMidSubset hq, fun hq => (hMem q).mpr ⟨hq, ?_⟩⟩
    exact fun hMeta => hNot hMeta.1
  · constructor
    · rintro ⟨hAlive, hRecord⟩
      obtain ⟨hIn, hNot⟩ := (hMem _).mp hAlive
      exact ⟨⟨hIn, hRecord⟩, fun hEq => hNot ⟨rfl, .inl hEq⟩⟩
    · rintro ⟨⟨hAlive, t, ht, rfl⟩, hNe⟩
      refine ⟨(hMem _).mpr ⟨hAlive, ?_⟩, t, ht, rfl⟩
      rintro ⟨-, hEq | ⟨rfl, p, hp, -, hPredicate, hMeta, hObject⟩⟩
      · exact hNe hEq
      · -- no source statement has the name of a graph
        obtain ⟨t', ht', -, rfl⟩ := h.of_mark hp hPredicate fun _ => hMeta
        exact (h.distinct rfl t' ht' t ht).1 (hRandom.ofUri_inj.mp hObject.symm)

include hSelect

/-- A statement is removed with the graphs that it is a source of. -/
theorem Removes.removeStatementWith (h : Kept createRandomUri compressed uris R store)
    (hSubset : store ⊆ store₀) (hContext : s.context ≠ .ofUri SIL.InferenceMetaData)
    (hFull : Select.Full s) (hForeign : Foreign createRandomUri compressed s)
    (hTaken : s ∈ W) (hLater : ∀ g ∈ (onRecord createRandomUri R store₀).alive,
      (ledger createRandomUri compressed R).source s g → ∀ q, q.context = g → q ∈ W)
    (hRun : InferenceModel.removeStatementWith (.ofStore select) compressed again s store =
      some (.errorNone, store')) :
    Removes createRandomUri compressed uris R W store store' := by
  have hMem : ∀ q, q ∈ Store.removeStatement store s ↔ q ∈ store ∧ q ≠ s := fun q => by
    rw [Store.removeStatement, List.mem_filter, decide_eq_true_iff]
  have hMid : Kept createRandomUri compressed uris R (Store.removeStatement store s) := by
    refine h.removeForeign List.filter_sublist.subset fun q hq hNot => ?_
    have hEq : q = s := by
      by_contra hNe
      exact hNot ((hMem q).mpr ⟨hq, hNe⟩)
    exact hEq ▸ hForeign
  have hMidSubset : Store.removeStatement store s ⊆ store := List.filter_sublist.subset
  have hAlive : (onRecord createRandomUri R (Store.removeStatement store s)).alive =
      (onRecord createRandomUri R store).alive := by
    ext g
    refine and_congr_left fun _ => (hMem _).trans (and_iff_left_of_imp fun _ hEq => hContext ?_)
    rw [← hEq]
    rfl
  rcases Outcome.unlessError_eq_some hRun with ⟨mid, hFirst, hLoop⟩ | ⟨hNot, -⟩
  · obtain ⟨-, rfl⟩ := Prod.mk.inj (Option.some.inj hFirst)
    have hFound : ∀ g, g ∈ inferedGraphsForStatement (.ofStore select) compressed s
        (Store.removeStatement store s) ↔ g ∈ (onRecord createRandomUri R (Store.removeStatement store s)).alive ∧
          (ledger createRandomUri compressed R).source s g := fun g =>
      hMid.mem_inferedGraphs hRandom hSelect hFull
    obtain ⟨hRest, hAll⟩ := Removes.forEach
      (P := fun g store => (ledger createRandomUri compressed R).Gone (onRecord createRandomUri R store) g)
      (fun g store store' hSub hEmpty => hEmpty.mono (fun q hq => ⟨hSub hq.1, hq.2⟩) fun g hg => ⟨hSub hg.1, hg.2⟩)
      (fun g hg store store' hKept hSub hTurn => by
        obtain ⟨⟨hIn, r, hr, rfl⟩, hSource⟩ := (hFound g).mp hg
        refine Removes.removeGraph hRandom hAgain hGone hKept hSub hr (hLater _ ⟨?_, r, hr, rfl⟩ hSource) hTurn
        exact hSubset (hMidSubset hIn)) hMid (List.Subset.trans hMidSubset hSubset) hLoop
    refine ⟨hRest.kept, List.Subset.trans hRest.subset hMidSubset, .of_item hTaken (fun q => ?_) hAlive
      hRest.cascades fun g hg hSource => hAll g ((hFound g).mpr ⟨hg, hSource⟩)⟩
    exact (and_congr_left fun _ => hMem q).trans and_right_comm
  · exact absurd rfl hNot

end Call

/-! ### To any depth -/

/-- `removeAllStatements` of statements that may be taken out, where with a statement all may be that lies in the
graphs that it is a source of. -/
theorem Removes.removeAllStatements (hRandom : RandomUris createRandomUri) (hSelect : Answers select)
    (hClosed : ∀ q ∈ (onRecord createRandomUri R store₀).items, q ∈ W →
      ∀ g ∈ (onRecord createRandomUri R store₀).alive, (ledger createRandomUri compressed R).source q g →
        ∀ q', q'.context = g → q' ∈ W)
    (fuel : Nat) {p : Statement} {store store' : Store} (h : Kept createRandomUri compressed uris R store)
    (hSubset : store ⊆ store₀)
    (hTaken : ∀ q ∈ store, Store.isMatch p q = true → q.context ≠ .ofUri SIL.InferenceMetaData ∧ q ∈ W)
    (hRun : InferenceModel.removeAllStatements (.ofStore select) compressed fuel p store =
      some (.errorNone, store')) : Removes createRandomUri compressed uris R W store store' := by
  induction fuel generalizing p store store' with
  | zero => cases hRun
  | succ fuel ih =>
    rw [InferenceModel.removeAllStatements] at hRun
    split at hRun
    · refine (Removes.forEach (P := fun _ _ => True) (fun _ _ _ _ _ => trivial)
        (fun s hs mid store' hKept hSub hTurn => ⟨?_, trivial⟩) h hSubset hRun).1
      obtain ⟨hIn, hMatch⟩ := (Parent.ofStore select).mem_listStatements.mp hs
      obtain ⟨hContext, hMay⟩ := hTaken s hIn hMatch
      exact Removes.removeStatementWith hRandom hSelect (fun hKept hSub hMay hCall => ih hKept hSub hMay hCall)
        (fun hObject hCall => (removeAllStatements_gone _ _ hCall).1 hObject) hKept hSub hContext
        (Select.full_of_isValid (h.valid s hIn)) (h.foreign hIn hContext) hMay
        (hClosed s ⟨hSubset hIn, hContext⟩ hMay) hTurn
    · obtain ⟨-, rfl⟩ := Prod.mk.inj (Option.some.inj hRun)
      exact .refl h

/-- `removeStatement` takes the statement out and the graphs that lead back to it, and nothing else beside the
metadata. -/
theorem Kept.removeStatement_cascades (h : Kept createRandomUri compressed uris R store)
    (hRandom : RandomUris createRandomUri) (hSelect : Answers select) (hs : s ∈ store)
    (hContext : s.context ≠ .ofUri SIL.InferenceMetaData) {fuel : Nat}
    (hRun : InferenceModel.removeStatement (.ofStore select) compressed fuel s store =
      some (.errorNone, store')) :
    (ledger createRandomUri compressed R).Cascades
        ((ledger createRandomUri compressed R).Taken (onRecord createRandomUri R store) s)
        (onRecord createRandomUri R store) (onRecord createRandomUri R store') ∧
      s ∉ (onRecord createRandomUri R store').items := by
  have hClosed : ∀ q ∈ (onRecord createRandomUri R store).items,
      q ∈ (ledger createRandomUri compressed R).Taken (onRecord createRandomUri R store) s →
      ∀ g ∈ (onRecord createRandomUri R store).alive, (ledger createRandomUri compressed R).source q g →
        ∀ q', q'.context = g → q' ∈ (ledger createRandomUri compressed R).Taken (onRecord createRandomUri R store) s :=
    fun q hItem hMay g hg hSource q' hGraph => Ledger.mem_taken_of_source hMay hItem hg hSource hGraph
  have hRemoves := Removes.removeStatementWith hRandom hSelect
    (fun hKept hSub hMay hCall => Removes.removeAllStatements hRandom hSelect hClosed fuel hKept hSub hMay hCall)
    (fun hObject hCall => (removeAllStatements_gone _ _ hCall).1 hObject) h (List.Subset.refl store) hContext
    (Select.full_of_isValid (h.valid s hs)) (h.foreign hs hContext) (.inl rfl)
    (hClosed s ⟨hs, hContext⟩ (.inl rfl)) hRun
  have hGone : s ∉ store' := removeStatementWith_removes _ _ (removeAllStatements_shrinks _ _ fuel) hRun
  exact ⟨hRemoves.cascades, fun hMem => hGone hMem.1⟩

end Qt

end Inference

end Soprano
