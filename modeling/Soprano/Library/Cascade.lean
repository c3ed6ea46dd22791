import Soprano.Library.Saturation

/-! Removal that cascades.  Items lie in groups, and items are recorded as sources of groups; when an item is
removed the groups that it is a source of are removed with their items, and so on.  What is left behind such a
removal is what was there, without the item and without the groups that lead back to it.  Where the sources on
record are premises of what was derived, all that is left is still derivable. -/

namespace Cascade

open Saturation

variable {α γ τ ι : Type*}

/-- Which group an item lies in, and of which groups it is a source. -/
structure Ledger (α γ : Type*) where
  group : α → γ
  source : α → γ → Prop

/-- The items that are there, and the groups whose sources are still on record. -/
structure State (α γ : Type*) where
  items : Set α
  alive : Set γ

namespace Ledger

variable {L : Ledger α γ} {W : Set α} {s t u : State α γ} {a b : α} {g g' : γ}

/-- Nothing is left of the group. -/
structure Gone (L : Ledger α γ) (s : State α γ) (g : γ) : Prop where
  dead : g ∉ s.alive
  empty : ∀ a ∈ s.items, L.group a ≠ g

theorem Gone.mono (h : L.Gone s g) (hItems : t.items ⊆ s.items) (hAlive : t.alive ⊆ s.alive) :
    L.Gone t g :=
  ⟨fun hg => h.dead (hAlive hg), fun a ha => h.empty a (hItems ha)⟩

/-- Nothing is added and nothing outside `W` is taken; with each item that is taken all groups are gone that it
was a source of, and a group goes as a whole. -/
structure Cascades (L : Ledger α γ) (W : Set α) (s t : State α γ) : Prop where
  items : t.items ⊆ s.items
  alive : t.alive ⊆ s.alive
  taken : ∀ a ∈ s.items, a ∉ t.items → a ∈ W
  sources : ∀ a ∈ s.items, a ∉ t.items → ∀ g ∈ s.alive, L.source a g → L.Gone t g
  whole : ∀ g ∈ s.alive, g ∉ t.alive → L.Gone t g

theorem Cascades.refl (W : Set α) (s : State α γ) : L.Cascades W s s :=
  ⟨subset_rfl, subset_rfl, fun _ ha hNot => absurd ha hNot, fun _ ha hNot => absurd ha hNot,
    fun _ hg hNot => absurd hg hNot⟩

theorem Cascades.trans (h : L.Cascades W s t) (h' : L.Cascades W t u) : L.Cascades W s u where
  items := h'.items.trans h.items
  alive := h'.alive.trans h.alive
  taken a ha hNot := by
    by_cases hMid : a ∈ t.items
    · exact h'.taken a hMid hNot
    · exact h.taken a ha hMid
  sources a ha hNot g hg hSource := by
    by_cases hMid : a ∈ t.items
    · by_cases hAlive : g ∈ t.alive
      · exact h'.sources a hMid hNot g hAlive hSource
      · exact (h.whole g hg hAlive).mono h'.items h'.alive
    · exact (h.sources a ha hMid g hg hSource).mono h'.items h'.alive
  whole g hg hNot := by
    by_cases hAlive : g ∈ t.alive
    · exact h'.whole g hAlive hNot
    · exact (h.whole g hg hAlive).mono h'.items h'.alive

/-- An item is taken first, and then the groups that it is a source of. -/
theorem Cascades.of_item (ha : a ∈ W) (hItems : ∀ b, b ∈ t.items ↔ b ∈ s.items ∧ b ≠ a)
    (hAlive : t.alive = s.alive) (h : L.Cascades W t u) (hGone : ∀ g ∈ t.alive, L.source a g → L.Gone u g) :
    L.Cascades W s u where
  items := h.items.trans fun b hb => ((hItems b).mp hb).1
  alive := hAlive ▸ h.alive
  taken b hb hNot := by
    by_cases hEq : b = a
    · exact hEq ▸ ha
    · exact h.taken b ((hItems b).mpr ⟨hb, hEq⟩) hNot
  sources b hb hNot g hg hSource := by
    rw [← hAlive] at hg
    by_cases hEq : b = a
    · exact hGone g hg (hEq ▸ hSource)
    · exact h.sources b ((hItems b).mpr ⟨hb, hEq⟩) hNot g hg hSource
  whole g hg hNot := h.whole g (hAlive ▸ hg) hNot

/-- The record of a group is taken first, and then its items. -/
theorem Cascades.of_group (hItems : t.items = s.items) (hAlive : ∀ g', g' ∈ t.alive ↔ g' ∈ s.alive ∧ g' ≠ g)
    (h : L.Cascades W t u) (hGone : L.Gone u g) : L.Cascades W s u where
  items := hItems ▸ h.items
  alive := h.alive.trans fun g' hg' => ((hAlive g').mp hg').1
  taken b hb hNot := h.taken b (hItems ▸ hb) hNot
  sources b hb hNot g' hg' hSource := by
    by_cases hEq : g' = g
    · exact hEq ▸ hGone
    · exact h.sources b (hItems ▸ hb) hNot g' ((hAlive g').mpr ⟨hg', hEq⟩) hSource
  whole g' hg' hNot := by
    by_cases hEq : g' = g
    · exact hEq ▸ hGone
    · exact h.whole g' ((hAlive g').mpr ⟨hg', hEq⟩) hNot

/-- The groups that lead back to the item. -/
inductive Lost (L : Ledger α γ) (s : State α γ) (a : α) : γ → Prop
  | source {g : γ} (hg : g ∈ s.alive) (h : L.source a g) : Lost L s a g
  | member {b : α} {g : γ} (hMember : Lost L s a (L.group b)) (hb : b ∈ s.items) (hg : g ∈ s.alive)
      (h : L.source b g) : Lost L s a g

theorem Lost.alive (h : L.Lost s a g) : g ∈ s.alive := by
  cases h with
  | source hg _ => exact hg
  | member _ _ hg _ => exact hg

/-- Where the item is gone, so are the groups that lead back to it. -/
theorem Cascades.gone (h : L.Cascades W s t) (ha : a ∈ s.items) (hNot : a ∉ t.items) (hLost : L.Lost s a g) :
    L.Gone t g := by
  induction hLost with
  | source hg hSource => exact h.sources a ha hNot _ hg hSource
  | member hMember hb hg hSource ih => exact h.sources _ hb (fun hMem => ih.empty _ hMem rfl) _ hg hSource

/-- The removal of the item may take it, and what lies in the groups that lead back to it. -/
def Taken (L : Ledger α γ) (s : State α γ) (a : α) : Set α := {b | b = a ∨ L.Lost s a (L.group b)}

/-- What it may take with another item it may take with the first. -/
theorem mem_taken_of_source (hb : b ∈ L.Taken s a) (hMem : b ∈ s.items) (hg : g ∈ s.alive)
    (hSource : L.source b g) {c : α} (hc : L.group c = g) : c ∈ L.Taken s a := by
  right
  rw [hc]
  rcases hb with rfl | hLost
  · exact .source hg hSource
  · exact .member hLost hMem hg hSource

/-- A removal that cascades and takes no more than it may leaves exactly the rest. -/
theorem Cascades.mem_iff (h : L.Cascades (L.Taken s a) s t) (ha : a ∈ s.items) (hNot : a ∉ t.items) :
    b ∈ t.items ↔ b ∈ s.items ∧ b ≠ a ∧ ¬L.Lost s a (L.group b) := by
  constructor
  · intro hb
    refine ⟨h.items hb, ?_, fun hLost => (h.gone ha hNot hLost).empty b hb rfl⟩
    rintro rfl
    exact hNot hb
  · rintro ⟨hb, hNe, hKept⟩
    by_contra hGone
    rcases h.taken b hb hGone with hEq | hLost
    · exact hNe hEq
    · exact hKept hLost

/-! ### What is still derivable -/

variable {S : System τ ι} {fact : α → τ} {E : Set α}

/-- An item was given, or it is the conclusion of an instance whose premises are facts of items that are
recorded as the sources of its group. -/
inductive Grounded (L : Ledger α γ) (s : State α γ) (S : System τ ι) (fact : α → τ) (E : Set α) : α → Prop
  | given {a : α} (h : a ∈ E) (ha : a ∈ s.items) : Grounded L s S fact E a
  | derived {a : α} {i : ι} {premise : τ → α} (ha : a ∈ s.items) (hi : i ∈ S.instances)
      (hFact : S.conclusion i = fact a)
      (hPremise : ∀ p ∈ S.premises i,
        fact (premise p) = p ∧ L.group a ∈ s.alive ∧ L.source (premise p) (L.group a))
      (h : ∀ p ∈ S.premises i, Grounded L s S fact E (premise p)) : Grounded L s S fact E a

theorem Grounded.mem (h : L.Grounded s S fact E a) : a ∈ s.items := by
  cases h with
  | given _ ha => exact ha
  | derived ha => exact ha

/-- Items stay grounded while items, groups and records are added. -/
theorem Grounded.mono {L' : Ledger α γ} {E' : Set α} (hGroup : ∀ a, L'.group a = L.group a)
    (hSource : ∀ a g, L.source a g → L'.source a g) (hItems : s.items ⊆ t.items) (hAlive : s.alive ⊆ t.alive)
    (hE : E ⊆ E') (h : L.Grounded s S fact E a) : L'.Grounded t S fact E' a := by
  induction h with
  | given h ha => exact .given (hE h) (hItems ha)
  | derived ha hi hFact hPremise _ ih =>
    refine .derived (hItems ha) hi hFact (fun p hp => ?_) ih
    obtain ⟨hEq, hg, hFrom⟩ := hPremise p hp
    rw [hGroup]
    exact ⟨hEq, hAlive hg, hSource _ _ hFrom⟩

/-- What does not lead back to an item is derivable without it. -/
theorem Grounded.derivable (h : L.Grounded s S fact E b) (hNe : b ≠ a) (hKept : ¬L.Lost s a (L.group b)) :
    S.Derivable (fact '' (E \ {a})) (fact b) := by
  induction h with
  | given h => exact .base ⟨_, ⟨h, hNe⟩, rfl⟩
  | derived _ hi hFact hPremise hSources ih =>
    rw [← hFact]
    refine .step hi fun p hp => ?_
    obtain ⟨hEq, hg, hSource⟩ := hPremise p hp
    rw [← hEq]
    refine ih p hp (fun hSame => hKept ?_) fun hLost => hKept ?_
    · exact .source hg (hSame ▸ hSource)
    · exact .member hLost (hSources p hp).mem hg hSource

/-- A removal that cascades leaves the facts that are derivable without the item exactly if none of these is
left only to groups that lead back to the item. -/
theorem Cascades.facts_iff (h : L.Cascades (L.Taken s a) s t) (ha : a ∈ s.items) (hNot : a ∉ t.items)
    (hGrounded : ∀ b ∈ s.items, L.Grounded s S fact E b) :
    (∀ p, p ∈ fact '' t.items ↔ S.Derivable (fact '' (E \ {a})) p) ↔
      ∀ p, S.Derivable (fact '' (E \ {a})) p →
        ∃ b ∈ s.items, fact b = p ∧ b ≠ a ∧ ¬L.Lost s a (L.group b) := by
  constructor
  · intro hFacts p hp
    obtain ⟨b, hb, hFact⟩ := (hFacts p).mpr hp
    obtain ⟨hMem, hKept⟩ := (h.mem_iff ha hNot).mp hb
    exact ⟨b, hMem, hFact, hKept⟩
  · intro hCondition p
    constructor
    · rintro ⟨b, hb, rfl⟩
      obtain ⟨hMem, hNe, hKept⟩ := (h.mem_iff ha hNot).mp hb
      exact (hGrounded b hMem).derivable hNe hKept
    · intro hp
      obtain ⟨b, hMem, hFact, hKept⟩ := hCondition p hp
      exact ⟨b, (h.mem_iff ha hNot).mpr ⟨hMem, hKept⟩, hFact⟩

end Ledger

end Cascade
