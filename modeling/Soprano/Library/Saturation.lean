import Mathlib.Data.Set.Finite.Basic

/-! Forward chaining over a set of facts.  A system has instances of rules, each with the facts that
it needs and the fact that it adds.  `Derivable` is the least set that contains the given facts and
is closed under the instances; an engine that adds facts one at a time reaches it when no instance
is left open. -/

namespace Saturation

variable {τ ι σ α : Type*}

structure System (τ ι : Type*) where
  instances : Set ι
  premises : ι → List τ
  conclusion : ι → τ

namespace System

variable (R : System τ ι) {S T T' : Set τ} {i : ι} {t : τ}

/-- The premises of the instance hold and its conclusion does not. -/
structure Open (T : Set τ) (i : ι) : Prop where
  mem : i ∈ R.instances
  premises : ∀ p ∈ R.premises i, p ∈ T
  conclusion : R.conclusion i ∉ T

def Closed (T : Set τ) : Prop := ∀ i, ¬R.Open T i

inductive Derivable (S : Set τ) : τ → Prop where
  | base {t : τ} (h : t ∈ S) : Derivable S t
  | step {i : ι} (hi : i ∈ R.instances) (h : ∀ p ∈ R.premises i, Derivable S p) :
      Derivable S (R.conclusion i)

variable {R}

/-- A closed set holds what is derivable from its members. -/
theorem Derivable.mem_of_closed (hST : S ⊆ T) (hT : R.Closed T) (h : R.Derivable S t) : t ∈ T := by
  induction h with
  | base h => exact hST h
  | step hi _ ih =>
    by_contra hNot
    exact hT _ ⟨hi, ih, hNot⟩

theorem closed_derivable (S : Set τ) : R.Closed {t | R.Derivable S t} := by
  rintro i ⟨hi, hPremises, hConclusion⟩
  exact hConclusion (Derivable.step hi hPremises)

theorem Derivable.mono (hST : S ⊆ T) (h : R.Derivable S t) : R.Derivable T t :=
  h.mem_of_closed (fun _ hs => Derivable.base (hST hs)) (closed_derivable T)

/-- What is derivable from derivable facts is derivable. -/
theorem Derivable.trans (hT : ∀ p ∈ T, R.Derivable S p) (h : R.Derivable T t) : R.Derivable S t :=
  h.mem_of_closed hT (closed_derivable S)

/-- A closed set of derivable facts that holds the given ones is the set of all derivable facts. -/
theorem mem_iff_derivable (hST : S ⊆ T) (hT : R.Closed T) (hSound : ∀ p ∈ T, R.Derivable S p) :
    t ∈ T ↔ R.Derivable S t :=
  ⟨hSound t, fun h => h.mem_of_closed hST hT⟩

/-- An instance that is open after facts were added was open before, or needs one of the new
facts. -/
theorem Open.of_subset (h : R.Open T' i) (hT : T ⊆ T') :
    R.Open T i ∨ ∃ p ∈ R.premises i, p ∈ T' ∧ p ∉ T := by
  by_cases hAll : ∀ p ∈ R.premises i, p ∈ T
  · exact .inl ⟨h.mem, hAll, fun hMem => h.conclusion (hT hMem)⟩
  · push Not at hAll
    obtain ⟨p, hp, hNew⟩ := hAll
    exact .inr ⟨p, hp, h.premises p hp, hNew⟩

/-- Every instance that is open in `T` meets `Q`. -/
def Pending (R : System τ ι) (T : Set τ) (Q : ι → Prop) : Prop := ∀ i, R.Open T i → Q i

theorem Pending.mono {Q Q' : ι → Prop} (h : R.Pending T Q) (hQ : ∀ i, Q i → Q' i) :
    R.Pending T Q' := fun i hi => hQ i (h i hi)

/-- The fact is added by an instance of which every premise is derivable. -/
def Derives (R : System τ ι) (S : Set τ) (t : τ) : Prop :=
  ∃ i ∈ R.instances, R.conclusion i = t ∧ ∀ p ∈ R.premises i, R.Derivable S p

theorem Derives.derivable (h : R.Derives S t) : R.Derivable S t := by
  obtain ⟨i, hi, rfl, hPremises⟩ := h
  exact .step hi hPremises

/-- What has been done between `T` and `T'` leaves none of the instances in `d` open, whatever else
is. -/
def Clears (R : System τ ι) (T T' : Set τ) (d : ι → Prop) : Prop :=
  ∀ Q : ι → Prop, R.Pending T (fun i => d i ∨ Q i) → R.Pending T' Q

theorem Clears.trans {T'' : Set τ} {d e : ι → Prop} (h : R.Clears T T' d) (h' : R.Clears T' T'' e) :
    R.Clears T T'' fun i => d i ∨ e i := by
  intro Q hPending
  apply h' Q
  apply h
  exact hPending.mono fun i hi => or_assoc.mp hi

theorem Clears.mono {d e : ι → Prop} (h : R.Clears T T' d) (hd : ∀ i ∈ R.instances, e i → d i) :
    R.Clears T T' e := by
  intro Q hPending
  apply h
  intro i hi
  exact (hPending i hi).imp_left (hd i hi.mem)

theorem Clears.refl (T : Set τ) : R.Clears T T fun _ => False := by
  intro Q hPending
  exact hPending.mono fun _ hi => hi.resolve_left id

theorem Clears.closed {d : ι → Prop} (h : R.Clears T T' d) (hOpen : R.Pending T d) : R.Closed T' :=
  h (fun _ => False) (hOpen.mono fun _ => .inl)

/-- A loop over a list that may fail at each turn.  Where `I` is kept and the turn for `a` leaves none
of the instances in `d a` open, the loop ends and leaves none of all these open. -/
theorem exists_foldlM_clears (R : System τ ι) (facts : σ → Set τ) (f : σ → α → Option σ)
    (I : σ → Prop) (d : α → ι → Prop) {l : List α} {s : σ}
    (hStep : ∀ a ∈ l, ∀ s, I s →
      ∃ s', f s a = some s' ∧ I s' ∧ R.Clears (facts s) (facts s') (d a))
    (h : I s) : ∃ s', l.foldlM f s = some s' ∧ I s' ∧
      R.Clears (facts s) (facts s') fun i => ∃ a ∈ l, d a i := by
  induction l generalizing s with
  | nil =>
    refine ⟨s, rfl, h, (Clears.refl (facts s)).mono fun i _ hd => ?_⟩
    obtain ⟨a, ha, -⟩ := hd
    cases ha
  | cons a l ih =>
    obtain ⟨s₁, hFirst, h₁, hClears₁⟩ := hStep a List.mem_cons_self s h
    obtain ⟨s', hRest, h', hClears'⟩ :=
      ih (fun b hb => hStep b (List.mem_cons_of_mem a hb)) h₁
    refine ⟨s', by rw [List.foldlM_cons, hFirst]; exact hRest, h', ?_⟩
    refine (hClears₁.trans hClears').mono fun i _ hd => ?_
    obtain ⟨b, hb, hd⟩ := hd
    rcases List.mem_cons.mp hb with rfl | hb
    · exact .inl hd
    · exact .inr ⟨b, hb, hd⟩

end System

end Saturation
