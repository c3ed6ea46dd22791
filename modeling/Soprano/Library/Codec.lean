import Mathlib.Data.List.Basic
import Mathlib.Tactic.Ring

/-! Readers of a sequence of symbols, and the relation `Reads` between a reader, the symbols that
it consumes, and the value that it returns.  A reader that fails ends the computation it is part
of.  `Reads` composes along `>>=`, so a decoder is related to its encoder one field at a time. -/

namespace Codec

variable {τ α β γ : Type}

/-- A reader returns a value, or `none` on failure, and the symbols that it has not consumed. -/
def Reader (τ α : Type) : Type := List τ → Option α × List τ

instance : Monad (Reader τ) where
  pure a := fun input => (some a, input)
  bind r f := fun input =>
    match r input with
    | (some a, rest) => f a rest
    | (none, rest) => (none, rest)

/-- A computation goes on with what its first reader returned. -/
theorem bind_eq {r : Reader τ α} {f : α → Reader τ β} {input rest : List τ} {a : α}
    (h : r input = (some a, rest)) : (r >>= f) input = f a rest := by
  show (match r input with
    | (some a, rest) => f a rest
    | (none, rest) => (none, rest)) = _
  rw [h]

/-- A computation ends where its first reader fails. -/
theorem bind_eq_none {r : Reader τ α} {f : α → Reader τ β} {input rest : List τ}
    (h : r input = (none, rest)) : (r >>= f) input = (none, rest) := by
  show (match r input with
    | (some a, rest) => f a rest
    | (none, rest) => (none, rest)) = _
  rw [h]

/-- A computation that returns has gone on behind its first reader. -/
theorem exists_of_bind {r : Reader τ α} {f : α → Reader τ β} {input rest : List τ} {b : β}
    (h : (r >>= f) input = (some b, rest)) :
    ∃ a middle, r input = (some a, middle) ∧ f a middle = (some b, rest) := by
  rcases hFirst : r input with ⟨_ | a, middle⟩
  · rw [bind_eq_none hFirst] at h
    cases h
  · rw [bind_eq hFirst] at h
    exact ⟨a, middle, rfl, h⟩

/-- The next `n` symbols, or failure with nothing left where there are fewer. -/
def take (n : Nat) : Reader τ (List τ) := fun input =>
  if n ≤ input.length then (some (input.take n), input.drop n) else (none, [])

/-- The value of `r`, or `none` where `r` fails, so that the computation goes on. -/
def attempt (r : Reader τ α) : Reader τ (Option α) := fun input =>
  (some (r input).1, (r input).2)

/-- `n` values of `r`. -/
def times (r : Reader τ α) : Nat → Reader τ (List α)
  | 0 => pure []
  | n + 1 => do
    let a ← r
    let as ← times r n
    pure (a :: as)

/-- The symbol `t`, or failure. -/
def expect [DecidableEq τ] (t : τ) : Reader τ Unit
  | [] => (none, [])
  | u :: input => if u = t then (some (), input) else (none, u :: input)

/-- Values of `r` up to the symbol `t`, which is left, or the end of the input; at most `n` values
are read. -/
def valuesUntil [DecidableEq τ] (t : τ) (r : Reader τ α) : Nat → Reader τ (List α)
  | 0, input => (some [], input)
  | _ + 1, [] => (some [], [])
  | n + 1, u :: input =>
    if u = t then (some [], u :: input)
    else
      (do
        let a ← r
        let as ← valuesUntil t r n
        pure (a :: as) : Reader τ (List α)) (u :: input)

/-- Values of `r` up to the symbol `t`, which is consumed. -/
def manyThrough [DecidableEq τ] (t : τ) (r : Reader τ α) : Reader τ (List α) := do
  let as ← fun input => valuesUntil t r input.length input
  expect t
  pure as

/-- The next symbol. -/
def symbol : Reader τ τ
  | [] => (none, [])
  | t :: input => (some t, input)

/-- The symbols before the next `t`, which is consumed. -/
def through [DecidableEq τ] (t : τ) : Reader τ (List τ)
  | [] => (none, [])
  | u :: input =>
    if u = t then (some [], input)
    else
      match through t input with
      | (some word, rest) => (some (u :: word), rest)
      | (none, rest) => (none, rest)

/-- The symbols of the word, one after the other. -/
def word [DecidableEq τ] : List τ → Reader τ Unit
  | [] => pure ()
  | t :: w => do
    expect t
    word w

/-- Failure unless the condition holds. -/
def require (condition : Bool) : Reader τ Unit := fun input =>
  (if condition then some () else none, input)

/-- `r` consumes exactly `written`, whatever follows it, and returns `a`. -/
def Reads (r : Reader τ α) (written : List τ) (a : α) : Prop :=
  ∀ rest, r (written ++ rest) = (some a, rest)

namespace Reads

variable {r : Reader τ α} {f : α → Reader τ β} {w w' : List τ} {a : α} {b : β}

/-- A reader on exactly what was written leaves nothing. -/
theorem run (h : Reads r w a) : r w = (some a, []) := by
  have := h []
  rwa [List.append_nil] at this

theorem pure (a : α) : Reads (Pure.pure a : Reader τ α) [] a := fun _ => rfl

theorem bind (h : Reads r w a) (h' : Reads (f a) w' b) : Reads (r >>= f) (w ++ w') b := by
  intro rest
  rw [List.append_assoc, bind_eq (h (w' ++ rest))]
  exact h' rest

/-- A reader whose last step computes on what was read. -/
theorem bind_pure {f : α → β} (h : Reads r w a) :
    Reads (r >>= fun a => (Pure.pure (f a) : Reader τ β)) w (f a) := by
  have := h.bind (f := fun a => Pure.pure (f a)) (Reads.pure (f a))
  rwa [List.append_nil] at this

theorem take (w : List τ) : Reads (Codec.take w.length) w w := by
  intro rest
  simp [Codec.take]

theorem attempt (h : Reads r w a) : Reads (attempt r) w (some a) := by
  intro rest
  simp [Codec.attempt, h rest]

/-- Reading as many values as were written reads each of them. -/
theorem times {write : γ → List τ} {value : γ → α} (xs : List γ)
    (h : ∀ x ∈ xs, Reads r (write x) (value x)) :
    Reads (times r xs.length) (xs.flatMap write) (xs.map value) := by
  induction xs with
  | nil => exact Reads.pure []
  | cons x xs ih =>
    rw [List.flatMap_cons]
    exact (h x (by simp)).bind (ih fun y hy => h y (by simp [hy])).bind_pure

theorem expect [DecidableEq τ] (t : τ) : Reads (expect t) [t] () := by
  intro rest
  simp [Codec.expect]

theorem symbol (t : τ) : Reads symbol [t] t := fun _ => rfl

theorem through [DecidableEq τ] {t : τ} (h : t ∉ w) : Reads (through t) (w ++ [t]) w := by
  intro rest
  induction w with
  | nil => simp [Codec.through]
  | cons u w ih =>
    rw [List.mem_cons, not_or] at h
    have hRest := ih h.2
    simp only [List.append_assoc, List.singleton_append] at hRest
    simp [Codec.through, Ne.symm h.1, hRest]

/-- What is read up to a symbol is all that stands before it. -/
theorem of_through [DecidableEq τ] {t : τ} {input rest : List τ}
    (h : Codec.through t input = (some w, rest)) : input = w ++ t :: rest ∧ t ∉ w := by
  induction input generalizing w with
  | nil => cases h
  | cons u input ih =>
    rw [Codec.through] at h
    split at h
    · rename_i hEq
      cases h
      exact ⟨by rw [hEq]; rfl, List.not_mem_nil⟩
    · rename_i hNe
      rcases hThrough : Codec.through t input with ⟨_ | w', rest'⟩
      · rw [hThrough] at h
        cases h
      · rw [hThrough] at h
        cases h
        obtain ⟨hSplit, hNotMem⟩ := ih hThrough
        exact ⟨by rw [hSplit]; rfl, by simp [Ne.symm hNe, hNotMem]⟩

theorem eq_of_expect [DecidableEq τ] {t : τ} {input rest : List τ}
    (h : Codec.expect t input = (some (), rest)) : input = t :: rest := by
  cases input with
  | nil => cases h
  | cons u input =>
    rw [Codec.expect] at h
    split at h
    · rename_i hEq
      cases h
      rw [hEq]
    · cases h

/-- Where a symbol ends the first part, the parts are determined. -/
theorem append_cons_inj [DecidableEq τ] {t : τ} {w w' rest rest' : List τ} (h : t ∉ w) (h' : t ∉ w') :
    w ++ t :: rest = w' ++ t :: rest' ↔ w = w' ∧ rest = rest' := by
  constructor
  · intro hEq
    have hRead := through h rest
    rw [List.append_assoc, List.singleton_append, hEq, ← List.singleton_append, ← List.append_assoc,
      through h' rest', Prod.mk.injEq, Option.some.injEq] at hRead
    exact ⟨hRead.1.symm, hRead.2.symm⟩
  · rintro ⟨rfl, rfl⟩
    rfl

/-- Where a symbol starts the last part, the parts are determined. -/
theorem append_cons_inj_last [DecidableEq τ] {t : τ} {w w' rest rest' : List τ} (h : t ∉ rest)
    (h' : t ∉ rest') : w ++ t :: rest = w' ++ t :: rest' ↔ w = w' ∧ rest = rest' := by
  have hReverse : rest.reverse ++ t :: w.reverse = rest'.reverse ++ t :: w'.reverse ↔
      rest.reverse = rest'.reverse ∧ w.reverse = w'.reverse :=
    append_cons_inj (mt List.mem_reverse.mp h) (mt List.mem_reverse.mp h')
  rw [List.reverse_inj, List.reverse_inj, and_comm] at hReverse
  rw [← hReverse, ← List.reverse_inj]
  simp

theorem word [DecidableEq τ] (w : List τ) : Reads (word w) w () := by
  induction w with
  | nil => exact Reads.pure ()
  | cons t w ih => exact (Reads.expect t).bind ih

/-- A word ends at the first symbol that differs. -/
theorem word_of_ne [DecidableEq τ] {t u : τ} (h : u ≠ t) (w v rest : List τ) :
    Codec.word (w ++ t :: v) (w ++ u :: rest) = (none, u :: rest) := by
  induction w with
  | nil => exact bind_eq_none (by simp [Codec.expect, h])
  | cons x w ih => exact (bind_eq (expect x _)).trans ih

theorem eq_of_word [DecidableEq τ] {w input rest : List τ}
    (h : Codec.word w input = (some (), rest)) : input = w ++ rest := by
  induction w generalizing input with
  | nil =>
    cases h
    rfl
  | cons t w ih =>
    obtain ⟨⟨⟩, middle, hExpect, hWord⟩ := exists_of_bind h
    rw [eq_of_expect hExpect, ih hWord]
    rfl

theorem require {condition : Bool} (h : condition = true) :
    Reads (require condition : Reader τ Unit) [] () := by
  intro rest
  simp [Codec.require, h]

/-- A condition that holds is passed. -/
theorem bind_require {condition : Bool} {r : Reader τ α} (h : condition = true)
    (hr : Reads r w a) :
    Reads (Codec.require condition >>= fun _ => r) w a := by
  have := (Reads.require (τ := τ) h).bind (f := fun _ => r) hr
  rwa [List.nil_append] at this

/-- A loop reads each value that was written, where none starts with the symbol that ends it. -/
theorem valuesUntil [DecidableEq τ] {write : γ → List τ} {value : γ → α} {t : τ} (xs : List γ)
    (h : ∀ x ∈ xs, Reads r (write x) (value x) ∧ ∃ u w, write x = u :: w ∧ u ≠ t) {n : Nat}
    (hn : xs.length < n) (rest : List τ) :
    valuesUntil t r n (xs.flatMap write ++ t :: rest) = (some (xs.map value), t :: rest) := by
  induction xs generalizing n with
  | nil =>
    obtain ⟨n, rfl⟩ : ∃ m, n = m + 1 := ⟨n - 1, by simp at hn; omega⟩
    simp [Codec.valuesUntil]
  | cons x xs ih =>
    obtain ⟨n, rfl⟩ : ∃ m, n = m + 1 := ⟨n - 1, by simp at hn; omega⟩
    obtain ⟨hRead, u, w, hw, hu⟩ := h x (by simp)
    have hRest := ih (fun y hy => h y (by simp [hy])) (n := n) (by simp at hn; omega)
    have hFirst := hRead (xs.flatMap write ++ t :: rest)
    rw [List.flatMap_cons, List.append_assoc]
    rw [hw, List.cons_append] at hFirst ⊢
    rw [Codec.valuesUntil, if_neg hu, bind_eq hFirst, bind_eq hRest]
    rfl

theorem length_le_flatMap (write : γ → List τ) (xs : List γ) (h : ∀ x ∈ xs, write x ≠ []) :
    xs.length ≤ (xs.flatMap write).length := by
  induction xs with
  | nil => simp
  | cons x xs ih =>
    have := List.length_pos_iff.mpr (h x (by simp))
    have := ih fun y hy => h y (by simp [hy])
    simp only [List.flatMap_cons, List.length_append, List.length_cons]
    omega

theorem manyThrough [DecidableEq τ] {w : γ → List τ} {v : γ → α} {t : τ} (xs : List γ)
    (h : ∀ x ∈ xs, Reads r (w x) (v x) ∧ ∃ u s, w x = u :: s ∧ u ≠ t) :
    Reads (manyThrough t r) (xs.flatMap w ++ [t]) (xs.map v) := by
  intro rest
  have hLength := length_le_flatMap w xs fun x hx => by
    obtain ⟨-, u, s, hs, -⟩ := h x hx
    simp [hs]
  have hValues := valuesUntil xs h (n := (xs.flatMap w ++ t :: rest).length)
    (by simp only [List.length_append, List.length_cons]; omega) rest
  rw [List.append_assoc, List.singleton_append]
  exact (bind_eq hValues).trans (bind_eq (expect t rest))

/-- What a reader consumes and returns does not depend on how its input is cut. -/
theorem unique {w₁ w₂ t₁ t₂ : List τ} {a₁ a₂ : α} (h₁ : Reads r w₁ a₁) (h₂ : Reads r w₂ a₂)
    (h : w₁ ++ t₁ = w₂ ++ t₂) : a₁ = a₂ ∧ t₁ = t₂ := by
  have := (h₁ t₁).symm.trans ((congrArg r h).trans (h₂ t₂))
  simpa using this

end Reads

/-! ### Readers that look at nothing but what they consume -/

/-- Where the reader succeeds, it reads what it has consumed whatever follows. -/
def Local (r : Reader τ α) : Prop :=
  ∀ input a rest, r input = (some a, rest) → ∃ w, input = w ++ rest ∧ Reads r w a

namespace Local

variable {r : Reader τ α} {f : α → Reader τ β}

/-- A reader that consumed everything reads it whatever follows. -/
theorem reads (h : Local r) {w : List τ} {a : α} (hRun : r w = (some a, [])) : Reads r w a := by
  obtain ⟨w', hSplit, hRead⟩ := h w a [] hRun
  rw [List.append_nil] at hSplit
  rwa [hSplit]

theorem pure (a : α) : Local (Pure.pure a : Reader τ α) := by
  intro input b rest h
  cases h
  exact ⟨[], rfl, Reads.pure _⟩

theorem bind (h : Local r) (h' : ∀ a, Local (f a)) : Local (r >>= f) := by
  intro input b rest hRun
  obtain ⟨a, middle, hFirst, hNext⟩ := exists_of_bind hRun
  obtain ⟨w, rfl, hRead⟩ := h input a middle hFirst
  obtain ⟨w', rfl, hRead'⟩ := h' a middle b rest hNext
  exact ⟨w ++ w', (List.append_assoc w w' rest).symm, hRead.bind hRead'⟩

theorem symbol : Local (symbol : Reader τ τ) := by
  intro input a rest h
  cases input with
  | nil => cases h
  | cons t input =>
    cases h
    exact ⟨[a], rfl, Reads.symbol a⟩

theorem expect [DecidableEq τ] (t : τ) : Local (expect t) := by
  intro input a rest h
  exact ⟨[t], Reads.eq_of_expect h, Reads.expect t⟩

theorem through [DecidableEq τ] (t : τ) : Local (through t) := by
  intro input w rest h
  obtain ⟨hSplit, hNotMem⟩ := Reads.of_through h
  exact ⟨w ++ [t], by rw [hSplit, List.append_assoc, List.singleton_append], Reads.through hNotMem⟩

theorem word [DecidableEq τ] (w : List τ) : Local (word w) := by
  induction w with
  | nil => exact pure ()
  | cons t w ih => exact (expect t).bind fun _ => ih

theorem require (condition : Bool) : Local (require condition : Reader τ Unit) := by
  intro input a rest h
  unfold Codec.require at h
  split at h
  · rename_i hCondition
    cases h
    exact ⟨[], rfl, Reads.require hCondition⟩
  · cases h

theorem ite {condition : Prop} [Decidable condition] {s : Reader τ α} (h : Local r) (h' : Local s) :
    Local (if condition then r else s) := by
  split
  · exact h
  · exact h'

end Local

/-! ### What a reader takes at least -/

/-- Where the reader succeeds, it consumes at least `k` symbols. -/
def Consumes (k : Nat) (r : Reader τ α) : Prop :=
  ∀ input a rest, r input = (some a, rest) → rest.length + k ≤ input.length

namespace Consumes

variable {r : Reader τ α} {f : α → Reader τ β} {k l : Nat}

theorem pure (a : α) : Consumes 0 (Pure.pure a : Reader τ α) := by
  intro input b rest h
  cases h
  exact Nat.le_refl _

theorem mono (h : Consumes k r) (hl : l ≤ k) : Consumes l r := by
  intro input a rest hRead
  have := h input a rest hRead
  omega

theorem bind (h : Consumes k r) (h' : ∀ a, Consumes l (f a)) : Consumes (k + l) (r >>= f) := by
  intro input b rest hRead
  cases hFirst : r input with
  | mk o middle =>
    cases o with
    | none =>
      rw [bind_eq_none hFirst] at hRead
      cases hRead
    | some a =>
      rw [bind_eq hFirst] at hRead
      have := h input a middle hFirst
      have := h' a middle b rest hRead
      omega

/-- A computation consumes what its first reader does. -/
theorem bind_left (h : Consumes k r) (h' : ∀ a, Consumes 0 (f a)) : Consumes k (r >>= f) :=
  h.bind h'

theorem take (n : Nat) : Consumes n (Codec.take n : Reader τ (List τ)) := by
  intro input a rest h
  rw [Codec.take] at h
  split at h
  · rename_i hn
    cases h
    rw [List.length_drop]
    omega
  · cases h

theorem times (h : Consumes k r) (n : Nat) : Consumes (n * k) (times r n) := by
  induction n with
  | zero => exact (Consumes.pure []).mono (by omega)
  | succ n ih =>
    refine (h.bind (l := n * k) fun a => ih.bind_left fun as => Consumes.pure _).mono ?_
    rw [Nat.succ_mul]
    omega

end Consumes

/-- A reader of more values than were written goes on with what follows them. -/
theorem times_append {w : γ → List τ} {v : γ → α} {r : Reader τ α} (xs : List γ)
    (h : ∀ x ∈ xs, Reads r (w x) (v x)) (n : Nat) (rest : List τ) :
    times r (xs.length + n) (xs.flatMap w ++ rest) =
      ((times r n rest).1.map (xs.map v ++ ·), (times r n rest).2) := by
  induction xs with
  | nil =>
    rw [List.length_nil, Nat.zero_add, List.flatMap_nil, List.nil_append]
    cases times r n rest with
    | mk o left => cases o <;> rfl
  | cons x xs ih =>
    have ih := ih fun y hy => h y (by simp [hy])
    rw [List.length_cons, Nat.succ_add, List.flatMap_cons, List.append_assoc]
    refine (bind_eq (h x (by simp) _)).trans ?_
    cases hRest : times r n rest with
    | mk o left =>
      rw [hRest] at ih
      cases o with
      | none => exact bind_eq_none ih
      | some as => exact bind_eq ih

/-! ### Numbers of a fixed number of bytes -/

/-- The `k` low bytes of `n`, the least significant first. -/
def leBytes : Nat → Nat → List UInt8
  | 0, _ => []
  | k + 1, n => UInt8.ofNat n :: leBytes k (n / 256)

/-- The number whose bytes are these, the least significant first. -/
def leNat : List UInt8 → Nat
  | [] => 0
  | b :: bs => b.toNat + 256 * leNat bs

@[simp] theorem length_leBytes (k n : Nat) : (leBytes k n).length = k := by
  induction k generalizing n with
  | zero => rfl
  | succ k ih => simp [leBytes, ih]

theorem leNat_leBytes (k n : Nat) : leNat (leBytes k n) = n % 256 ^ k := by
  induction k generalizing n with
  | zero => simp [leBytes, leNat, Nat.mod_one]
  | succ k ih =>
    rw [leBytes, leNat, ih, Nat.pow_succ', Nat.mod_mul]
    simp

/-- The number in the next `k` bytes. -/
def readLe (k : Nat) : Reader UInt8 Nat := do
  let bytes ← take k
  pure (leNat bytes)

theorem reads_le {k n : Nat} (h : n < 256 ^ k) : Reads (readLe k) (leBytes k n) n := by
  have := (Reads.take (leBytes k n)).bind_pure (f := leNat)
  rw [length_leBytes, leNat_leBytes, Nat.mod_eq_of_lt h] at this
  exact this

end Codec
