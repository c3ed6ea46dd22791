import Mathlib.Data.Fintype.Defs
import Soprano.Virtuoso.ConnectionLives

/-! The pool of connections in every run of its threads. -/

namespace Soprano

namespace ODBC

open Runs
open Server (QHash)

namespace Threads

variable {τ : Type} [DecidableEq τ] {s : Threads τ} {t : τ}

/-- A thread has the connection in hand. -/
def InHand (s : Threads τ) (c : Nat) : Prop := ∃ t, (s.place t).conn = some c

/-- What is promised of the pool: the map has the connection of each running thread that has got one and no
other entry of a thread that runs or is gone, no connection was returned to two threads, each connection
that is neither in the map nor in hand was deleted once and no other one was, no creation that failed has
changed the map, and no thread asks for the mutex that it has. -/
structure Sound (s : Threads τ) : Prop where
  mapped : s.phase = .there → ∀ t c, (s.place t).running = true →
    (s.m_openConnections.lookup t = some c ↔ (t, c) ∈ s.handed)
  nothingElse : ∀ t c, s.m_openConnections.lookup t = some c → (t, c) ∈ s.handed ∧ s.place t ≠ .gone
  single : ∀ t u c, (t, c) ∈ s.handed → (u, c) ∈ s.handed → t = u
  once : s.deleted.Nodup
  deleted : ∀ c, c < s.created → (c ∈ s.deleted ↔ ¬ s.InHand c ∧ ∀ t, (t, c) ∉ s.m_openConnections)
  emptied : s.phase = .destroyed → s.m_openConnections = []
  failed : ∀ maps ∈ s.failed, maps.1 = maps.2
  mutex : ∀ t, (s.place t).asks = true → s.m_connectionMutex ≠ some t

variable {life : Nat → Life τ}

theorem Linked.lookup_eq_some (h : s.Linked life) {c : Nat} :
    s.m_openConnections.lookup t = some c ↔ life c = .mapped t := by
  rw [← h.map]
  refine ⟨mem_of_lookup, fun hMem => ?_⟩
  have hListens : ∀ {d}, (t, d) ∈ s.m_openConnections → (t, d) ∈ s.listeners := by
    intro d hd
    rw [h.listeners, (h.map t d).mp hd]
    rfl
  cases hLookup : s.m_openConnections.lookup t with
  | none => exact absurd hMem (notMem_of_lookup hLookup c)
  | some d => rw [h.single t c d (hListens hMem) (hListens (mem_of_lookup hLookup))]

omit [DecidableEq τ] in
/-- The connections in hand are those that are set up, or deleted by who may. -/
theorem Seated.not_deleted {c : Nat} (h : s.Seated life) (hHand : s.InHand c) (u : τ) : life c ≠ .deleted u := by
  obtain ⟨t, hConn⟩ := hHand
  intro hLife
  rcases (h.fits t).life_conn hConn with hEq | ⟨owner, caller, hListens, -⟩
  · rw [hLife] at hEq
    cases hEq
  · rw [hLife] at hListens
    cases hListens

theorem Invariant.sound (h : s.Invariant) : s.Sound := by
  obtain ⟨life, hLinked, hSeated⟩ := h
  refine ⟨fun hThere t c hRun => ?_, fun t c hLookup => ⟨?_, fun hGone => ?_⟩, fun t u c ht hu => ?_, hLinked.nodup,
    fun c hc => ?_, fun hPhase => (hSeated.destroyed hPhase).1, hLinked.failed, fun t hAsks hMutex => ?_⟩
  · rw [hLinked.lookup_eq_some]
    constructor
    · intro hLife
      rw [hLinked.handed, hLife]
      rfl
    · exact fun hc => (hLinked.map t c).mp (hSeated.kept t c hThere hRun hc)
  · rw [hLinked.handed, hLinked.lookup_eq_some.mp hLookup]
    rfl
  · have hFits := hSeated.fits t
    rw [hGone] at hFits
    refine hFits c ((hLinked.listeners t c).mpr ?_)
    rw [hLinked.lookup_eq_some.mp hLookup]
    rfl
  · exact Option.some.inj (((hLinked.handed t c).mp ht).symm.trans ((hLinked.handed u c).mp hu))
  · rw [hLinked.deleted]
    constructor
    · rintro ⟨u, hLife⟩
      refine ⟨fun hHand => hSeated.not_deleted hHand u hLife, fun t hMem => ?_⟩
      have hMapped := (hLinked.map t c).mp hMem
      rw [hLife] at hMapped
      cases hMapped
    · rintro ⟨hHand, hMap⟩
      cases hLife : life c with
      | unborn => exact absurd ((hLinked.created c).mpr hLife) (Nat.not_le.mpr hc)
      | settingUp u =>
        refine absurd ⟨u, ?_⟩ hHand
        have hSetsUp := hSeated.setsUp u c hLife
        cases hPlace : s.place u with
        | setup conn commands =>
          rw [hPlace] at hSetsUp
          exact hSetsUp
        | _ =>
          rw [hPlace] at hSetsUp
          cases hSetsUp
      | mapped u => exact absurd ((hLinked.map u c).mpr hLife) (hMap u)
      | unmapped u =>
        obtain ⟨v, hFrees⟩ := hSeated.frees u c hLife
        refine absurd ⟨v, ?_⟩ hHand
        cases hPlace : s.place v with
        | freeing conn caller =>
          rw [hPlace] at hFrees
          exact hFrees
        | _ =>
          rw [hPlace] at hFrees
          cases hFrees
      | deleted u => exact ⟨u, rfl⟩
  · have hHolds := (hSeated.mutex t).mp hMutex
    cases hPlace : s.place t with
    | entering | deleting =>
      rw [hPlace] at hHolds
      cases hHolds
    | _ =>
      rw [hPlace] at hAsks
      cases hAsks

/-- In every run in which the setup commands succeed, and the pool is destroyed when all other threads have
left its code and goes before they come back or end, the pool is sound in every state. -/
theorem sound_of_allMeet (connectionSetupCommands : List QString) (actions : List (Action τ)) (s : Threads τ)
    (hMeets : AllMeet (perform connectionSetupCommands) Meets init actions)
    (hRun : run (perform connectionSetupCommands) init actions = some s) : s.Sound :=
  (Runs.invariant (I := Invariant) (fun h hMeets hStep => h.perform hMeets hStep) invariant_init hMeets
    hRun).sound

/-- When the pool is gone and all threads have left its code, every connection was deleted once. -/
theorem Sound.all_deleted (h : s.Sound) (hPhase : s.phase = .destroyed) (hOut : ∀ t, (s.place t).conn = none)
    (c : Nat) (hc : c < s.created) : s.deleted.count c = 1 := by
  have hMem : c ∈ s.deleted := by
    refine (h.deleted c hc).mpr ⟨fun ⟨t, ht⟩ => ?_, fun t hMem => ?_⟩
    · rw [hOut t] at ht
      cases ht
    · rw [h.emptied hPhase] at hMem
      cases hMem
  exact List.count_eq_one_of_mem h.once hMem

section Example

instance decidableMeets [Fintype τ] (s : Threads τ) : (a : Action τ) → Decidable (s.Meets a)
  | .execute _ code => inferInstanceAs (Decidable (code = .errorNone))
  | .destroy t => inferInstanceAs (Decidable (∀ u, u ≠ t → s.place u = .out ∨ s.place u = .gone))
  | .call _ | .finish _ | .signal _ => inferInstanceAs (Decidable (∀ u, s.phase ≠ .destroying u))
  | .lock _ | .find _ | .connect _ _ | .insert _ | .remove _ | .free _ | .deliver _ | .next _ _ =>
    .isTrue trivial

/-- Two threads get connections, one of them ends, and the other one destroys the pool. -/
def poolActions : List (Action Bool) :=
  [.call true, .call false, .lock false, .find false, .connect false true, .execute false .errorNone,
    .insert false, .lock true, .find true, .connect true true, .execute true .errorNone, .insert true,
    .finish true, .deliver true, .lock true, .remove true, .free true, .deliver true, .destroy false,
    .next false (some 0), .lock false, .remove false, .free false, .next false none]

theorem sound_poolActions : ∃ s, run (perform ["set result_timeout=5000".toList]) init poolActions = some s ∧
    s.Sound :=
  ⟨_, rfl, sound_of_allMeet ["set result_timeout=5000".toList] poolActions _ (by decide) rfl⟩

/-- A setup command that fails leaves its thread waiting for its own mutex, and a connection whose thread ends
while the pool is destroyed is deleted twice. -/
theorem not_sound :
    (∃ s, run (perform ["set result_timeout=5000".toList]) init
      [Action.call true, .lock true, .find true, .connect true true, .execute true .errorUnknown] = some s ∧
      ¬ s.Sound) ∧
    ∃ s, run (perform []) init
      [Action.call true, .lock true, .find true, .connect true true, .insert true, .finish true, .deliver true,
        .destroy false, .next false (some 0), .lock true, .remove true, .free true, .lock false, .remove false,
        .free false] = some s ∧ ¬ s.Sound := by
  refine ⟨⟨_, rfl, fun h => ?_⟩, ⟨_, rfl, fun h => ?_⟩⟩
  · exact h.mutex true rfl rfl
  · exact absurd h.once (by decide)

end Example

end Threads

end ODBC

end Soprano
