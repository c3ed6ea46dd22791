import Mathlib.Data.List.Basic
import Mathlib.Data.List.Infix

/-! Regular expressions with numbered groups: the words that they match with what the groups take, an engine that
finds a match if there is one, and the search for the first and the last place of a match in a text. -/

namespace Soprano

inductive Regex (α : Type) where
  | one (p : α → Bool)
  | eps
  | seq (r s : Regex α)
  | alt (r s : Regex α)
  | star (r : Regex α)
  | group (k : Nat) (r : Regex α)

namespace Regex

variable {α : Type}

/-- What the groups of a match take, in the order in which they are opened. -/
abbrev Captures (α : Type) : Type := List (Nat × List α)

/-- The word is matched, and the groups take their parts of it. -/
inductive Matches : Regex α → List α → Captures α → Prop
  | one {p : α → Bool} {a : α} (h : p a = true) : Matches (.one p) [a] []
  | eps : Matches .eps [] []
  | seq {r s : Regex α} {w v : List α} {c d : Captures α} (h : Matches r w c) (h' : Matches s v d) :
      Matches (.seq r s) (w ++ v) (c ++ d)
  | altLeft {r s : Regex α} {w : List α} {c : Captures α} (h : Matches r w c) : Matches (.alt r s) w c
  | altRight {r s : Regex α} {w : List α} {c : Captures α} (h : Matches s w c) : Matches (.alt r s) w c
  | starNil {r : Regex α} : Matches (.star r) [] []
  | starCons {r : Regex α} {w v : List α} {c d : Captures α} (h : Matches r w c) (h' : Matches (.star r) v d) :
      Matches (.star r) (w ++ v) (c ++ d)
  | group {k : Nat} {r : Regex α} {w : List α} {c : Captures α} (h : Matches r w c) :
      Matches (.group k r) w ((k, w) :: c)

/-- One or more times. -/
def plus (r : Regex α) : Regex α := .seq r (.star r)

/-- At most once. -/
def optional (r : Regex α) : Regex α := .alt r .eps

/-- Expressions one after the other. -/
def chain : List (Regex α) → Regex α
  | [] => .eps
  | r :: rs => .seq r (chain rs)

/-- The first of some expressions that matches, or a later one. -/
def oneOf (r : Regex α) : List (Regex α) → Regex α
  | [] => r
  | s :: rs => .alt r (oneOf s rs)

/-- What a group takes at last. -/
def cap (c : Captures α) (k : Nat) : List α := ((c.filter fun g => g.1 = k).getLast?.map Prod.snd).getD []

/-- The numbers of the groups. -/
def groups : Regex α → List Nat
  | .one _ | .eps => []
  | .seq r s | .alt r s => groups r ++ groups s
  | .star r => groups r
  | .group k r => k :: groups r

variable {r s : Regex α} {w v : List α} {c d : Captures α} {k : Nat} {p : α → Bool} {a : α}

/-! ### What is matched -/

@[simp] theorem matches_one : Matches (.one p) w c ↔ (∃ a, p a = true ∧ w = [a]) ∧ c = [] := by
  constructor
  · rintro ⟨h⟩
    exact ⟨⟨_, h, rfl⟩, rfl⟩
  · rintro ⟨⟨a, h, rfl⟩, rfl⟩
    exact .one h

@[simp] theorem matches_eps : Matches (.eps : Regex α) w c ↔ w = [] ∧ c = [] := by
  constructor
  · rintro ⟨⟩
    exact ⟨rfl, rfl⟩
  · rintro ⟨rfl, rfl⟩
    exact .eps

theorem matches_seq : Matches (.seq r s) w c ↔
    ∃ u v d e, Matches r u d ∧ Matches s v e ∧ w = u ++ v ∧ c = d ++ e := by
  constructor
  · intro h
    cases h with
    | seq h h' => exact ⟨_, _, _, _, h, h', rfl, rfl⟩
  · rintro ⟨u, v, d, e, h, h', rfl, rfl⟩
    exact .seq h h'

theorem matches_alt : Matches (.alt r s) w c ↔ Matches r w c ∨ Matches s w c := by
  constructor
  · intro h
    cases h with
    | altLeft h => exact .inl h
    | altRight h => exact .inr h
  · rintro (h | h)
    · exact .altLeft h
    · exact .altRight h

theorem matches_group : Matches (.group k r) w c ↔ ∃ d, Matches r w d ∧ c = (k, w) :: d := by
  constructor
  · intro h
    cases h with
    | group h => exact ⟨_, h, rfl⟩
  · rintro ⟨d, h, rfl⟩
    exact .group h

/-- Any number of characters of a kind. -/
theorem matches_star_one : Matches (.star (.one p)) w c ↔ (∀ a ∈ w, p a = true) ∧ c = [] := by
  constructor
  · intro h
    generalize hRegex : Regex.star (.one p) = r at h
    induction h with
    | starNil => exact ⟨fun _ hMem => absurd hMem List.not_mem_nil, rfl⟩
    | starCons hFirst _ _ ih =>
      cases hRegex
      obtain ⟨⟨a, ha, rfl⟩, rfl⟩ := matches_one.mp hFirst
      obtain ⟨hRest, rfl⟩ := ih rfl
      refine ⟨fun b hb => ?_, rfl⟩
      rcases List.mem_cons.mp hb with rfl | hb
      · exact ha
      · exact hRest b hb
    | _ => cases hRegex
  · rintro ⟨h, rfl⟩
    induction w with
    | nil => exact .starNil
    | cons a w ih =>
      have hRest := ih fun b hb => h b (List.mem_cons_of_mem a hb)
      exact .starCons (.one (h a List.mem_cons_self)) hRest

theorem matches_plus_one : Matches (.plus (.one p)) w c ↔ w ≠ [] ∧ (∀ a ∈ w, p a = true) ∧ c = [] := by
  unfold plus
  rw [matches_seq]
  constructor
  · rintro ⟨u, v, d, e, hFirst, hRest, rfl, rfl⟩
    obtain ⟨⟨a, ha, rfl⟩, rfl⟩ := matches_one.mp hFirst
    obtain ⟨hAll, rfl⟩ := matches_star_one.mp hRest
    refine ⟨by simp, fun b hb => ?_, rfl⟩
    rcases List.mem_cons.mp hb with rfl | hb
    · exact ha
    · exact hAll b hb
  · rintro ⟨hSome, hAll, rfl⟩
    cases w with
    | nil => exact absurd rfl hSome
    | cons a w =>
      refine ⟨[a], w, [], [], .one (hAll a List.mem_cons_self), ?_, rfl, rfl⟩
      exact matches_star_one.mpr ⟨fun b hb => hAll b (List.mem_cons_of_mem a hb), rfl⟩

theorem matches_optional : Matches (.optional r) w c ↔ Matches r w c ∨ w = [] ∧ c = [] := by
  rw [optional, matches_alt, matches_eps]

@[simp] theorem matches_chain_nil : Matches (.chain []) w c ↔ w = [] ∧ c = [] := matches_eps

theorem matches_chain_cons {rs : List (Regex α)} : Matches (.chain (r :: rs)) w c ↔
    ∃ u v d e, Matches r u d ∧ Matches (.chain rs) v e ∧ w = u ++ v ∧ c = d ++ e := matches_seq

theorem Matches.chain {rs : List (Regex α)} (h : Matches r w c) (h' : Matches (.chain rs) v d) :
    Matches (.chain (r :: rs)) (w ++ v) (c ++ d) := .seq h h'

theorem Matches.chainNil : Matches (.chain [] : Regex α) [] [] := .eps

theorem Matches.exists_of_eq (h : Matches r w c) (hEq : v = w) : ∃ c, Matches r v c := ⟨c, hEq ▸ h⟩

theorem matches_oneOf_nil : Matches (.oneOf r []) w c ↔ Matches r w c := Iff.rfl

theorem matches_oneOf_cons {rs : List (Regex α)} :
    Matches (.oneOf r (s :: rs)) w c ↔ Matches r w c ∨ Matches (.oneOf s rs) w c := matches_alt

/-- Only the groups of the expression take something. -/
theorem Matches.mem_groups (h : Matches r w c) : ∀ g ∈ c, g.1 ∈ r.groups := by
  induction h with
  | one | eps | starNil => exact fun _ hMem => absurd hMem List.not_mem_nil
  | seq _ _ ih ih' =>
    intro g hg
    exact List.mem_append.mpr ((List.mem_append.mp hg).imp (ih g) (ih' g))
  | altLeft _ ih => exact fun g hg => List.mem_append_left _ (ih g hg)
  | altRight _ ih => exact fun g hg => List.mem_append_right _ (ih g hg)
  | starCons _ _ ih ih' => exact fun g hg => (List.mem_append.mp hg).elim (ih g) (ih' g)
  | group _ ih =>
    intro g hg
    rcases List.mem_cons.mp hg with rfl | hg
    · exact List.mem_cons_self
    · exact List.mem_cons_of_mem _ (ih g hg)

theorem cap_append_of_notMem (h : ∀ g ∈ d, g.1 ≠ k) : cap (c ++ d) k = cap c k := by
  have hNone : d.filter (fun g => g.1 = k) = [] := List.filter_eq_nil_iff.mpr fun g hg => by simpa using h g hg
  rw [cap, cap, List.filter_append, hNone, List.append_nil]

/-! ### Engines -/

/-- A match at the start of a text. -/
structure Match (α : Type) where
  matched : List α
  captures : Captures α

/-- What looks for matches: it finds one at the start of a text, and of a whole text, if there is any. -/
structure Engine (α : Type) where
  find : Regex α → List α → Option (Match α)
  find_sound : ∀ {r text m}, find r text = some m → m.matched <+: text ∧ Matches r m.matched m.captures
  find_complete : ∀ {r text w c}, w <+: text → Matches r w c → (find r text).isSome = true
  whole : Regex α → List α → Option (Captures α)
  whole_sound : ∀ {r text c}, whole r text = some c → Matches r text c
  whole_complete : ∀ {r text c}, Matches r text c → (whole r text).isSome = true

namespace Engine

variable (engine : Engine α)

/-- Where a text has no match at its start, none is found. -/
theorem find_eq_none {text : List α} (h : ∀ w c, w <+: text → ¬Matches r w c) : engine.find r text = none := by
  cases hFind : engine.find r text with
  | none => rfl
  | some m =>
    obtain ⟨hPrefix, hMatches⟩ := engine.find_sound hFind
    exact absurd hMatches (h _ _ hPrefix)

/-- The first place from which a text has a match, counted from `position` on. -/
def firstFrom (r : Regex α) (position : Nat) : List α → Option (Nat × Match α)
  | [] => (engine.find r []).map (position, ·)
  | a :: text =>
    match engine.find r (a :: text) with
    | some m => some (position, m)
    | none => firstFrom r (position + 1) text

/-- The last one. -/
def lastFrom (r : Regex α) (position : Nat) : List α → Option (Nat × Match α)
  | [] => (engine.find r []).map (position, ·)
  | a :: text =>
    match lastFrom r (position + 1) text with
    | some found => some found
    | none => (engine.find r (a :: text)).map (position, ·)

/-- The match behind a text in which none starts. -/
theorem firstFrom_append {before text : List α} (position : Nat)
    (h : ∀ w v, before = w ++ v → v ≠ [] → engine.find r (v ++ text) = none) :
    engine.firstFrom r position (before ++ text) = engine.firstFrom r (position + before.length) text := by
  induction before generalizing position with
  | nil => rfl
  | cons a before ih =>
    have hFirst := h [] (a :: before) rfl (List.cons_ne_nil a before)
    rw [List.cons_append] at hFirst
    rw [List.cons_append, firstFrom, hFirst]
    simp only
    rw [ih (position + 1) fun w v hSplit hSome => h (a :: w) v (by rw [hSplit]; rfl) hSome, List.length_cons]
    congr 1
    omega

theorem firstFrom_of_find {text : List α} {m : Match α} (position : Nat) (h : engine.find r text = some m) :
    engine.firstFrom r position text = some (position, m) := by
  cases text with
  | nil => rw [firstFrom, h, Option.map_some]
  | cons a text => rw [firstFrom, h]

/-- The last match is found behind any other text. -/
theorem lastFrom_append {text : List α} {found : Nat × Match α} (before : List α) (position : Nat)
    (h : engine.lastFrom r (position + before.length) text = some found) :
    engine.lastFrom r position (before ++ text) = some found := by
  induction before generalizing position with
  | nil => exact h
  | cons a before ih =>
    have hRest := ih (position + 1) (by rw [← h, List.length_cons]; congr 1; omega)
    rw [List.cons_append, lastFrom, hRest]

/-- A text without matches has no last one. -/
theorem lastFrom_eq_none {text : List α} (position : Nat)
    (h : ∀ w v, text = w ++ v → engine.find r v = none) : engine.lastFrom r position text = none := by
  induction text generalizing position with
  | nil => rw [lastFrom, h [] [] rfl, Option.map_none]
  | cons a text ih =>
    have hRest := ih (position + 1) fun w v hSplit => h (a :: w) v (by rw [hSplit]; rfl)
    rw [lastFrom, hRest, h [] (a :: text) rfl]
    rfl

end Engine

/-! ### An engine that tries everything -/

/-- The words that an expression repeats at the start of a text. -/
def repeats (all : List α → List (Match α)) : Nat → List α → List (Match α)
  | 0, _ => [⟨[], []⟩]
  | n + 1, text =>
    ⟨[], []⟩ :: (all text).flatMap fun first =>
      (repeats all n (text.drop first.matched.length)).map fun rest =>
        ⟨first.matched ++ rest.matched, first.captures ++ rest.captures⟩

/-- The matches at the start of a text. -/
def all : Regex α → List α → List (Match α)
  | .one p, text =>
    match text with
    | a :: _ => if p a then [⟨[a], []⟩] else []
    | [] => []
  | .eps, _ => [⟨[], []⟩]
  | .seq r s, text => (all r text).flatMap fun first =>
      (all s (text.drop first.matched.length)).map fun rest =>
        ⟨first.matched ++ rest.matched, first.captures ++ rest.captures⟩
  | .alt r s, text => all r text ++ all s text
  | .star r, text => repeats (all r) text.length text
  | .group k r, text => (all r text).map fun m => ⟨m.matched, (k, m.matched) :: m.captures⟩

theorem repeats_sound {all : List α → List (Match α)}
    (hAll : ∀ {text m}, m ∈ all text → m.matched <+: text ∧ Matches r m.matched m.captures) {n : Nat} {text : List α}
    {m : Match α} (h : m ∈ repeats all n text) : m.matched <+: text ∧ Matches (.star r) m.matched m.captures := by
  induction n generalizing text m with
  | zero =>
    obtain rfl := List.mem_singleton.mp h
    exact ⟨List.nil_prefix, .starNil⟩
  | succ n ih =>
    rcases List.mem_cons.mp h with rfl | h
    · exact ⟨List.nil_prefix, .starNil⟩
    · obtain ⟨first, hFirst, hRest⟩ := List.mem_flatMap.mp h
      obtain ⟨rest, hMem, rfl⟩ := List.mem_map.mp hRest
      obtain ⟨⟨behind, rfl⟩, hMatches⟩ := hAll hFirst
      obtain ⟨hPrefix, hStar⟩ := ih hMem
      rw [List.drop_left] at hPrefix
      exact ⟨(List.prefix_append_right_inj first.matched).mpr hPrefix, .starCons hMatches hStar⟩

theorem all_sound {text : List α} {m : Match α} (h : m ∈ all r text) :
    m.matched <+: text ∧ Matches r m.matched m.captures := by
  induction r generalizing text m with
  | one p =>
    cases text with
    | nil => cases h
    | cons a text =>
      by_cases hp : p a = true
      · rw [all, if_pos hp] at h
        obtain rfl := List.mem_singleton.mp h
        exact ⟨⟨text, rfl⟩, .one hp⟩
      · rw [all, if_neg hp] at h
        cases h
  | eps =>
    obtain rfl := List.mem_singleton.mp h
    exact ⟨List.nil_prefix, .eps⟩
  | seq r s ih ih' =>
    obtain ⟨first, hFirst, hRest⟩ := List.mem_flatMap.mp h
    obtain ⟨rest, hMem, rfl⟩ := List.mem_map.mp hRest
    obtain ⟨⟨behind, rfl⟩, hMatches⟩ := ih hFirst
    obtain ⟨hPrefix, hMatches'⟩ := ih' hMem
    rw [List.drop_left] at hPrefix
    exact ⟨(List.prefix_append_right_inj first.matched).mpr hPrefix, .seq hMatches hMatches'⟩
  | alt r s ih ih' =>
    rcases List.mem_append.mp h with h | h
    · exact ⟨(ih h).1, .altLeft (ih h).2⟩
    · exact ⟨(ih' h).1, .altRight (ih' h).2⟩
  | star r ih => exact repeats_sound ih h
  | group k r ih =>
    obtain ⟨inner, hMem, rfl⟩ := List.mem_map.mp h
    exact ⟨(ih hMem).1, .group (ih hMem).2⟩

/-- A repetition starts with a word that is not empty, unless nothing is matched. -/
theorem star_cases (h : Matches (.star r) w c) : w = [] ∨
    ∃ u v d e, u ≠ [] ∧ Matches r u d ∧ Matches (.star r) v e ∧ w = u ++ v := by
  generalize hRegex : Regex.star r = s at h
  induction h with
  | starNil => exact .inl rfl
  | @starCons r' u v d e hFirst hRest _ ih =>
    cases hRegex
    cases u with
    | nil => exact ih rfl
    | cons a u => exact .inr ⟨a :: u, v, d, e, List.cons_ne_nil a u, hFirst, hRest, rfl⟩
  | _ => cases hRegex

theorem repeats_complete {all : List α → List (Match α)}
    (hAll : ∀ {text w c}, w <+: text → Matches r w c → ∃ m ∈ all text, m.matched = w) {n : Nat} {text : List α}
    (hFuel : text.length ≤ n) (hPrefix : w <+: text) (h : Matches (.star r) w c) :
    ∃ m ∈ repeats all n text, m.matched = w := by
  induction n generalizing text w c with
  | zero =>
    obtain rfl := List.length_eq_zero_iff.mp (Nat.le_zero.mp hFuel)
    obtain rfl := List.prefix_nil.mp hPrefix
    exact ⟨_, List.mem_singleton_self _, rfl⟩
  | succ n ih =>
    rcases star_cases h with rfl | ⟨u, v, d, e, hSome, hFirst, hRest, rfl⟩
    · exact ⟨_, List.mem_cons_self, rfl⟩
    · obtain ⟨behind, rfl⟩ := hPrefix
      obtain ⟨first, hMem, hMatched⟩ := hAll (List.append_assoc u v behind ▸ List.prefix_append u (v ++ behind)) hFirst
      have hDrop : (u ++ v ++ behind).drop first.matched.length = v ++ behind := by
        rw [hMatched, List.append_assoc, List.drop_left]
      have hShorter : (v ++ behind).length ≤ n := by
        have hPos := List.length_pos_of_ne_nil hSome
        simp only [List.length_append] at hFuel ⊢
        omega
      obtain ⟨rest, hRestMem, hRestMatched⟩ := ih hShorter (List.prefix_append v behind) hRest
      refine ⟨⟨first.matched ++ rest.matched, first.captures ++ rest.captures⟩, ?_, by rw [hMatched, hRestMatched]⟩
      refine List.mem_cons_of_mem _ (List.mem_flatMap.mpr ⟨first, hMem, List.mem_map.mpr ⟨rest, ?_, rfl⟩⟩)
      rwa [hDrop]

theorem all_complete {text : List α} (hPrefix : w <+: text) (h : Matches r w c) :
    ∃ m ∈ all r text, m.matched = w := by
  induction r generalizing text w c with
  | one p =>
    obtain ⟨⟨a, ha, rfl⟩, -⟩ := matches_one.mp h
    obtain ⟨behind, rfl⟩ := hPrefix
    exact ⟨⟨[a], []⟩, by simp [all, ha], rfl⟩
  | eps =>
    obtain ⟨rfl, -⟩ := matches_eps.mp h
    exact ⟨_, List.mem_singleton_self _, rfl⟩
  | seq r s ih ih' =>
    obtain ⟨u, v, d, e, hFirst, hRest, rfl, -⟩ := matches_seq.mp h
    obtain ⟨behind, rfl⟩ := hPrefix
    obtain ⟨first, hMem, hMatched⟩ := ih (List.append_assoc u v behind ▸ List.prefix_append u (v ++ behind)) hFirst
    obtain ⟨rest, hRestMem, hRestMatched⟩ := ih' (List.prefix_append v behind) hRest
    refine ⟨⟨first.matched ++ rest.matched, first.captures ++ rest.captures⟩, ?_, by rw [hMatched, hRestMatched]⟩
    refine List.mem_flatMap.mpr ⟨first, hMem, List.mem_map.mpr ⟨rest, ?_, rfl⟩⟩
    rwa [hMatched, List.append_assoc, List.drop_left]
  | alt r s ih ih' =>
    rcases matches_alt.mp h with h | h
    · obtain ⟨m, hMem, hMatched⟩ := ih hPrefix h
      exact ⟨m, List.mem_append_left _ hMem, hMatched⟩
    · obtain ⟨m, hMem, hMatched⟩ := ih' hPrefix h
      exact ⟨m, List.mem_append_right _ hMem, hMatched⟩
  | star r ih => exact repeats_complete ih (Nat.le_refl _) hPrefix h
  | group k r ih =>
    obtain ⟨d, hInner, -⟩ := matches_group.mp h
    obtain ⟨m, hMem, hMatched⟩ := ih hPrefix hInner
    exact ⟨_, List.mem_map.mpr ⟨m, hMem, rfl⟩, hMatched⟩

/-- The engine that takes the first of all matches. -/
def tryAll [DecidableEq α] : Engine α where
  find r text := (all r text).head?
  find_sound h := all_sound (List.mem_of_head? h)
  find_complete hPrefix h := by
    obtain ⟨m, hMem, -⟩ := all_complete hPrefix h
    rw [List.isSome_head?]
    exact List.ne_nil_of_mem hMem
  whole r text := ((all r text).find? fun m => m.matched = text).map Match.captures
  whole_sound h := by
    obtain ⟨m, hFind, rfl⟩ := Option.map_eq_some_iff.mp h
    have hDecided := List.find?_some hFind
    have hMatched := of_decide_eq_true hDecided
    exact hMatched ▸ (all_sound (List.mem_of_find?_eq_some hFind)).2
  whole_complete h := by
    obtain ⟨m, hMem, hMatched⟩ := all_complete (List.prefix_refl _) h
    rw [Option.isSome_map, List.find?_isSome]
    exact ⟨m, hMem, by simp [hMatched]⟩

end Regex

end Soprano
