import Mathlib.Data.List.DropRight
import Soprano.Library.Embedding
import Soprano.LiteralValue

/-! The matching of language tags: the basic filter on texts and on lists of subtags, the extended filter,
and the lookup of a choice for a list of ranges. -/

namespace Soprano

namespace LanguageTag

open Embedding

/-- `matchWildcard` -/
def wildcard : QString := ['*']

/-! ### The basic filter -/

/-- `Private::matchBasic` of two texts -/
def matchBasic (tag range : QString) : Bool :=
  if range = wildcard then true
  else if range.length > tag.length then false
  else if tag = range then true
  else if range.length = tag.length then false
  else tag.take range.length = range && tag[range.length]? = some '-'

/-- `Private::matchBasic` of two lists of subtags -/
def matchBasicSubTags (tagSub rangeSub : List QString) : Bool :=
  if rangeSub.isEmpty then false
  else if rangeSub.length = 1 ∧ rangeSub[0]? = some wildcard then true
  else if rangeSub.length > tagSub.length then false
  else (List.range rangeSub.length).all fun i => tagSub[i]? = rangeSub[i]?

/-- `subTags` of a text -/
def split (s : QString) : List QString := s.splitOn '-'

theorem matchBasic_iff {tag range : QString} : matchBasic tag range = true ↔
    range = wildcard ∨ tag = range ∨ ∃ rest, tag = range ++ '-' :: rest := by
  unfold matchBasic
  split
  · next h => simp [h]
  · next hRange =>
    rw [or_iff_right hRange]
    split
    · next hLong =>
      refine iff_of_false (by simp) ?_
      rintro (rfl | ⟨rest, rfl⟩)
      · omega
      · rw [List.length_append] at hLong
        omega
    · split
      · next h => exact iff_of_true rfl (.inl h)
      · next hNe =>
        rw [or_iff_right hNe]
        split
        · next hLength =>
          refine iff_of_false (by simp) ?_
          rintro ⟨rest, rfl⟩
          simp at hLength
        · rw [Bool.and_eq_true, decide_eq_true_iff, decide_eq_true_iff]
          constructor
          · rintro ⟨hTake, hNext⟩
            obtain ⟨hLt, hChar⟩ := List.getElem?_eq_some_iff.mp hNext
            refine ⟨tag.drop (range.length + 1), ?_⟩
            rw [← hChar, ← List.drop_eq_getElem_cons hLt]
            exact (List.take_append_drop range.length tag).symm.trans (by rw [hTake])
          · rintro ⟨rest, rfl⟩
            simp

theorem matchBasicSubTags_iff {tagSub rangeSub : List QString} (h : rangeSub ≠ []) :
    matchBasicSubTags tagSub rangeSub = true ↔ rangeSub = [wildcard] ∨ rangeSub <+: tagSub := by
  unfold matchBasicSubTags
  rw [if_neg (by simpa using h)]
  split
  · next hWildcard =>
    obtain ⟨hLength, hFirst⟩ := hWildcard
    obtain ⟨r, rfl⟩ := List.length_eq_one_iff.mp hLength
    refine iff_of_true rfl (.inl ?_)
    simpa using hFirst
  · next hNot =>
    have hNe : rangeSub ≠ [wildcard] := by
      rintro rfl
      exact hNot ⟨rfl, rfl⟩
    rw [or_iff_right hNe]
    split
    · next hLong => exact iff_of_false (by simp) fun hPrefix => absurd hPrefix.length_le (by omega)
    · rw [List.prefix_iff_getElem?, List.all_eq_true]
      constructor
      · intro hAll i hi
        have hEqual := hAll i (List.mem_range.mpr hi)
        rw [decide_eq_true_iff] at hEqual
        rw [hEqual, List.getElem?_eq_getElem hi]
      · intro hAll i hi
        have hLt := List.mem_range.mp hi
        rw [decide_eq_true_iff, hAll i hLt, List.getElem?_eq_getElem hLt]

theorem split_ne_nil (s : QString) : split s ≠ [] := List.splitOn_ne_nil _ _

theorem intercalate_split (s : QString) : ['-'].intercalate (split s) = s := List.intercalate_splitOn _

theorem intercalate_append {a t : List QString} (ha : a ≠ []) (ht : t ≠ []) :
    ['-'].intercalate (a ++ t) = ['-'].intercalate a ++ '-' :: ['-'].intercalate t := by
  induction a with
  | nil => exact absurd rfl ha
  | cons x a ih =>
    cases a with
    | nil =>
      obtain ⟨y, t, rfl⟩ := List.exists_cons_of_ne_nil ht
      simp [List.intercalate]
    | cons y a =>
      have := ih (by simp)
      simp_all [List.intercalate]

/-- A list of subtags is the beginning of another one exactly if its text ends in the other one's where a
subtag does. -/
theorem split_prefix {tag range : QString} :
    split range <+: split tag ↔ tag = range ∨ ∃ rest, tag = range ++ '-' :: rest := by
  constructor
  · rintro ⟨t, h⟩
    have hTag := congrArg ['-'].intercalate h
    rw [intercalate_split] at hTag
    by_cases ht : t = []
    · subst ht
      rw [List.append_nil, intercalate_split] at hTag
      exact .inl hTag.symm
    · rw [intercalate_append (split_ne_nil range) ht, intercalate_split] at hTag
      exact .inr ⟨_, hTag.symm⟩
  · rintro (rfl | ⟨rest, rfl⟩)
    · exact List.prefix_rfl
    · rw [split, split, List.splitOn_append_cons_self]
      exact List.prefix_append _ _

theorem split_eq_wildcard {range : QString} : split range = [wildcard] ↔ range = wildcard := by
  constructor
  · intro h
    rw [← intercalate_split range, h]
    rfl
  · rintro rfl
    decide

theorem matchBasic_eq (tag range : QString) :
    matchBasic tag range = matchBasicSubTags (split tag) (split range) := by
  rw [Bool.eq_iff_iff, matchBasic_iff, matchBasicSubTags_iff (split_ne_nil range), split_prefix,
    split_eq_wildcard]

/-! ### The extended filter -/

/-- What a list access outside the list, or a loop that does not end, stops with. -/
inductive Fault where
  | outOfRange
  | unfinished
deriving DecidableEq, Repr

/-- The loop of `Private::matchExtended` on the subtags from `t` and from `r` on. -/
def matchExtendedFrom (tagSub rangeSub : List QString) : Bool :=
  match rangeSub with
  | [] => true
  | curRangeSub :: rangeRest =>
    -- Step 3A
    if curRangeSub = wildcard then matchExtendedFrom tagSub rangeRest
    else
      match tagSub with
      -- Step 3B
      | [] => false
      | curTagSub :: tagRest =>
        -- Step 3C
        if curTagSub = curRangeSub then matchExtendedFrom tagRest rangeRest
        -- Step 3D
        else if curTagSub.length = 1 then false
        -- Step 3E
        else matchExtendedFrom tagRest (curRangeSub :: rangeRest)
termination_by tagSub.length + rangeSub.length

/-- `Private::matchExtended` of two lists of subtags, of which it reads the first elements at once. -/
def matchExtended (tagSub rangeSub : List QString) : Except Fault Bool :=
  match tagSub, rangeSub with
  | t :: tagRest, r :: rangeRest =>
    -- Step 2
    if t ≠ r ∧ r ≠ wildcard then .ok false else .ok (matchExtendedFrom tagRest rangeRest)
  | _, _ => .error .outOfRange

theorem matchExtendedFrom_iff (tagSub rangeSub : List QString) :
    matchExtendedFrom tagSub rangeSub = true ↔
      Embeds (·.length ≠ 1) tagSub (rangeSub.filter (· ≠ wildcard)) := by
  fun_induction matchExtendedFrom tagSub rangeSub with
  | case1 => exact iff_of_true rfl embeds_nil
  | case2 tagSub rangeRest ih =>
    rw [ih, List.filter_cons_of_neg (by simp)]
  | case3 r rangeRest hWildcard =>
    rw [List.filter_cons_of_pos (by simpa using hWildcard)]
    exact iff_of_false (by simp) not_embeds_cons_nil
  | case4 rangeRest t tagRest hWildcard ih =>
    rw [ih, List.filter_cons_of_pos (by simpa using hWildcard), embeds_cons_self]
  | case5 r rangeRest hWildcard t tagRest hNe hSingle =>
    rw [List.filter_cons_of_pos (by simpa using hWildcard), embeds_cons_of_ne hNe]
    exact iff_of_false (by simp) fun h => h.1 hSingle
  | case6 r rangeRest hWildcard t tagRest hNe hSingle ih =>
    rw [ih, List.filter_cons_of_pos (by simpa using hWildcard), embeds_cons_of_ne hNe,
      and_iff_right hSingle]

theorem matchExtended_ok {tagSub rangeSub : List QString} (hTag : tagSub ≠ []) (hRange : rangeSub ≠ []) :
    ∃ b, matchExtended tagSub rangeSub = .ok b := by
  obtain ⟨t, tagRest, rfl⟩ := List.exists_cons_of_ne_nil hTag
  obtain ⟨r, rangeRest, rfl⟩ := List.exists_cons_of_ne_nil hRange
  rw [matchExtended]
  split <;> exact ⟨_, rfl⟩

/-! ### The lookup -/

/-- `LanguageTag::MatchFilter` -/
inductive MatchFilter where
  | basic
  | extended
deriving DecidableEq, Repr

/-- The filter of a scheme on two lists of subtags. -/
def matched (scheme : MatchFilter) (tagSub rangeSub : List QString) : Except Fault Bool :=
  match scheme with
  | .basic => .ok (matchBasicSubTags tagSub rangeSub)
  | .extended => matchExtended tagSub rangeSub

/-- The scan of the choices from `i` on. -/
def scan (scheme : MatchFilter) (tagSub : List QString) :
    (i : Nat) → (splitChoices : List (List QString)) → Except Fault (Option Nat)
  | _, [] => .ok none
  | i, choiceSub :: splitChoices =>
    if choiceSub.isEmpty then scan scheme tagSub (i + 1) splitChoices
    else do
      if ← matched scheme choiceSub tagSub then .ok (some i)
      else scan scheme tagSub (i + 1) splitChoices

/-- What the truncation of the end leaves. -/
def truncated (tagSub : List QString) : List QString :=
  tagSub.dropLast.rdropWhile (·.length = 1)

/-- The truncation of the end, which begins with `removeLast`. -/
def truncate (tagSub : List QString) : Except Fault (List QString) :=
  if tagSub.isEmpty then .error .outOfRange else .ok (truncated tagSub)

/-- The loop over what is left of an item of the priority list, at most `fuel` times. -/
def fallBack (scheme : MatchFilter) (noFallback : Bool) (splitChoices : List (List QString)) :
    (fuel : Nat) → (tagSub : List QString) → Except Fault (Option Nat)
  | 0, _ => .error .unfinished
  | fuel + 1, tagSub => do
    match ← scan scheme tagSub 0 splitChoices with
    | some i => .ok (some i)
    | none =>
      if noFallback then .ok none
      else do
        let tagSub ← truncate tagSub
        if tagSub.isEmpty then .ok none else fallBack scheme noFallback splitChoices fuel tagSub

section Lookup

variable [Qt]

/-- `LanguageTag::matches` -/
def «matches» (tag range : LanguageTag) (scheme : MatchFilter) : Except Fault Bool :=
  match scheme with
  | .basic => .ok (matchBasic tag.toString range.toString)
  -- `Private::matchExtended` of two tags
  | .extended => if tag = range then .ok true else matchExtended tag.subTags range.subTags

/-- An empty tag or a wildcard -/
def Ignored (tag : LanguageTag) : Prop := tag.toString = [] ∨ tag.toString = wildcard

instance : DecidablePred Ignored := fun tag => inferInstanceAs (Decidable (tag.toString = [] ∨ _))

/-- The entry of `splitChoices` for a choice. -/
def splitChoice (choice : LanguageTag) : List QString :=
  if Ignored choice then [] else choice.subTags

/-- The loop of `lookup` over the priority list. -/
def lookupIn (scheme : MatchFilter) (noFallback : Bool) (splitChoices : List (List QString)) :
    (priority : List LanguageTag) → Except Fault Int
  | [] => .ok (-1)
  | tag :: priority => do
    match ← fallBack scheme noFallback splitChoices tag.subTags.length tag.subTags with
    | some i => .ok i
    | none => lookupIn scheme noFallback splitChoices priority

/-- `LanguageTag::lookup` -/
def lookup (choices priority : List LanguageTag) (noFallback : Bool) (scheme : MatchFilter) :
    Except Fault Int :=
  let splitChoices := choices.map splitChoice
  if splitChoices.length = 0 then .ok (-1) else lookupIn scheme noFallback splitChoices priority

section Spec

variable (scheme : MatchFilter) (noFallback : Bool) (choices : List LanguageTag)

/-- The choice at `i` matches a range. -/
def Takes (range : List QString) (i : Nat) : Prop :=
  ∃ choice ∈ choices[i]?, ¬ Ignored choice ∧ matched scheme choice.subTags range = .ok true

/-- The choice at `i` matches what `k` truncations leave of a range. -/
def Candidate (range : List QString) (k i : Nat) : Prop :=
  (noFallback = true → k = 0) ∧ truncated^[k] range ≠ [] ∧ Takes scheme choices (truncated^[k] range) i

/-- The choice of a range by itself: the first one for the least number of truncations. -/
def Chooses (range : List QString) (i : Nat) : Prop :=
  ∃ k, Candidate scheme noFallback choices range k i ∧
    ∀ k' i', Candidate scheme noFallback choices range k' i' → k < k' ∨ k = k' ∧ i ≤ i'

/-- The choice at `i` matches what `k` truncations leave of the item at `p` of the priority list, which is
not ignored. -/
def Documented (priority : List LanguageTag) (p k i : Nat) : Prop :=
  ∃ tag ∈ priority[p]?, ¬ Ignored tag ∧ Candidate scheme noFallback choices tag.subTags k i

/-- The documented choice: the first one for the least pair of a position and a number of truncations. -/
def Picks (priority : List LanguageTag) (i : Nat) : Prop :=
  ∃ p k, Documented scheme noFallback choices priority p k i ∧
    ∀ p' k' i', Documented scheme noFallback choices priority p' k' i' →
      p < p' ∨ p = p' ∧ (k < k' ∨ k = k' ∧ i ≤ i')

/-- Where an ignored item is the first one with a choice, the first later item that is not ignored and has a
choice has the same one. -/
def IgnoredAgree (priority : List LanguageTag) : Prop :=
  ∀ p : Nat, ∀ tag ∈ priority[p]?, Ignored tag → ∀ i, Chooses scheme noFallback choices tag.subTags i →
    (∀ p' < p, ∀ tag' ∈ priority[p']?, ∀ k j, ¬ Candidate scheme noFallback choices tag'.subTags k j) →
    ∃ q, p < q ∧ ∃ later ∈ priority[q]?, ¬ Ignored later ∧
      Chooses scheme noFallback choices later.subTags i ∧
      ∀ p', p < p' → p' < q → ∀ tag' ∈ priority[p']?, ¬ Ignored tag' →
        ∀ k j, ¬ Candidate scheme noFallback choices tag'.subTags k j

end Spec

/-! ### What the loops of the lookup find -/

section Loops

variable {scheme : MatchFilter} {noFallback : Bool} {choice : LanguageTag} {choices : List LanguageTag}
  {range : List QString} {i k : Nat}

theorem subTags_ne_nil (tag : LanguageTag) : tag.subTags ≠ [] := split_ne_nil _

theorem splitChoice_of_ignored (h : Ignored choice) : splitChoice choice = [] := if_pos h

theorem splitChoice_of_not_ignored (h : ¬ Ignored choice) : splitChoice choice = choice.subTags := if_neg h

omit [Qt] in
theorem matched_ok {tagSub : List QString} (hTag : tagSub ≠ []) (hRange : range ≠ []) :
    ∃ b, matched scheme tagSub range = .ok b := by
  cases scheme with
  | basic => exact ⟨_, rfl⟩
  | extended => exact matchExtended_ok hTag hRange

theorem takes_zero : Takes scheme (choice :: choices) range 0 ↔
    ¬ Ignored choice ∧ matched scheme choice.subTags range = .ok true := by
  simp [Takes]

theorem takes_succ : Takes scheme (choice :: choices) range (i + 1) ↔ Takes scheme choices range i := by
  simp [Takes]

omit [Qt] in
/-- The least index with a property, if there is one. -/
def IsFirst (P : Nat → Prop) : Option Nat → Prop
  | none => ∀ i, ¬ P i
  | some i => P i ∧ ∀ j, P j → i ≤ j

omit [Qt] in
theorem isFirst_zero {P : Nat → Prop} (h : P 0) : IsFirst P (some 0) := ⟨h, fun j _ => Nat.zero_le j⟩

omit [Qt] in
theorem IsFirst.succ {P : Nat → Prop} {o : Option Nat} (h : ¬ P 0) (hFirst : IsFirst (fun i => P (i + 1)) o) :
    IsFirst P (o.map (· + 1)) := by
  cases o with
  | none =>
    intro i hi
    cases i with
    | zero => exact h hi
    | succ i => exact hFirst i hi
  | some i =>
    refine ⟨hFirst.1, fun j hj => ?_⟩
    cases j with
    | zero => exact absurd hj h
    | succ j => exact Nat.succ_le_succ (hFirst.2 j hj)

variable (scheme choices) in
/-- A scan ends within its lists, with the first choice that matches the range. -/
theorem scan_spec (hRange : range ≠ []) (n : Nat) : ∃ o : Option Nat,
    scan scheme range n (choices.map splitChoice) = .ok (o.map (n + ·)) ∧
      IsFirst (Takes scheme choices range) o := by
  induction choices generalizing n with
  | nil => exact ⟨none, rfl, fun i h => by simp [Takes] at h⟩
  | cons choice choices ih =>
    obtain ⟨o, hScan, hFirst⟩ := ih (n + 1)
    have hMap : (o.map (· + 1)).map (n + ·) = o.map (n + 1 + ·) := by
      rw [Option.map_map]
      congr 1
      funext i
      simp only [Function.comp_apply]
      omega
    have hRest : ¬ Takes scheme (choice :: choices) range 0 →
        IsFirst (Takes scheme (choice :: choices) range) (o.map (· + 1)) := by
      intro hNot
      refine IsFirst.succ hNot ?_
      simpa only [takes_succ] using hFirst
    rw [List.map_cons, scan]
    by_cases hIgnored : Ignored choice
    · rw [splitChoice_of_ignored hIgnored, if_pos List.isEmpty_nil, hScan]
      refine ⟨o.map (· + 1), by rw [hMap], hRest fun hTakes => ?_⟩
      exact (takes_zero.mp hTakes).1 hIgnored
    · rw [splitChoice_of_not_ignored hIgnored, if_neg (by simpa using subTags_ne_nil choice)]
      obtain ⟨b, hMatched⟩ : ∃ b, matched scheme choice.subTags range = .ok b :=
        matched_ok (subTags_ne_nil choice) hRange
      rw [hMatched]
      cases b with
      | true => exact ⟨some 0, rfl, isFirst_zero (takes_zero.mpr ⟨hIgnored, hMatched⟩)⟩
      | false =>
        refine ⟨o.map (· + 1), hScan.trans (by rw [hMap]), hRest fun hTakes => ?_⟩
        rw [takes_zero, hMatched] at hTakes
        exact absurd hTakes.2 (by simp)

omit [Qt] in
theorem truncated_length_lt {tagSub : List QString} (h : tagSub ≠ []) :
    (truncated tagSub).length < tagSub.length := by
  have hDrop : (truncated tagSub).length ≤ tagSub.dropLast.length :=
    (List.rdropWhile_prefix _ _).length_le
  have := List.length_pos_iff.mpr h
  rw [List.length_dropLast] at hDrop
  omega

omit [Qt] in
theorem truncated_iterate_nil (k : Nat) : truncated^[k] [] = [] := Function.iterate_fixed rfl k

theorem candidate_zero : Candidate scheme noFallback choices range 0 i ↔
    range ≠ [] ∧ Takes scheme choices range i := by
  simp [Candidate]

theorem candidate_succ (h : noFallback = false) : Candidate scheme noFallback choices range (k + 1) i ↔
    Candidate scheme noFallback choices (truncated range) k i := by
  simp [Candidate, h]

theorem not_candidate_nil : ¬ Candidate scheme noFallback choices [] k i :=
  fun h => h.2.1 (truncated_iterate_nil k)

/-- What the loop over a range has found. -/
def Settled (scheme : MatchFilter) (noFallback : Bool) (choices : List LanguageTag) (range : List QString) :
    Option Nat → Prop
  | none => ∀ k i, ¬ Candidate scheme noFallback choices range k i
  | some i => Chooses scheme noFallback choices range i

theorem settled_first (hRange : range ≠ []) (hFirst : IsFirst (Takes scheme choices range) (some i)) :
    Settled scheme noFallback choices range (some i) := by
  refine ⟨0, candidate_zero.mpr ⟨hRange, hFirst.1⟩, fun k' i' hCandidate => ?_⟩
  cases k' with
  | zero => exact .inr ⟨rfl, hFirst.2 i' (candidate_zero.mp hCandidate).2⟩
  | succ k' => exact .inl (Nat.succ_pos k')

/-- A range none of the choices matches is settled by what its truncation leaves. -/
theorem settled_truncated (hFallback : noFallback = false)
    (hFirst : IsFirst (Takes scheme choices range) none) {o : Option Nat}
    (h : Settled scheme noFallback choices (truncated range) o) :
    Settled scheme noFallback choices range o := by
  have hZero : ∀ i, ¬ Candidate scheme noFallback choices range 0 i :=
    fun i hCandidate => hFirst i (candidate_zero.mp hCandidate).2
  cases o with
  | none =>
    intro k i hCandidate
    cases k with
    | zero => exact hZero i hCandidate
    | succ k => exact h k i ((candidate_succ hFallback).mp hCandidate)
  | some i =>
    obtain ⟨k, hCandidate, hLeast⟩ := h
    refine ⟨k + 1, (candidate_succ hFallback).mpr hCandidate, fun k' i' hOther => ?_⟩
    cases k' with
    | zero => exact absurd hOther (hZero i')
    | succ k' =>
      have := hLeast k' i' ((candidate_succ hFallback).mp hOther)
      omega

variable (scheme noFallback choices) in
/-- The loop over an item ends within its lists, with the item's choice. -/
theorem fallBack_spec {fuel : Nat} (hRange : range ≠ []) (hFuel : range.length ≤ fuel) :
    ∃ o, fallBack scheme noFallback (choices.map splitChoice) fuel range = .ok o ∧
      Settled scheme noFallback choices range o := by
  induction fuel generalizing range with
  | zero => exact absurd (List.length_pos_iff.mpr hRange) (by omega)
  | succ fuel ih =>
    obtain ⟨o, hScan, hFirst⟩ := scan_spec scheme choices hRange 0
    rw [fallBack, hScan]
    cases o with
    | some i =>
      refine ⟨some i, ?_, settled_first hRange hFirst⟩
      change Except.ok (some (0 + i)) = _
      rw [Nat.zero_add]
    | none =>
      change ∃ o, (if noFallback = true then _ else _) = _ ∧ _
      cases hNoFallback : noFallback with
      | true =>
        refine ⟨none, rfl, fun k i hCandidate => ?_⟩
        obtain rfl := hCandidate.1 rfl
        exact hFirst i hCandidate.2.2
      | false =>
        rw [if_neg (by simp), truncate, if_neg (by simpa using hRange)]
        change ∃ o, (if (truncated range).isEmpty = true then _ else _) = _ ∧ _
        by_cases hEmpty : truncated range = []
        · rw [if_pos (by simpa using hEmpty)]
          refine ⟨none, rfl, settled_truncated rfl hFirst ?_⟩
          rw [hEmpty]
          exact fun k i => not_candidate_nil
        · rw [if_neg (by simpa using hEmpty)]
          have hLength := truncated_length_lt hRange
          obtain ⟨o, hRun, hSettled⟩ := ih hEmpty (by omega)
          rw [hNoFallback] at hRun hSettled
          exact ⟨o, hRun, settled_truncated rfl hFirst hSettled⟩

theorem Chooses.unique {j : Nat} (hi : Chooses scheme noFallback choices range i)
    (hj : Chooses scheme noFallback choices range j) : i = j := by
  obtain ⟨k, hk, hLeast⟩ := hi
  obtain ⟨l, hl, hOther⟩ := hj
  have := hLeast l j hl
  have := hOther k i hk
  omega

/-- The result of the loop over the priority list: the choice of the first item that has one. -/
def Result (scheme : MatchFilter) (noFallback : Bool) (choices priority : List LanguageTag) (n : Int) : Prop :=
  (n = -1 ∧ ∀ p : Nat, ∀ tag ∈ priority[p]?, Settled scheme noFallback choices tag.subTags none) ∨
    ∃ p : Nat, ∃ tag ∈ priority[p]?, ∃ i : Nat, n = i ∧ Chooses scheme noFallback choices tag.subTags i ∧
      ∀ p' < p, ∀ tag' ∈ priority[p']?, Settled scheme noFallback choices tag'.subTags none

theorem lookupIn_spec (priority : List LanguageTag) :
    ∃ n, lookupIn scheme noFallback (choices.map splitChoice) priority = .ok n ∧
      Result scheme noFallback choices priority n := by
  induction priority with
  | nil => exact ⟨-1, rfl, .inl ⟨rfl, fun p tag h => by simp at h⟩⟩
  | cons tag priority ih =>
    obtain ⟨o, hLoop, hSettled⟩ := fallBack_spec scheme noFallback choices (subTags_ne_nil tag) le_rfl
    rw [lookupIn, hLoop]
    cases o with
    | some i => exact ⟨i, rfl, .inr ⟨0, tag, rfl, i, rfl, hSettled, fun p' hp' => absurd hp' (by omega)⟩⟩
    | none =>
      obtain ⟨n, hRest, hResult⟩ := ih
      refine ⟨n, hRest, ?_⟩
      rcases hResult with ⟨rfl, hNone⟩ | ⟨p, later, hp, i, rfl, hChooses, hEarlier⟩
      · refine .inl ⟨rfl, fun p later hp => ?_⟩
        cases p with
        | zero =>
          obtain rfl := Option.some.inj hp
          exact hSettled
        | succ p => exact hNone p later hp
      · refine .inr ⟨p + 1, later, hp, i, rfl, hChooses, fun p' hp' other hOther => ?_⟩
        cases p' with
        | zero =>
          obtain rfl := Option.some.inj hOther
          exact hSettled
        | succ p' => exact hEarlier p' (by omega) other hOther

variable (scheme noFallback choices) in
theorem lookup_spec (priority : List LanguageTag) :
    ∃ n, lookup choices priority noFallback scheme = .ok n ∧
      Result scheme noFallback choices priority n := by
  cases choices with
  | nil =>
    refine ⟨-1, rfl, .inl ⟨rfl, fun p tag hp k i hCandidate => ?_⟩⟩
    simp [Candidate, Takes] at hCandidate
  | cons choice choices => exact lookupIn_spec priority

/-- Only one item is the first one with a choice. -/
theorem position_unique {priority : List LanguageTag} {tag tag' : LanguageTag} {p p' j : Nat}
    (hp : tag ∈ priority[p]?) (hp' : tag' ∈ priority[p']?)
    (hChooses : Chooses scheme noFallback choices tag.subTags i)
    (hChooses' : Chooses scheme noFallback choices tag'.subTags j)
    (hEarlier : ∀ q < p, ∀ t ∈ priority[q]?, Settled scheme noFallback choices t.subTags none)
    (hEarlier' : ∀ q < p', ∀ t ∈ priority[q]?, Settled scheme noFallback choices t.subTags none) :
    p = p' := by
  obtain ⟨k, hCandidate, -⟩ := hChooses
  obtain ⟨l, hCandidate', -⟩ := hChooses'
  rcases lt_trichotomy p p' with hLt | rfl | hLt
  · exact absurd hCandidate (hEarlier' p hLt tag hp k i)
  · rfl
  · exact absurd hCandidate' (hEarlier p' hLt tag' hp' l j)

theorem picks_iff {priority : List LanguageTag} : Picks scheme noFallback choices priority i ↔
    ∃ p : Nat, ∃ tag ∈ priority[p]?, ¬ Ignored tag ∧ Chooses scheme noFallback choices tag.subTags i ∧
      ∀ p' < p, ∀ tag' ∈ priority[p']?, ¬ Ignored tag' →
        Settled scheme noFallback choices tag'.subTags none := by
  constructor
  · rintro ⟨p, k, ⟨tag, hp, hNot, hCandidate⟩, hLeast⟩
    refine ⟨p, tag, hp, hNot, ⟨k, hCandidate, fun k' i' h => ?_⟩, fun p' hp' tag' ht hNot' k' j h => ?_⟩
    · have := hLeast p k' i' ⟨tag, hp, hNot, h⟩
      omega
    · have := hLeast p' k' j ⟨tag', ht, hNot', h⟩
      omega
  · rintro ⟨p, tag, hp, hNot, ⟨k, hCandidate, hLeast⟩, hEarlier⟩
    refine ⟨p, k, ⟨tag, hp, hNot, hCandidate⟩, ?_⟩
    rintro p' k' i' ⟨tag', hp', hNot', h⟩
    rcases lt_trichotomy p p' with hLt | rfl | hLt
    · exact .inl hLt
    · obtain rfl := Option.mem_unique hp hp'
      exact .inr ⟨rfl, hLeast k' i' h⟩
    · exact absurd h (hEarlier p' hLt tag' hp' hNot' k' i')

theorem Picks.unique {priority : List LanguageTag} {j : Nat}
    (hi : Picks scheme noFallback choices priority i) (hj : Picks scheme noFallback choices priority j) :
    i = j := by
  obtain ⟨p, k, hp, hLeast⟩ := hi
  obtain ⟨q, l, hq, hOther⟩ := hj
  have := hLeast q l j hq
  have := hOther p k i hp
  omega

end Loops

/-- The two basic filters agree on every text and every range, so a tag matches a range exactly if the lookup
takes it as a choice for the range, where it takes the tag as a choice at all. -/
theorem basic_filters_agree :
    (∀ tag range : QString, matchBasic tag range = matchBasicSubTags (split tag) (split range)) ∧
      (∀ choice range : LanguageTag,
        «matches» choice range .basic = matched .basic choice.subTags range.subTags) ∧
      ∀ choice range : LanguageTag, ¬ Ignored choice →
        (lookup [choice] [range] true .basic = .ok 0 ↔ «matches» choice range .basic = .ok true) := by
  have hMatches (choice range : LanguageTag) :
      «matches» choice range .basic = matched .basic choice.subTags range.subTags :=
    congrArg Except.ok (matchBasic_eq choice.toString range.toString)
  refine ⟨matchBasic_eq, hMatches, fun choice range hNot => ?_⟩
  rw [hMatches]
  obtain ⟨fuel, hFuel⟩ := Nat.exists_eq_succ_of_ne_zero
    (List.length_pos_iff.mpr (subTags_ne_nil range)).ne'
  have hSplit : (choice.subTags).isEmpty = false := by simpa using subTags_ne_nil choice
  have hLookup : lookup [choice] [range] true .basic =
      if matchBasicSubTags choice.subTags range.subTags = true then .ok 0 else .ok (-1) := by
    simp only [lookup, lookupIn, List.map_cons, List.map_nil, splitChoice_of_not_ignored hNot, hFuel, fallBack,
      scan, hSplit, matched]
    cases matchBasicSubTags choice.subTags range.subTags <;> rfl
  rw [hLookup, matched]
  cases matchBasicSubTags choice.subTags range.subTags <;> simp

end Lookup

section Example

local instance languageTagQt : Qt := asciiQt

def german : LanguageTag := LanguageTag.ofString ['d', 'e']

def english : LanguageTag := LanguageTag.ofString ['e', 'n']

def anyLanguage : LanguageTag := LanguageTag.ofString wildcard

end Example

end LanguageTag

end Soprano
