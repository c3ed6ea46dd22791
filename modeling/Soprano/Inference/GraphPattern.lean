import Soprano.Inference.Sparql
import Soprano.N3

/-! The SPARQL text of a statement pattern, and the text that the pattern means: each variable by its name
and each node in its N3 form. -/

namespace Soprano

namespace QString

variable {s t a p : QString} {d c : Char} {k n : Nat}

/-! ### What a marker does to a text -/

/-- The text is the other one up to a percent sign of that. -/
def Deviates (s t : QString) : Prop := ∃ u v c w, s = u ++ '%' :: v ∧ t = u ++ c :: w ∧ c ≠ '%'

theorem Deviates.ne (h : Deviates s t) : s ≠ t := by
  obtain ⟨u, v, c, w, rfl, rfl, hc⟩ := h
  intro hEq
  exact hc (List.cons.inj (List.append_cancel_left hEq)).1.symm

theorem Deviates.append (h : Deviates s t) (x y : QString) : Deviates (s ++ x) (t ++ y) := by
  obtain ⟨u, v, c, w, rfl, rfl, hc⟩ := h
  exact ⟨u, v ++ x, c, w ++ y, by simp, by simp, hc⟩

theorem Deviates.prepend (h : Deviates s t) (x : QString) : Deviates (x ++ s) (x ++ t) := by
  obtain ⟨u, v, c, w, rfl, rfl, hc⟩ := h
  exact ⟨x ++ u, v, c, w, by simp, by simp, hc⟩

/-- An argument starts with another character than a percent sign. -/
def IsContent (a : QString) : Prop := ∃ c rest, a = c :: rest ∧ c ≠ '%'

theorem markerAt_head {c : Char} {m : Nat × Nat} (h : markerAt (c :: s) = some m) : c = '%' := by
  by_contra hNe
  rw [markerAt_of_ne hNe] at h
  cases h

/-- A marker of that number stands in the text. -/
def HasMarker (n : Nat) : QString → Prop
  | [] => False
  | c :: s => (∃ m, markerAt (c :: s) = some m ∧ m.1 = n) ∨ HasMarker n s

theorem hasMarker_lowest (h : lowestMarker s = some n) : HasMarker n s := by
  induction s generalizing n with
  | nil => cases h
  | cons c s ih =>
    rw [lowestMarker] at h
    cases hHere : markerAt (c :: s) with
    | none =>
      rw [hHere] at h
      exact .inr (ih (by simpa using h))
    | some m =>
      rw [hHere] at h
      cases hRest : lowestMarker s with
      | none =>
        rw [hRest] at h
        exact .inl ⟨m, hHere, by simpa using h⟩
      | some k =>
        rw [hRest] at h
        obtain rfl : min m.1 k = n := by simpa using h
        rcases Nat.le_total m.1 k with hLe | hLe
        · exact .inl ⟨m, hHere, (Nat.min_eq_left hLe).symm⟩
        · rw [Nat.min_eq_right hLe]
          exact .inr (ih hRest)

theorem isSeparator_head {d : Char} (h : isSeparator d = true) (t : QString) :
    ∀ e ∈ (d :: t).head?, isSeparator e = true := by
  intro e he
  cases he
  exact h

/-- A separator ends a marker, whatever stands behind it. -/
theorem markerAt_append_of_head (ht : ∀ d ∈ t.head?, isSeparator d = true) (c : Char) (s : QString) :
    markerAt (c :: s ++ t) = markerAt (c :: s) := by
  cases t with
  | nil => rw [List.append_nil]
  | cons d t => exact markerAt_append (ht d rfl) t

theorem lowestMarker_append_eq (ht : ∀ d ∈ t.head?, isSeparator d = true) :
    lowestMarker (s ++ t) = match lowestMarker s, lowestMarker t with
      | some m, some n => some (min m n)
      | some m, none => some m
      | none, n => n := by
  induction s with
  | nil => rfl
  | cons c s ih =>
    have hMarker := markerAt_append_of_head ht c s
    rw [List.cons_append] at hMarker ⊢
    rw [lowestMarker, hMarker, ih, lowestMarker]
    cases markerAt (c :: s) <;> cases lowestMarker s <;> cases lowestMarker t <;> simp [Nat.min_assoc]

/-- The first marker of the number is replaced. -/
theorem replaceMarker_first (ht : ∀ d ∈ t.head?, isSeparator d = true) (h : HasMarker n s) :
    ∃ u v w, s = u ++ '%' :: v ∧ replaceMarker n a 0 (s ++ t) = u ++ (a ++ w) := by
  induction s with
  | nil => cases h
  | cons c s ih =>
    have hMarker := markerAt_append_of_head ht c s
    rw [List.cons_append] at hMarker ⊢
    have hLater (hRest : HasMarker n s) (hNext : replaceMarker n a 0 (c :: (s ++ t)) =
        c :: replaceMarker n a 0 (s ++ t)) :
        ∃ u v w, c :: s = u ++ '%' :: v ∧ replaceMarker n a 0 (c :: (s ++ t)) = u ++ (a ++ w) := by
      obtain ⟨u, v, w, rfl, hReplaced⟩ := ih hRest
      exact ⟨c :: u, v, w, rfl, by rw [hNext, hReplaced]; rfl⟩
    cases hHere : markerAt (c :: s) with
    | none =>
      rw [HasMarker, hHere] at h
      exact hLater (h.resolve_left (by simp)) (by simp only [replaceMarker, hMarker, hHere])
    | some m =>
      obtain rfl := markerAt_head hHere
      by_cases hNumber : m.1 = n
      · refine ⟨[], s, replaceMarker n a (m.2 - 1) (s ++ t), rfl, ?_⟩
        simp only [replaceMarker, hMarker, hHere, hNumber, if_true]
        rfl
      · rw [HasMarker, hHere] at h
        refine hLater (h.resolve_left ?_) (by simp only [replaceMarker, hMarker, hHere, if_neg hNumber])
        rintro ⟨m', hEq, hm⟩
        exact hNumber (Option.some.inj hEq ▸ hm)

theorem exists_lowestMarker (h : ¬ MarkersAbove k s) : ∃ m ≤ k, lowestMarker s = some m := by
  induction s with
  | nil => exact absurd trivial h
  | cons c s ih =>
    rw [MarkersAbove, not_and_or] at h
    have hRest (n : Nat) : n ∈ lowestMarker s → ¬ k < n → ∃ m ≤ k, lowestMarker (c :: s) = some m := by
      intro hn hLe
      rw [lowestMarker, show lowestMarker s = some n from hn]
      cases markerAt (c :: s) with
      | none => exact ⟨n, by omega, rfl⟩
      | some m => exact ⟨min m.1 n, by omega, rfl⟩
    rcases h with h | h
    · push Not at h
      obtain ⟨m, hHere, hm⟩ := h
      rw [lowestMarker, hHere]
      cases lowestMarker s with
      | none => exact ⟨m.1, hm, rfl⟩
      | some n => exact ⟨min m.1 n, by omega, rfl⟩
    · obtain ⟨m, hm, hLowest⟩ := ih h
      exact hRest m hLowest (by omega)

/-- The argument takes the place of a marker in the text, where what follows has no lower one. -/
theorem deviates_marker (ha : IsContent a) (hs : ¬ MarkersAbove k s)
    (ht : ∀ d ∈ t.head?, isSeparator d = true) (hLowest : ∀ n ∈ lowestMarker t, k ≤ n) (x : QString) :
    Deviates (s ++ x) (arg (s ++ t) a) := by
  obtain ⟨m, hm, hMarker⟩ := exists_lowestMarker hs
  have hAll : lowestMarker (s ++ t) = some m := by
    rw [lowestMarker_append_eq ht, hMarker]
    cases hRest : lowestMarker t with
    | none => rfl
    | some n => exact congrArg some (Nat.min_eq_left (Nat.le_trans hm (hLowest n hRest)))
  obtain ⟨u, v, w, rfl, hReplaced⟩ := replaceMarker_first (a := a) ht (hasMarker_lowest hMarker)
  obtain ⟨c, rest, rfl, hc⟩ := ha
  refine ⟨u, v ++ x, c, rest ++ w, by simp, ?_, hc⟩
  rw [arg, hAll]
  exact hReplaced

/-- What the argument replaces elsewhere does not undo a deviation. -/
theorem Deviates.arg (h : Deviates s t) (ha : IsContent a) : Deviates s (QString.arg t a) := by
  rw [QString.arg]
  cases hLowest : lowestMarker t with
  | none => exact h
  | some n =>
    obtain ⟨u', v', w', hText, hReplaced⟩ :=
      replaceMarker_first (t := []) (a := a) (by intros; contradiction) (hasMarker_lowest hLowest)
    obtain ⟨u, v, c, w, rfl, rfl, hc⟩ := h
    obtain ⟨b, rest, rfl, hb⟩ := ha
    rw [List.append_nil] at hReplaced
    simp only [hReplaced]
    rcases List.append_eq_append_iff.mp hText with ⟨mid, rfl, hMid⟩ | ⟨mid, rfl, hMid⟩
    · cases mid with
      | nil => exact absurd (List.cons.inj hMid).1 hc
      | cons d mid =>
        -- the first place that is replaced lies behind the deviation
        obtain ⟨rfl, -⟩ := List.cons.inj hMid
        exact ⟨u, v, c, mid ++ (b :: rest ++ w'), rfl, by simp, hc⟩
    · cases mid with
      | nil => exact absurd (List.cons.inj hMid).1.symm hc
      | cons d mid =>
        obtain ⟨rfl, -⟩ := List.cons.inj hMid
        exact ⟨u', mid ++ '%' :: v, b, rest ++ w', by simp, by simp, hb⟩

theorem markersAbove_cons_iff (h : c ≠ '%') : MarkersAbove k (c :: s) ↔ MarkersAbove k s :=
  ⟨fun h => h.2, fun hs => hs.cons h⟩

theorem markersAbove_append_iff (hd : isSeparator d = true) :
    MarkersAbove k (s ++ d :: t) ↔ MarkersAbove k s ∧ MarkersAbove k (d :: t) := by
  refine ⟨fun h => ?_, fun h => h.1.append hd h.2⟩
  induction s with
  | nil => exact ⟨trivial, h⟩
  | cons e s ih =>
    obtain ⟨hs, ht⟩ := ih h.2
    exact ⟨⟨fun m hm => h.1 m ((markerAt_append hd t).trans hm), hs⟩, ht⟩

/-- An argument does not take a first character that is no percent sign. -/
theorem arg_cons (h : c ≠ '%') (s a : QString) : ∃ w, arg (c :: s) a = c :: w := by
  rw [arg]
  cases lowestMarker (c :: s) with
  | none => exact ⟨s, rfl⟩
  | some n =>
    refine ⟨replaceMarker n a 0 s, ?_⟩
    simp only [replaceMarker, markerAt_of_ne h]

end QString

namespace Inference

open QString Codec

section Qt

variable [Qt]

/-! ### The texts of a pattern -/

/-- What stands behind the text of a literal: its language, or else its data type. -/
def suffix (v : LiteralValue) : QString :=
  if v.language.isEmpty then Qt.urlToString v.dataTypeUri else v.language.toString

namespace NodePattern

variable (bindings : BindingSet)

/-- The text that the term means: the name of an unbound variable, and else the N3 form of the node. -/
def n3Text : NodePattern → QString
  | ofVariable name => if bindings.contains name then ((bindings.value name).toN3 []).1 else '?' :: name
  | resource node => (node.toN3 []).1

/-- The literal is written with its text as it is, and has a language, or a data type that is written as
its IRI. -/
def LegibleLiteral (v : LiteralValue) : Prop :=
  (∀ c ∈ v.toString, escapeLetter c = none) ∧
    if v.isPlain then v.language.isEmpty = false
    else Qt.urlToString v.dataTypeUri = v.dataTypeUri.encoded

/-- The term is written as N3 does: a bound variable has a resource that is shown as its IRI. -/
def Legible : NodePattern → Prop
  | ofVariable name => bindings.contains name = true →
      ∃ u h, bindings.value name = .resource u h ∧ Qt.urlToString u = u.encoded
  | resource .empty => False
  | resource (.resource _ _) => True
  | resource (.blank _ _) => True
  | resource (.literal v _) => LegibleLiteral v

/-- The texts that the term is put together of. -/
def parts : NodePattern → List QString
  | ofVariable name => [if bindings.contains name then (bindings.value name).toString else name]
  | resource .empty => []
  | resource (.resource u _) => [u.encoded]
  | resource (.blank id _) => [id]
  | resource (.literal v _) => [v.toString, suffix v]

/-- The text of a literal has no marker that the language or the data type takes. -/
def Unmarked : NodePattern → Prop
  | resource (.literal v _) => MarkersAbove 2 v.toString
  | _ => True

/-- The language or the data type of a literal does not start with a percent sign. -/
def Ordinary : NodePattern → Prop
  | resource (.literal v _) => IsContent (suffix v)
  | _ => True

/-- What stands behind the closing quote of a literal. -/
def behind (v : LiteralValue) : QString :=
  if v.language.isEmpty then '^' :: '^' :: '<' :: (suffix v ++ ['>']) else '@' :: suffix v

/-- The text of the term if nothing in it is taken for a marker. -/
def plainText : NodePattern → QString
  | resource (.literal v _) => '"' :: (v.toString ++ '"' :: behind v)
  | q => q.createSparqlNodePattern bindings

/-- The pattern with its bound variables replaced. -/
def substitute : NodePattern → NodePattern
  | ofVariable name => if bindings.contains name then resource (bindings.value name) else ofVariable name
  | resource node => resource node

variable {bindings} {q : NodePattern} {v : LiteralValue}

theorem createSparqlNodePattern_literal (h : v.isValid = true) :
    (resource (.literal v h)).createSparqlNodePattern bindings =
      QString.arg ('"' :: (v.toString ++ if v.language.isEmpty then "\"^^<%2>".toList else "\"@%2".toList))
        (suffix v) := by
  have hLiteral : (Node.literal v h).isLiteral = true := rfl
  have hLanguage : (Node.literal v h).language = v.language.toString := rfl
  rw [createSparqlNodePattern, if_pos hLiteral, hLanguage, suffix]
  cases hEmpty : v.language.isEmpty with
  | true =>
    have : v.language.toString.isEmpty = true := hEmpty
    rw [if_pos this]
    rfl
  | false =>
    have : ¬ v.language.toString.isEmpty = true := Bool.eq_false_iff.mp hEmpty
    rw [if_neg this]
    rfl

omit [Qt] in
/-- What the suffix of a literal takes the place of. -/
theorem lowestMarker_suffix (e : Bool) :
    ∀ n ∈ lowestMarker (if e then "\"^^<%2>".toList else "\"@%2".toList), 2 ≤ n := by
  cases e <;> decide

theorem createSparqlNodePattern_eq (h : q.Unmarked) :
    q.createSparqlNodePattern bindings = q.plainText bindings := by
  cases q with
  | ofVariable name => rfl
  | resource n =>
    cases n with
    | empty | resource | blank => rfl
    | literal v hv =>
      have hQuoted : MarkersAbove 2 ('"' :: v.toString) := h.cons (by decide)
      rw [createSparqlNodePattern_literal, plainText, behind]
      cases v.language.isEmpty with
      | true =>
        have := QString.arg_append (t := "^^<%2>".toList) (a := suffix v) hQuoted (d := '"') rfl (n := 2) rfl
          (by decide)
        exact this
      | false =>
        have := QString.arg_append (t := "@%2".toList) (a := suffix v) hQuoted (d := '"') rfl (n := 2) rfl
          (by decide)
        rw [show QString.arg ('"' :: "@%2".toList) (suffix v) = '"' :: '@' :: (suffix v ++ []) from rfl,
          List.append_nil] at this
        exact this

variable (bindings) in
theorem deviates_of_not_unmarked (h : ¬ q.Unmarked) (hOrdinary : q.Ordinary) :
    Deviates (q.plainText bindings) (q.createSparqlNodePattern bindings) := by
  cases q with
  | ofVariable name => exact absurd trivial h
  | resource n =>
    cases n with
    | empty | resource | blank => exact absurd trivial h
    | literal v hv =>
      rw [createSparqlNodePattern_literal, plainText]
      refine deviates_marker (k := 2) (s := '"' :: v.toString) hOrdinary (fun hAbove => h hAbove.2) ?_
        (lowestMarker_suffix _) _
      cases v.language.isEmpty with
      | false => exact isSeparator_head rfl _
      | true => exact isSeparator_head rfl _

variable (bindings) in
theorem isContent_createSparqlNodePattern (q : NodePattern) :
    IsContent (q.createSparqlNodePattern bindings) := by
  cases q with
  | ofVariable name =>
    rw [createSparqlNodePattern]
    split
    · exact ⟨_, _, rfl, by decide⟩
    · exact ⟨_, _, rfl, by decide⟩
  | resource n =>
    cases n with
    | empty | resource | blank => exact ⟨_, _, rfl, by decide⟩
    | literal v hv =>
      rw [createSparqlNodePattern_literal]
      obtain ⟨w, hw⟩ := arg_cons (c := '"') (by decide)
        (v.toString ++ if v.language.isEmpty then "\"^^<%2>".toList else "\"@%2".toList) (suffix v)
      exact ⟨'"', w, hw, by decide⟩

theorem markersAbove_plainText {k : Nat} :
    MarkersAbove k (q.plainText bindings) ↔ ∀ s ∈ q.parts bindings, MarkersAbove k s := by
  have hEnd : MarkersAbove k ['>'] := markersAbove_of_notMem (by decide)
  cases q with
  | ofVariable name =>
    rw [plainText, createSparqlNodePattern, parts, List.forall_mem_singleton]
    · split
      · rw [markersAbove_cons_iff (by decide), markersAbove_append_iff rfl]
        exact and_iff_left hEnd
      · rw [markersAbove_cons_iff (by decide)]
    · intros; contradiction
  | resource n =>
    cases n with
    | empty =>
      have hText : (resource .empty).plainText bindings = ['_', ':'] := rfl
      rw [hText]
      exact iff_of_true (markersAbove_of_notMem (by decide)) (by intros; contradiction)
    | resource u h =>
      have hText : (resource (.resource u h)).plainText bindings = '<' :: (u.encoded ++ ['>']) := by
        rw [← QUrl.fromLatin1_toEncoded]
        rfl
      rw [hText, parts, List.forall_mem_singleton, markersAbove_cons_iff (by decide),
        markersAbove_append_iff rfl]
      exact and_iff_left hEnd
    | blank id h =>
      have hText : (resource (.blank id h)).plainText bindings = '_' :: ':' :: id := rfl
      rw [hText, parts, List.forall_mem_singleton, markersAbove_cons_iff (by decide),
        markersAbove_cons_iff (by decide)]
    | literal v h =>
      have hBehind : MarkersAbove k ('"' :: behind v) ↔ MarkersAbove k (suffix v) := by
        rw [markersAbove_cons_iff (by decide), behind]
        split
        · rw [markersAbove_cons_iff (by decide), markersAbove_cons_iff (by decide),
            markersAbove_cons_iff (by decide), markersAbove_append_iff rfl]
          exact and_iff_left hEnd
        · rw [markersAbove_cons_iff (by decide)]
      rw [plainText, parts, markersAbove_cons_iff (by decide), markersAbove_append_iff rfl, hBehind]
      simp

theorem unmarked_of_parts (h : ∀ s ∈ q.parts bindings, MarkersAbove 3 s) : q.Unmarked := by
  cases q with
  | ofVariable name => trivial
  | resource n =>
    cases n with
    | empty | resource | blank => trivial
    | literal v hv => exact (h v.toString (by simp [parts])).mono (by decide)

/-! ### The N3 form -/

omit [Qt] in
/-- A text up to a bracket is the IRI up to it, if it is not longer. -/
theorem eq_of_append_bracket {shown iri x y : QString} (hLength : shown.length ≤ iri.length)
    (hIri : '>' ∉ iri) (h : shown ++ '>' :: x = iri ++ '>' :: y) : shown = iri ∧ x = y := by
  rcases List.append_eq_append_iff.mp h with ⟨mid, rfl, hMid⟩ | ⟨mid, rfl, hMid⟩
  · cases mid with
    | nil => exact ⟨(List.append_nil shown).symm, (List.cons.inj hMid).2⟩
    | cons d mid =>
      obtain ⟨rfl, -⟩ := List.cons.inj hMid
      exact absurd (List.mem_append_right shown List.mem_cons_self) hIri
  · cases mid with
    | nil => exact ⟨List.append_nil iri, (List.cons.inj hMid).2.symm⟩
    | cons d mid =>
      rw [List.length_append, List.length_cons] at hLength
      omega

omit [Qt] in
/-- A text is not one with backslashes in front, as each backslash is escaped by another one. -/
theorem ne_backslashes {s x y : QString} {n : Nat} (hn : 0 < n) :
    s ++ '"' :: x ≠ List.replicate n '\\' ++ (Escape.escape escapeLetter s ++ '"' :: y) := by
  intro h
  obtain ⟨n, rfl⟩ : ∃ m, n = m + 1 := ⟨n - 1, by omega⟩
  induction s generalizing n with
  | nil => cases (List.cons.inj h).1
  | cons c s ih =>
    rw [List.replicate_succ] at h
    obtain ⟨rfl, hRest⟩ := List.cons.inj h
    have hUnit : Escape.unit escapeLetter '\\' = ['\\', '\\'] := rfl
    rw [Escape.escape_cons, hUnit] at hRest
    refine ih (n + 1) (by omega) (hRest.trans ?_)
    simp [List.replicate_succ']

omit [Qt] in
/-- An escaped text is the text itself only if nothing in it is escaped. -/
theorem eq_of_append_quote {s x y : QString}
    (h : s ++ '"' :: x = Escape.escape escapeLetter s ++ '"' :: y) :
    (∀ c ∈ s, escapeLetter c = none) ∧ x = y := by
  induction s with
  | nil => exact ⟨nofun, (List.cons.inj h).2⟩
  | cons c s ih =>
    rw [Escape.escape_cons, Escape.unit] at h
    cases hLetter : escapeLetter c with
    | none =>
      rw [hLetter] at h
      obtain ⟨hRest, hEq⟩ := ih (List.cons.inj h).2
      exact ⟨List.forall_mem_cons.mpr ⟨hLetter, hRest⟩, hEq⟩
    | some letter =>
      rw [hLetter] at h
      obtain ⟨rfl, hRest⟩ := List.cons.inj h
      obtain rfl : letter = '\\' := Option.some.inj (hLetter.symm.trans rfl)
      exact absurd hRest (ne_backslashes (n := 1) (by decide))

/-- What N3 writes behind the closing quote of a literal. -/
def n3Behind (v : LiteralValue) : QString :=
  if v.isPlain then (if v.language.isEmpty then [] else '@' :: v.language.toString)
  else '^' :: '^' :: '<' :: (v.dataTypeUri.encoded ++ ['>'])

theorem n3Text_literal (h : v.isValid = true) : (resource (.literal v h)).n3Text bindings =
    '"' :: (Escape.escape escapeLetter v.toString ++ '"' :: n3Behind v) := by
  rw [n3Text, Node.toN3, Node.literalToN3, n3Behind]
  cases v.isPlain with
  | true => cases v.language.isEmpty <;> rfl
  | false =>
    rw [← QUrl.fromLatin1_toEncoded]
    rfl

theorem language_isEmpty_of_isPlain (h : v.isPlain = false) : v.language.isEmpty = true := by
  cases v with
  | null | typed => rfl
  | plain => cases h

/-- The terms that are written as N3 does, whatever follows. -/
theorem legible_of_eq (hUrl : ∀ u : QUrl, (Qt.urlToString u).length ≤ u.encoded.length) {x y : QString}
    (hy : ∀ c ∈ y.head?, c = ' ') (h : q.plainText bindings ++ x = q.n3Text bindings ++ y) :
    q.Legible bindings ∧ x = y := by
  have hFirst {c : Char} {s : QString} (hc : c ≠ ' ') : c :: s ≠ y := by
    rintro rfl
    exact hc (hy c rfl)
  cases q with
  | ofVariable name =>
    rw [plainText, createSparqlNodePattern, n3Text] at h
    · rw [Legible]
      split at h
      · next hBound =>
        cases hNode : bindings.value name with
        | empty =>
          rw [hNode] at h
          exact absurd h (hFirst (by decide))
        | resource u hu =>
          rw [hNode, Node.toN3_resource] at h
          simp only [List.cons_append, List.append_assoc, List.nil_append, List.cons.injEq, true_and] at h
          obtain ⟨hShown, hRest⟩ := eq_of_append_bracket (hUrl u) (u.notMem (c := '>') rfl) h
          exact ⟨fun _ => ⟨u, hu, rfl, hShown⟩, hRest⟩
        | literal v hv =>
          rw [hNode] at h
          have : (resource (.literal v hv)).n3Text bindings = _ := n3Text_literal hv
          rw [n3Text] at this
          rw [this] at h
          cases (List.cons.inj h).1
        | blank id hId =>
          rw [hNode, Node.toN3_blank] at h
          cases (List.cons.inj h).1
      · next hUnbound =>
        exact ⟨fun hBound => absurd hBound hUnbound, List.append_cancel_left h⟩
    · intros; contradiction
  | resource n =>
    cases n with
    | empty => exact absurd h (hFirst (by decide))
    | resource u hu => exact ⟨trivial, List.append_cancel_left h⟩
    | blank id hId =>
      rw [n3Text, Node.toN3_blank] at h
      exact ⟨trivial, List.append_cancel_left h⟩
    | literal v hv =>
      rw [plainText, n3Text_literal] at h
      simp only [List.cons_append, List.append_assoc, List.cons.injEq, true_and] at h
      obtain ⟨hText, hBehind⟩ := eq_of_append_quote h
      rw [Legible, LegibleLiteral]
      rw [behind, n3Behind, suffix] at hBehind
      cases hPlain : v.isPlain with
      | true =>
        cases hLanguage : v.language.isEmpty with
        | true =>
          rw [hPlain, hLanguage] at hBehind
          exact absurd hBehind (hFirst (by decide))
        | false =>
          rw [hPlain, hLanguage] at hBehind
          exact ⟨⟨hText, rfl⟩, List.append_cancel_left hBehind⟩
      | false =>
        rw [hPlain, language_isEmpty_of_isPlain hPlain] at hBehind
        simp only [if_true, Bool.false_eq_true, if_false, List.cons_append, List.append_assoc, List.nil_append,
          List.cons.injEq, true_and] at hBehind
        obtain ⟨hShown, hRest⟩ :=
          eq_of_append_bracket (hUrl v.dataTypeUri) (v.dataTypeUri.notMem (c := '>') rfl) hBehind
        exact ⟨⟨hText, hShown⟩, hRest⟩

omit [Qt] in
theorem escape_eq_self {s : QString} (h : ∀ c ∈ s, escapeLetter c = none) :
    Escape.escape escapeLetter s = s := by
  induction s with
  | nil => rfl
  | cons c s ih =>
    obtain ⟨hc, hs⟩ := List.forall_mem_cons.mp h
    rw [Escape.escape_cons, Escape.unit, hc, ih hs]
    rfl

theorem plainText_eq_n3Text (h : q.Legible bindings) : q.plainText bindings = q.n3Text bindings := by
  cases q with
  | ofVariable name =>
    rw [plainText, createSparqlNodePattern, n3Text]
    · split
      · next hBound =>
        obtain ⟨u, hu, hNode, hShown⟩ := h hBound
        rw [hNode, Node.toN3_resource, ← hShown]
        rfl
      · rfl
    · intros; contradiction
  | resource n =>
    cases n with
    | empty => cases h
    | resource u hu => rfl
    | blank id hId =>
      rw [n3Text, Node.toN3_blank]
      rfl
    | literal v hv =>
      obtain ⟨hText, hBehind⟩ := h
      rw [plainText, n3Text_literal, escape_eq_self hText, behind, n3Behind, suffix]
      cases hPlain : v.isPlain with
      | true =>
        rw [hPlain, if_pos rfl] at hBehind
        rw [hBehind]
        rfl
      | false =>
        rw [hPlain] at hBehind
        rw [language_isEmpty_of_isPlain hPlain, hBehind]
        rfl

end NodePattern

/-! ### Statement patterns -/

namespace StatementPattern

/-- The text that the pattern means: its three terms with spaces between them. -/
def n3Text (p : StatementPattern) (bindings : BindingSet) : QString :=
  p.subjectPattern.n3Text bindings ++ ' ' :: (p.predicatePattern.n3Text bindings ++
    ' ' :: p.objectPattern.n3Text bindings)

/-- Each term is written as N3 does. -/
structure Legible (p : StatementPattern) (bindings : BindingSet) : Prop where
  subject : p.subjectPattern.Legible bindings
  predicate : p.predicatePattern.Legible bindings
  object : p.objectPattern.Legible bindings

/-- No text in the subject or the predicate has a marker up to `%3`, and the text of a literal object has
none up to `%2`. -/
structure Harmless (p : StatementPattern) (bindings : BindingSet) : Prop where
  subject : ∀ s ∈ p.subjectPattern.parts bindings, MarkersAbove 3 s
  predicate : ∀ s ∈ p.predicatePattern.parts bindings, MarkersAbove 3 s
  object : p.objectPattern.Unmarked

structure Ordinary (p : StatementPattern) : Prop where
  subject : p.subjectPattern.Ordinary
  predicate : p.predicatePattern.Ordinary
  object : p.objectPattern.Ordinary

variable {p : StatementPattern} {bindings : BindingSet}

theorem createSparqlGraphPattern_eq (h : p.Harmless bindings) :
    p.createSparqlGraphPattern bindings = p.subjectPattern.plainText bindings ++
      ' ' :: (p.predicatePattern.plainText bindings ++ ' ' :: p.objectPattern.plainText bindings) := by
  rw [createSparqlGraphPattern, NodePattern.createSparqlNodePattern_eq (NodePattern.unmarked_of_parts h.subject),
    NodePattern.createSparqlNodePattern_eq (NodePattern.unmarked_of_parts h.predicate),
    NodePattern.createSparqlNodePattern_eq h.object]
  exact QString.arg_three (NodePattern.markersAbove_plainText.mpr h.subject)
    (NodePattern.markersAbove_plainText.mpr h.predicate)

theorem legible_of_eq (hUrl : ∀ u : QUrl, (Qt.urlToString u).length ≤ u.encoded.length)
    (hHarmless : p.Harmless bindings) (h : p.createSparqlGraphPattern bindings = p.n3Text bindings) :
    p.Legible bindings := by
  have hSpace {r : QString} : ∀ c ∈ (' ' :: r).head?, c = ' ' := fun c hc => (Option.some.inj hc).symm
  rw [createSparqlGraphPattern_eq hHarmless, n3Text] at h
  obtain ⟨hSubject, hAfter⟩ := NodePattern.legible_of_eq hUrl hSpace h
  obtain ⟨hPredicate, hEnd⟩ := NodePattern.legible_of_eq hUrl hSpace (List.cons.inj hAfter).2
  have hObject := (List.cons.inj hEnd).2
  rw [← List.append_nil (p.objectPattern.plainText bindings),
    ← List.append_nil (p.objectPattern.n3Text bindings)] at hObject
  exact ⟨hSubject, hPredicate, (NodePattern.legible_of_eq hUrl (by nofun) hObject).1⟩

/-- Where a term has a marker that the template takes, the text first deviates from the one that is meant
at the place of a marker. -/
theorem deviates_of_not_harmless (hLegible : p.Legible bindings) (hOrdinary : p.Ordinary)
    (h : ¬ p.Harmless bindings) :
    Deviates (p.n3Text bindings) (p.createSparqlGraphPattern bindings) := by
  have hPredicateContent := p.predicatePattern.isContent_createSparqlNodePattern bindings
  have hObjectContent := p.objectPattern.isContent_createSparqlNodePattern bindings
  have hFirst (a : QString) : QString.arg "%1 %2 %3".toList a = a ++ ' ' :: "%2 %3".toList := rfl
  rw [n3Text, createSparqlGraphPattern, hFirst,
    ← NodePattern.plainText_eq_n3Text hLegible.subject, ← NodePattern.plainText_eq_n3Text hLegible.predicate,
    ← NodePattern.plainText_eq_n3Text hLegible.object]
  generalize hA : p.subjectPattern.plainText bindings = A
  generalize hB : p.predicatePattern.plainText bindings = B
  by_cases hSubject : p.subjectPattern.Unmarked
  case neg =>
    have := NodePattern.deviates_of_not_unmarked bindings hSubject hOrdinary.subject
    rw [hA] at this
    exact ((this.append _ _).arg hPredicateContent).arg hObjectContent
  rw [NodePattern.createSparqlNodePattern_eq hSubject, hA]
  by_cases hAbove : MarkersAbove 2 A
  case neg =>
    exact (deviates_marker (t := ' ' :: "%2 %3".toList) hPredicateContent hAbove (isSeparator_head rfl _) (by decide) _).arg
      hObjectContent
  have hSecond (b : QString) : QString.arg (A ++ ' ' :: "%2 %3".toList) b =
      A ++ ' ' :: (b ++ ' ' :: "%3".toList) := QString.arg_append hAbove rfl (n := 2) rfl (by decide)
  rw [hSecond]
  by_cases hPredicate : p.predicatePattern.Unmarked
  case neg =>
    have := NodePattern.deviates_of_not_unmarked bindings hPredicate hOrdinary.predicate
    rw [hB] at this
    exact (((this.append _ _).prepend [' ']).prepend A).arg hObjectContent
  rw [NodePattern.createSparqlNodePattern_eq hPredicate, hB]
  have hGroup (r : QString) : A ++ ' ' :: (B ++ r) = (A ++ ' ' :: B) ++ r := by simp
  rw [hGroup, hGroup]
  by_cases hBoth : MarkersAbove 3 (A ++ ' ' :: B)
  case neg => exact deviates_marker (t := ' ' :: "%3".toList) hObjectContent hBoth (isSeparator_head rfl _) (by decide) _
  have hThird (c : QString) : QString.arg ((A ++ ' ' :: B) ++ ' ' :: "%3".toList) c =
      (A ++ ' ' :: B) ++ ' ' :: (c ++ []) := QString.arg_append hBoth rfl (n := 3) rfl (by decide)
  rw [hThird, List.append_nil]
  rw [markersAbove_append_iff rfl, markersAbove_cons_iff (by decide), ← hA, ← hB] at hBoth
  have hObject : ¬ p.objectPattern.Unmarked := fun hObject =>
    h ⟨NodePattern.markersAbove_plainText.mp hBoth.1, NodePattern.markersAbove_plainText.mp hBoth.2, hObject⟩
  exact ((NodePattern.deviates_of_not_unmarked bindings hObject hOrdinary.object).prepend [' ']).prepend _

end StatementPattern

/-! ### Reading the text back -/

/-- A term and the space behind it; the terms of `readTerm` and the blank nodes. -/
def readPattern : Reader Char NodePattern := fun input =>
  if input.head? = some '_' then
    (do
      word ['_', ':']
      let id ← through ' '
      pure (NodePattern.resource (.ofIdentifier id))) input
  else Sparql.readTerm input

/-- A triple pattern and the dot behind it. -/
def readStatementPattern : Reader Char StatementPattern := do
  let subject ← readPattern
  let predicate ← readPattern
  let object ← readPattern
  word ['.', ' ']
  pure ⟨subject, predicate, object⟩

/-- The names, languages and identifiers are tokens, and the text of a typed literal stands for its value. -/
def NodePattern.Readable : NodePattern → Prop
  | ofVariable name => Sparql.isName name = true
  | resource (.blank id _) => ' ' ∉ id
  | resource (.literal (.plain _ l) _) => Sparql.isLang l.toString = true
  | resource (.literal (.typed v u h) _) => LiteralValue.fromString (LiteralValue.text v) u = .typed v u h
  | _ => True

def StatementPattern.substitute (p : StatementPattern) (bindings : BindingSet) : StatementPattern :=
  ⟨p.subjectPattern.substitute bindings, p.predicatePattern.substitute bindings,
    p.objectPattern.substitute bindings⟩

structure StatementPattern.Readable (p : StatementPattern) : Prop where
  subject : p.subjectPattern.Readable
  predicate : p.predicatePattern.Readable
  object : p.objectPattern.Readable

variable {bindings : BindingSet}

omit [Qt] in
theorem isPlainText_of_escapeLetter {s : QString} (h : ∀ c ∈ s, escapeLetter c = none) :
    Sparql.isPlainText s = true := by
  refine List.all_eq_true.mpr fun c hc => ?_
  have hNone := h c hc
  by_contra hNot
  simp only [Bool.not_eq_true', Bool.not_eq_false, List.contains_iff_mem, List.mem_cons,
    List.not_mem_nil, or_false] at hNot
  rcases hNot with rfl | rfl | rfl | rfl <;> cases hNone

theorem reads_term_pattern {c : Char} {s : QString} {q : NodePattern} (hc : c ≠ '_')
    (h : Reads Sparql.readTerm (c :: s) q) : Reads readPattern (c :: s) q := fun after => by
  have hHead : ¬ ((c :: s) ++ after).head? = some '_' := fun hEq => hc (Option.some.inj hEq)
  exact (if_neg hHead).trans (h after)

theorem reads_blank {id : QString} (hId : id.isEmpty = false) (h : ' ' ∉ id) :
    Reads readPattern ('_' :: ':' :: (id ++ [' '])) (.resource (.blank id hId)) := fun after => by
  have hRead := (Reads.word ['_', ':']).bind
    (f := fun _ => through ' ' >>= fun id => pure (NodePattern.resource (.ofIdentifier id)))
    (Reads.through h).bind_pure
  rw [Node.ofIdentifier_self id hId] at hRead
  exact (if_pos rfl).trans (hRead after)

theorem reads_resource_pattern {u : QUrl} (hu : u.isEmpty = false) :
    Reads readPattern ('<' :: (u.encoded ++ ['>', ' '])) (.resource (.resource u hu)) :=
  reads_term_pattern (by decide) (Sparql.reads_resource hu)

theorem reads_n3Text {q : NodePattern} (hLegible : q.Legible bindings)
    (hReadable : (q.substitute bindings).Readable) :
    Reads readPattern (q.n3Text bindings ++ [' ']) (q.substitute bindings) := by
  cases q with
  | ofVariable name =>
    rw [NodePattern.n3Text, NodePattern.substitute] at *
    split
    · next hBound =>
      obtain ⟨u, hu, hNode, -⟩ := hLegible hBound
      rw [hNode, Node.toN3_resource, List.cons_append, List.append_assoc]
      exact reads_resource_pattern hu
    · next hUnbound =>
      rw [if_neg hUnbound] at hReadable
      exact reads_term_pattern (by decide) (Sparql.reads_variable hReadable)
  | resource n =>
    cases n with
    | empty => cases hLegible
    | resource u hu =>
      rw [NodePattern.n3Text, Node.toN3_resource, List.cons_append, List.append_assoc]
      exact reads_resource_pattern hu
    | blank id hId =>
      rw [NodePattern.n3Text, Node.toN3_blank]
      exact reads_blank hId hReadable
    | literal v hv =>
      obtain ⟨hText, hBehind⟩ := hLegible
      rw [NodePattern.n3Text_literal, NodePattern.escape_eq_self hText]
      cases v with
      | null => cases hv
      | plain s l =>
        rw [LiteralValue.isPlain, if_pos rfl] at hBehind
        have hLanguage : l.isEmpty = false := hBehind
        have hRead := Sparql.reads_lang (s := s) (isPlainText_of_escapeLetter hText) hReadable
        rw [Node.ofLiteral_self _ hv] at hRead
        have hN3 : NodePattern.n3Behind (.plain s l) = '@' :: l.toString := by
          rw [NodePattern.n3Behind, LiteralValue.isPlain, if_pos rfl, LiteralValue.language, hLanguage]
          rfl
        rw [hN3]
        simp only [List.cons_append, List.append_assoc]
        exact reads_term_pattern (by decide) hRead
      | typed value u hStored =>
        have hRead := Sparql.reads_type (u := u) (isPlainText_of_escapeLetter hText)
        have hBack : LiteralValue.fromString (LiteralValue.typed value u hStored).toString u =
            .typed value u hStored := hReadable
        rw [hBack, Node.ofLiteral_self _ hv] at hRead
        have hN3 : NodePattern.n3Behind (.typed value u hStored) =
            '^' :: '^' :: '<' :: (u.encoded ++ ['>']) := rfl
        rw [hN3]
        simp only [List.cons_append, List.append_assoc, List.nil_append]
        exact reads_term_pattern (by decide) hRead

theorem reads_statementPattern {p : StatementPattern} (hLegible : p.Legible bindings)
    (hReadable : (p.substitute bindings).Readable) :
    Reads readStatementPattern (p.n3Text bindings ++ [' ', '.', ' ']) (p.substitute bindings) := by
  have hText : p.n3Text bindings ++ [' ', '.', ' '] =
      (p.subjectPattern.n3Text bindings ++ [' ']) ++ ((p.predicatePattern.n3Text bindings ++ [' ']) ++
        ((p.objectPattern.n3Text bindings ++ [' ']) ++ ['.', ' '])) := by
    simp [StatementPattern.n3Text]
  rw [hText]
  exact (reads_n3Text hLegible.subject hReadable.subject).bind
    ((reads_n3Text hLegible.predicate hReadable.predicate).bind
      ((reads_n3Text hLegible.object hReadable.object).bind (Reads.word ['.', ' ']).bind_pure))

end Qt

section Example

local instance graphPatternQt : Qt := asciiQt

theorem legal_escaped : "urn:a%2Fb".toList.all isUrlChar = true := by decide

theorem legal_predicate : "urn:p".toList.all isUrlChar = true := by decide

theorem legal_bound : "urn:b".toList.all isUrlChar = true := by decide

/-- The percent escape `%2F` of the subject is taken for the marker of the predicate. -/
def escaped : StatementPattern :=
  ⟨.resource (.ofUri (.ofString "urn:a%2Fb" legal_escaped)), .resource (.ofUri (.ofString "urn:p" legal_predicate)),
    .ofVariable ['x']⟩

example : escaped.createSparqlGraphPattern .empty = "<urn:a<urn:p>Fb> <urn:p> ?x".toList := by decide

/-- The text and the language of this literal are `\%2`. -/
def cancelling : StatementPattern :=
  ⟨.ofVariable ['x'], .ofVariable ['y'],
    .resource (.ofLiteral (.createPlainLiteral ['\\', '%', '2'] (.ofString ['\\', '%', '2'])))⟩

/-- A missing escape and a marker that is taken can make up for each other. -/
example : cancelling.createSparqlGraphPattern .empty = cancelling.n3Text .empty := by decide

def plain : StatementPattern :=
  ⟨.ofVariable ['x'], .resource (.ofUri (.ofString "urn:p" legal_predicate)), .ofVariable ['y']⟩

def bound : BindingSet := BindingSet.empty.insert ['y'] (.ofUri (.ofString "urn:b" legal_bound))

end Example

end Inference

end Soprano
