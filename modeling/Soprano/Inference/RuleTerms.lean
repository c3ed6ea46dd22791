import Soprano.DBusError
import Soprano.Inference.RuleParser

/-! The terms of the rule language as the comments of the node pattern list them, and which of them the parser reads
as what they say. -/

namespace Soprano

namespace Inference

open Regex

/-! ### Searching for a text -/

section Search

variable {c : Char} {w s : QString}

/-- A text that occurs nowhere. -/
theorem indexOfText_eq_neg (h : ∀ u v, s = u ++ c :: v → ¬w <+: v) : indexOfText (c :: w) s = -1 := by
  induction s with
  | nil => rfl
  | cons d s ih =>
    have hHere : (c :: w).isPrefixOf (d :: s) = false := by
      rw [← Bool.not_eq_true, List.isPrefixOf_iff_prefix, List.cons_prefix_cons]
      rintro ⟨rfl, hPrefix⟩
      exact h [] s rfl hPrefix
    have hRest := ih fun u v hSplit => h (d :: u) v (by rw [hSplit]; rfl)
    rw [indexOfText, hHere]
    simp [hRest]

/-- A text that occurs at the start only, if at all. -/
theorem indexOfText_le {d : Char} (h : ∀ u v, s = u ++ c :: v → ¬w <+: v) : indexOfText (c :: w) (d :: s) ≤ 0 := by
  rw [indexOfText, indexOfText_eq_neg h]
  simp only
  split <;> simp

/-- A text that occurs behind another one, and not before. -/
theorem indexOfText_append {before : QString} (h : c ∉ before) (z : QString) :
    indexOfText (c :: w) (before ++ c :: (w ++ z)) = before.length := by
  induction before with
  | nil =>
    have hHere : (c :: w).isPrefixOf (c :: (w ++ z)) = true :=
      List.isPrefixOf_iff_prefix.mpr ⟨z, rfl⟩
    rw [List.nil_append, indexOfText, hHere]
    rfl
  | cons d before ih =>
    have hNe : c ≠ d := fun hEq => h (by simp [hEq])
    have hHere : (c :: w).isPrefixOf (d :: (before ++ c :: (w ++ z))) = false := by
      rw [← Bool.not_eq_true, List.isPrefixOf_iff_prefix, List.cons_prefix_cons]
      exact fun hPrefix => hNe hPrefix.1
    have hRest := ih fun hMem => h (List.mem_cons_of_mem d hMem)
    rw [List.cons_append, indexOfText, hHere, hRest, List.length_cons]
    simp only [Bool.false_eq_true, if_false]
    rw [if_neg (by omega)]
    omega

/-- A text at the start. -/
theorem indexOfText_at_start (h : w <+: s) : indexOfText (c :: w) (c :: s) = 0 := by
  have hHere : (c :: w).isPrefixOf (c :: s) = true := by
    rw [List.isPrefixOf_iff_prefix, List.cons_prefix_cons]
    exact ⟨rfl, h⟩
  rw [indexOfText, hHere]
  rfl

/-- It is not found at the start of a text that goes on otherwise. -/
theorem indexOfText_cons (h : ¬w <+: s) (hRest : 0 ≤ indexOfText (c :: w) s) :
    indexOfText (c :: w) (c :: s) = indexOfText (c :: w) s + 1 := by
  have hHere : (c :: w).isPrefixOf (c :: s) = false := by
    rw [← Bool.not_eq_true, List.isPrefixOf_iff_prefix, List.cons_prefix_cons]
    exact fun hPrefix => h hPrefix.2
  rw [indexOfText, hHere]
  simp only [Bool.false_eq_true, if_false]
  rw [if_neg (by omega)]

theorem midAt_of_eq (before t after : QString) {position count : Int} (h : s = before ++ (t ++ after))
    (hPosition : position = before.length) (hCount : count = t.length) : s.midAt position count = t := by
  rw [h, hPosition, hCount]
  exact QString.midAt_append before t after

/-! ### What is no number -/

theorem mem_dropWhile {p : Char → Bool} (h : c ∈ s) (hc : p c = false) : c ∈ s.dropWhile p := by
  induction s with
  | nil => cases h
  | cons d s ih =>
    rw [List.dropWhile_cons]
    split
    · rename_i hd
      rcases List.mem_cons.mp h with rfl | h
      · rw [hc] at hd
        cases hd
      · exact ih h
    · exact h

theorem mem_trimmed (h : c ∈ s) (hc : isSpace c = false) : c ∈ QString.trimmed s := by
  rw [QString.trimmed, List.mem_reverse]
  exact mem_dropWhile (List.mem_reverse.mpr (mem_dropWhile h hc)) hc

theorem digitsValue_eq_none (h : c ∈ s) (hc : c.isDigit = false) : QString.digitsValue s = none := by
  rw [QString.digitsValue, if_neg]
  rintro ⟨-, hAll⟩
  have hDigit := List.all_eq_true.mp hAll c h
  rw [hc] at hDigit
  cases hDigit

/-- A text with a character that no number has. -/
theorem toInt_eq_none (h : c ∈ s) (hSpace : isSpace c = false) (hDigit : c.isDigit = false)
    (hSign : c ≠ '-' ∧ c ≠ '+') : QString.toInt s = none := by
  have hMem := mem_trimmed h hSpace
  have hNone : QString.toIntegral s = none := by
    unfold QString.toIntegral
    split
    · rename_i digits hTrimmed
      rw [hTrimmed] at hMem
      rw [digitsValue_eq_none ((List.mem_cons.mp hMem).resolve_left hSign.1) hDigit]
      rfl
    · rename_i digits hTrimmed
      rw [hTrimmed] at hMem
      rw [digitsValue_eq_none ((List.mem_cons.mp hMem).resolve_left hSign.2) hDigit]
      rfl
    · rw [digitsValue_eq_none hMem hDigit]
      rfl
  rw [QString.toInt, hNone]
  rfl

end Search

section Qt

variable [Qt]

/-! ### Terms -/

namespace Term

/-- What a term stands for: a prefixed name needs its prefix, and an integer has to fit. -/
def meaning (prefixes : List (QString × QUrl)) : Term → Option NodePattern
  | ofVariable name _ => some (.ofVariable name)
  | resource u _ => some (.resource (.ofUri (Qt.urlOfString u)))
  | blankNode name _ => some (.resource (.ofIdentifier name))
  | prefixed qname name _ _ =>
    (prefixes.lookup qname).map fun uri => .resource (.ofUri (Qt.urlOfString (Qt.urlToString uri ++ name)))
  | literal _ _ text .plain _ _ _ => some (.resource (.ofLiteral (.createPlainLiteral text (.ofString []))))
  | literal _ _ text (.lang tag _) _ _ _ =>
    some (.resource (.ofLiteral (.createPlainLiteral text (.ofString tag))))
  | literal _ _ text (.typed u _) _ _ _ => some (.resource (.ofLiteral (.fromString text (Qt.urlOfString u))))
  | integer digits _ => digits.toInt.map fun val => .resource (.ofLiteral (.ofVariant (.int val)))

/-- The terms that are read as what they stand for. -/
def Faithful (prefixes : List (QString × QUrl)) : Term → Prop
  | ofVariable _ _ | resource _ _ => True
  | blankNode _ _ => False
  | prefixed qname _ _ _ => qname ≠ ['_'] ∧ (prefixes.lookup qname).isSome = true
  | literal _ _ _ .plain _ _ _ => True
  | literal _ _ _ (.lang _ _) _ _ _ => False
  | literal q q' text (.typed _ _) _ _ _ => q' = q ∧ ¬['^', '^', '<'] <+: text
  | integer digits _ => digits.toInt.isSome = true

/-! ### Reading -/

section Quoted

variable {prefixes : List (QString × QUrl)} {q q' : Char} {text : QString}

/-- Quotes start no other kind of term. -/
theorem parse_quoted (hOpen : isQuote q = true) (s rest : QString) (h : s = q :: rest) :
    parseNodePattern prefixes s =
      let pos := indexOfText (q :: ['^', '^', '<']) s
      if 0 < pos then
        (.resource (.ofLiteral (.fromString (s.midAt 1 (pos - 1))
          (Qt.urlOfString (s.midAt (pos + 4) (s.length - pos - 5))))), some true)
      else
        let pos := indexOfText (q :: ['@']) s
        let lang := if 0 < pos then s.midAt (pos + 2) (s.length - pos - 3) else []
        let len : Int := if 0 < pos then s.length - 2 - (lang.length - 1) else s.length - 2
        (.resource (.ofLiteral (.createPlainLiteral (s.midAt 1 len) (.ofString lang))), some true) := by
  have hEither : q = '\x27' ∨ q = '"' := by simpa [isQuote] using hOpen
  subst h
  rcases hEither with rfl | rfl <;> rfl

omit [Qt] in
/-- Nothing is found in a text without the quotes and a sign behind them. -/
theorem indexOfText_quoted {w rest : QString} (hOpen : isQuote q = true) (hText : IsLiteralText text)
    (hClose : q' = q → ¬w <+: rest) (hRest : ∀ u v, rest = u ++ q :: v → ¬w <+: v) :
    indexOfText (q :: w) (q :: (text ++ q' :: rest)) ≤ 0 := by
  refine indexOfText_le fun u v hSplit hPrefix => ?_
  rcases List.append_eq_append_iff.mp hSplit with ⟨u', -, hBehind⟩ | ⟨u', rfl, hBehind⟩
  · cases u' with
    | nil =>
      obtain ⟨rfl, rfl⟩ := List.cons.inj hBehind
      exact hClose rfl hPrefix
    | cons c u' => exact hRest u' v (List.cons.inj hBehind).2 hPrefix
  · cases u' with
    | nil =>
      obtain ⟨rfl, rfl⟩ := List.cons.inj hBehind
      exact hClose rfl hPrefix
    | cons c u' =>
      obtain ⟨rfl, -⟩ := List.cons.inj hBehind
      have hQuote := hText.2 q (by simp)
      rw [hOpen] at hQuote
      cases hQuote

omit [Qt] in
/-- A text does not start with a sign if it does not with the closing quotes behind it. -/
theorem not_prefix_append {w rest : QString} (hQuote : q ∉ w) (h : ¬w <+: text) : ¬w <+: text ++ q :: rest := by
  intro hPrefix
  rcases List.prefix_or_prefix_of_prefix hPrefix (List.prefix_append text (q :: rest)) with hShort | ⟨behind, rfl⟩
  · exact h hShort
  · cases behind with
    | nil => exact h (by simp)
    | cons c behind =>
      rw [List.prefix_append_right_inj, List.cons_prefix_cons] at hPrefix
      exact hQuote (by simp [hPrefix.1])

omit [Qt] in
/-- What stands behind the closing quotes is found there. -/
theorem indexOfText_closing {w rest : QString} (hOpen : isQuote q = true) (hText : IsLiteralText text)
    (hQuote : q ∉ w) (h : ¬w <+: text) : indexOfText (q :: w) (q :: (text ++ q :: (w ++ rest))) = text.length + 1 := by
  have hNot : q ∉ text := fun hMem => by
    have hFalse := hText.2 q hMem
    rw [hOpen] at hFalse
    cases hFalse
  have hFound := indexOfText_append (w := w) hNot rest
  rw [indexOfText_cons (not_prefix_append hQuote h) (by rw [hFound]; omega), hFound]

omit [Qt] in
theorem not_quote_of_mem {s : QString} (h : ∀ c ∈ s, isQuote c = false) (hOpen : isQuote q = true) : q ∉ s := by
  intro hMem
  rw [h q hMem] at hOpen
  cases hOpen

/-- A plain literal. -/
theorem parse_plain (hOpen : isQuote q = true) (hText : IsLiteralText text) :
    parseNodePattern prefixes (q :: (text ++ [q'])) =
      (.resource (.ofLiteral (.createPlainLiteral text (.ofString []))), some true) := by
  have hNone : ∀ w : QString, w ≠ [] → indexOfText (q :: w) (q :: (text ++ [q'])) ≤ 0 := fun w hSome =>
    indexOfText_quoted hOpen hText (fun _ hPrefix => hSome (List.prefix_nil.mp hPrefix)) fun u v hSplit => by
      cases u <;> cases hSplit
  have hTyped := hNone ['^', '^', '<'] (List.cons_ne_nil _ _)
  have hLang := hNone ['@'] (List.cons_ne_nil _ _)
  have hMid : QString.midAt (q :: (text ++ [q'])) 1 (((q :: (text ++ [q'])).length : Int) - 2) = text :=
    midAt_of_eq [q] text [q'] rfl rfl (by simp; omega)
  rw [parse_quoted hOpen _ _ rfl]
  simp only [if_neg (not_lt.mpr hTyped), if_neg (not_lt.mpr hLang), hMid]

/-- A typed literal, if the signs of its type stand behind the first quotes. -/
theorem parse_typed (hOpen : isQuote q = true) (hText : IsLiteralText text) (h : ¬['^', '^', '<'] <+: text)
    (u : QString) : parseNodePattern prefixes (q :: (text ++ q :: '^' :: '^' :: '<' :: (u ++ ['>']))) =
      (.resource (.ofLiteral (.fromString text (Qt.urlOfString u))), some true) := by
  have hQuote : q ∉ ['^', '^', '<'] := not_quote_of_mem (by simp [isQuote]) hOpen
  have hFound : indexOfText (q :: ['^', '^', '<']) (q :: (text ++ q :: '^' :: '^' :: '<' :: (u ++ ['>']))) =
      text.length + 1 := indexOfText_closing hOpen hText hQuote h
  have hValue : QString.midAt (q :: (text ++ q :: '^' :: '^' :: '<' :: (u ++ ['>']))) 1 (text.length + 1 - 1) = text :=
    midAt_of_eq [q] text (q :: '^' :: '^' :: '<' :: (u ++ ['>'])) rfl rfl (by omega)
  have hType : QString.midAt (q :: (text ++ q :: '^' :: '^' :: '<' :: (u ++ ['>']))) (text.length + 1 + 4)
      ((q :: (text ++ q :: '^' :: '^' :: '<' :: (u ++ ['>']))).length - (text.length + 1) - 5) = u :=
    midAt_of_eq (q :: (text ++ [q, '^', '^', '<'])) u ['>'] (by simp) (by simp; omega) (by simp; omega)
  rw [parse_quoted hOpen _ _ rfl, hFound]
  simp only [if_pos (show (0 : Int) < text.length + 1 by omega), hValue, hType]

/-- Without the signs of a type behind the first quotes, a literal is read as a plain one. -/
theorem exists_parse_plain (hOpen : isQuote q = true) {rest : QString}
    (h : indexOfText (q :: ['^', '^', '<']) (q :: rest) ≤ 0) : ∃ value lang,
      parseNodePattern prefixes (q :: rest) =
        (.resource (.ofLiteral (.createPlainLiteral value (.ofString lang))), some true) := by
  rw [parse_quoted hOpen _ _ rfl]
  simp only [if_neg (not_lt.mpr h)]
  exact ⟨_, _, rfl⟩

variable (prefixes) in
/-- A typed literal with other closing quotes, or whose text starts with the signs of a type. -/
theorem parse_mistyped (hOpen : isQuote q = true) (hText : IsLiteralText text) {u : QString} (hUri : IsUriText u)
    (h : q' = q → ['^', '^', '<'] <+: text) : ∃ value lang,
      parseNodePattern prefixes (q :: (text ++ q' :: '^' :: '^' :: '<' :: (u ++ ['>']))) =
        (.resource (.ofLiteral (.createPlainLiteral value (.ofString lang))), some true) := by
  refine exists_parse_plain hOpen ?_
  by_cases hSame : q' = q
  · rw [indexOfText_at_start ((h hSame).trans (List.prefix_append _ _))]
  · refine indexOfText_quoted hOpen hText (fun hEq => absurd hEq hSame) fun before v hSplit hPrefix => ?_
    -- the quotes stand in the URI, behind which no type starts
    have hSign : q ∉ ['^', '^', '<'] := not_quote_of_mem (by simp [isQuote]) hOpen
    have hOpening : '<' ∈ v := hPrefix.subset (by simp)
    have hBehind : '<' ∈ u ++ ['>'] := by
      rcases before with _ | ⟨a, _ | ⟨b, _ | ⟨d, before⟩⟩⟩
      · exact absurd (by simp [← (List.cons.inj hSplit).1]) hSign
      · exact absurd (by simp [← (List.cons.inj (List.cons.inj hSplit).2).1]) hSign
      · exact absurd (by simp [← (List.cons.inj (List.cons.inj (List.cons.inj hSplit).2).2).1]) hSign
      · rw [(List.cons.inj (List.cons.inj (List.cons.inj hSplit).2).2).2]
        simp [hOpening]
    rcases List.mem_append.mp hBehind with hMem | hMem
    · cases hUri.2 _ hMem
    · cases List.mem_singleton.mp hMem

variable (prefixes q') in
/-- A literal with a language keeps more than its text. -/
theorem parse_language (hWords : Words) (hOpen : isQuote q = true) (hText : IsLiteralText text) {tag : QString}
    (hTag : IsName tag) : ∃ value lang, parseNodePattern prefixes (q :: (text ++ q' :: '@' :: tag)) =
      (.resource (.ofLiteral (.createPlainLiteral value (.ofString lang))), some true) ∧ text.length < value.length := by
  obtain ⟨begun, c, rfl⟩ : ∃ begun c, tag = begun ++ [c] :=
    ⟨tag.dropLast, tag.getLast hTag.1, (List.dropLast_append_getLast hTag.1).symm⟩
  have hQuotes : ∀ d ∈ '@' :: (begun ++ [c]), isQuote d = false := by
    intro d hd
    rcases List.mem_cons.mp hd with rfl | hd
    · rfl
    · rw [← Bool.not_eq_true]
      intro hQuote
      have hEither : d = '\x27' ∨ d = '"' := by simpa [isQuote] using hQuote
      refine (hWords d (hTag.2 d hd)).2.2 ?_
      rcases hEither with rfl | rfl <;> decide
  have hBehind : ∀ {w : QString} (u v), '@' :: (begun ++ [c]) = u ++ q :: v → ¬w <+: v := fun u v hSplit _ =>
    not_quote_of_mem hQuotes hOpen (by rw [hSplit]; simp)
  have hTyped : indexOfText (q :: ['^', '^', '<']) (q :: (text ++ q' :: '@' :: (begun ++ [c]))) ≤ 0 :=
    indexOfText_quoted hOpen hText (fun _ hPrefix => by cases (List.cons_prefix_cons.mp hPrefix).1) hBehind
  rw [parse_quoted hOpen _ _ rfl]
  simp only [if_neg (not_lt.mpr hTyped)]
  by_cases hLang : indexOfText (q :: ['@']) (q :: (text ++ q' :: '@' :: (begun ++ [c]))) ≤ 0
  · have hMid : QString.midAt (q :: (text ++ q' :: '@' :: (begun ++ [c]))) 1
        (((q :: (text ++ q' :: '@' :: (begun ++ [c]))).length : Int) - 2) = text ++ q' :: '@' :: begun :=
      midAt_of_eq [q] _ [c] (by simp) rfl (by simp; omega)
    simp only [if_neg (not_lt.mpr hLang), hMid]
    exact ⟨_, _, rfl, by simp⟩
  · have hSame : q' = q := by
      by_contra hNe
      exact hLang (indexOfText_quoted hOpen hText (fun hEq => absurd hEq hNe) hBehind)
    subst hSame
    have hStart : ¬['@'] <+: text := fun hPrefix => hLang (by
      rw [indexOfText_at_start (hPrefix.trans (List.prefix_append _ _))])
    have hFound : indexOfText (q' :: ['@']) (q' :: (text ++ q' :: '@' :: (begun ++ [c]))) = text.length + 1 :=
      indexOfText_closing hOpen hText (not_quote_of_mem (by simp [isQuote]) hOpen) hStart
    have hTagText : QString.midAt (q' :: (text ++ q' :: '@' :: (begun ++ [c]))) (text.length + 1 + 2)
        ((q' :: (text ++ q' :: '@' :: (begun ++ [c]))).length - (text.length + 1) - 3) = begun :=
      midAt_of_eq (q' :: (text ++ [q', '@'])) begun [c] (by simp) (by simp; omega) (by simp; omega)
    obtain ⟨d, more, hCons⟩ := List.exists_cons_of_ne_nil (List.append_ne_nil_of_right_ne_nil begun (List.cons_ne_nil c []))
    have hMid : QString.midAt (q' :: (text ++ q' :: '@' :: (begun ++ [c]))) 1
        ((q' :: (text ++ q' :: '@' :: (begun ++ [c]))).length - 2 - ((begun.length : Int) - 1)) =
          text ++ [q', '@', d] :=
      midAt_of_eq [q'] _ more (by simp [hCons]) rfl (by simp; omega)
    simp only [hFound, if_pos (show (0 : Int) < text.length + 1 by omega), hTagText, hMid]
    exact ⟨_, _, rfl, by simp⟩

end Quoted

/-! ### Names and numbers -/

section Bare

variable {prefixes : List (QString × QUrl)} {c : Char} {s rest : QString}

/-- What starts with no sign is a number, or a prefixed name. -/
theorem parse_bare (hText : s = c :: rest) (hSign : c ≠ '?' ∧ c ≠ '<' ∧ isQuote c = false)
    (hBlank : ¬(c = '_' ∧ 2 < s.length ∧ s[1]? = some ':')) :
    parseNodePattern prefixes s =
      match s.toInt with
      | some val => (.resource (.ofLiteral (.ofVariant (.int val))), some true)
      | none =>
        let pos := s.indexOfAt ':' 0
        let name := if pos < 0 then s else s.take pos.toNat
        match prefixes.lookup name with
        | none => (.invalid, some false)
        | some uri =>
          (.resource (.ofUri (Qt.urlOfString (Qt.urlToString uri ++ s.drop (pos + 1).toNat))), some true) := by
  subst hText
  rw [parseNodePattern]
  simp only [List.headD_cons, if_neg hSign.1, if_neg hSign.2.1, if_neg hBlank, hSign.2.2, Bool.false_eq_true, if_false]
  all_goals rfl

omit [Qt] in
theorem isQuote_iff : isQuote c = true ↔ c = '\x27' ∨ c = '"' := by
  simp [isQuote]

/-- The first character of a name is no sign. -/
theorem sign_of_word (hWords : Words) (h : Qt.isWordChar c = true) : c ≠ '?' ∧ c ≠ '<' ∧ isQuote c = false := by
  have hSign := (hWords c h).2.2
  refine ⟨?_, ?_, ?_⟩
  · rintro rfl
    exact hSign (by decide)
  · rintro rfl
    exact hSign (by decide)
  · rw [← Bool.not_eq_true, isQuote_iff]
    rintro (rfl | rfl) <;> exact hSign (by decide)

omit [Qt] in
theorem sign_of_digit (h : c.isDigit = true) : c ≠ '?' ∧ c ≠ '<' ∧ c ≠ '_' ∧ isQuote c = false := by
  refine ⟨?_, ?_, ?_, ?_⟩
  · rintro rfl
    cases h
  · rintro rfl
    cases h
  · rintro rfl
    cases h
  · rw [← Bool.not_eq_true, isQuote_iff]
    rintro (rfl | rfl) <;> cases h

/-- The colon of a prefixed name. -/
theorem colon_of_prefixed (hWords : Words) {qname : QString} (h : IsName qname) (name : QString) :
    (qname ++ ':' :: name).indexOfAt ':' 0 = qname.length := by
  have hNot : ':' ∉ qname := fun hMem => (hWords _ (h.2 _ hMem)).2.1 rfl
  have hFound := QString.indexOfAt_append [] hNot name
  simpa using hFound

variable (prefixes) in
theorem parse_blankNode (hWords : Words) {name : QString} (h : IsName name) :
    parseNodePattern prefixes ('_' :: name) = (.invalid, some false) ∨
      ∃ uri, parseNodePattern prefixes ('_' :: name) = (.resource (.ofUri uri), some true) := by
  have hColon : ¬('_' = '_' ∧ 2 < ('_' :: name).length ∧ ('_' :: name)[1]? = some ':') := by
    rintro ⟨-, -, hAt⟩
    exact (hWords ':' (h.2 ':' (List.mem_of_getElem? (by simpa using hAt)))).2.1 rfl
  have hInt : QString.toInt ('_' :: name) = none := toInt_eq_none (c := '_') (by simp) rfl rfl (by decide)
  rw [parse_bare rfl (by decide) hColon, hInt]
  simp only
  split
  · exact .inl rfl
  · exact .inr ⟨_, rfl⟩

/-- A prefixed name; one of the prefix `_` is a blank node, for which the flag is not set. -/
theorem parse_prefixed (hWords : Words) {qname name : QString} (h : IsName qname) (h' : IsName name) :
    parseNodePattern prefixes (qname ++ ':' :: name) =
      if qname = ['_'] then (.resource (.ofIdentifier name), none)
      else
        match prefixes.lookup qname with
        | none => (.invalid, some false)
        | some uri => (.resource (.ofUri (Qt.urlOfString (Qt.urlToString uri ++ name))), some true) := by
  split
  · rename_i hBlank
    subst hBlank
    have hLength := List.length_pos_of_ne_nil h'.1
    have hLong : 2 < name.length + 1 + 1 := by omega
    simp [parseNodePattern, hLong]
  · rename_i hOther
    obtain ⟨c, rest, rfl⟩ := List.exists_cons_of_ne_nil h.1
    have hBlank : ¬(c = '_' ∧ 2 < (c :: rest ++ ':' :: name).length ∧ (c :: rest ++ ':' :: name)[1]? = some ':') := by
      rintro ⟨rfl, -, hAt⟩
      cases rest with
      | nil => exact hOther rfl
      | cons d rest =>
        cases hAt
        exact (hWords ':' (h.2 ':' (by simp))).2.1 rfl
    have hInt : QString.toInt (c :: rest ++ ':' :: name) = none :=
      toInt_eq_none (c := ':') (by simp) rfl rfl (by decide)
    have hColon := colon_of_prefixed hWords h name
    rw [parse_bare (s := c :: rest ++ ':' :: name) rfl (sign_of_word hWords (h.2 c List.mem_cons_self)) hBlank, hInt]
    simp only [hColon]
    have hName : (if ((c :: rest).length : Int) < 0 then c :: rest ++ ':' :: name
        else (c :: rest ++ ':' :: name).take ((c :: rest).length : Int).toNat) = c :: rest := by
      rw [if_neg (by omega), Int.toNat_natCast, List.take_left]
    have hRest : (c :: rest ++ ':' :: name).drop (((c :: rest).length : Int) + 1).toNat = name := by
      rw [show (((c :: rest).length : Int) + 1).toNat = (c :: rest).length + 1 by omega, ← List.drop_drop,
        List.drop_left]
      rfl
    rw [hName, hRest]

/-- A number that fits. -/
theorem parse_integer (h : QString.Digits s) {val : Int32} (hInt : s.toInt = some val) :
    parseNodePattern prefixes s = (.resource (.ofLiteral (.ofVariant (.int val))), some true) := by
  obtain ⟨c, rest, rfl⟩ := List.exists_cons_of_ne_nil h.1
  obtain ⟨hVariable, hUri, hBlank, hQuote⟩ := sign_of_digit (h.2 c List.mem_cons_self)
  rw [parse_bare rfl ⟨hVariable, hUri, hQuote⟩ fun hTrue => hBlank hTrue.1, hInt]

end Bare

/-! ### What is read as it is meant -/

theorem fromString_ne_plain (value text : QString) (type : QUrl) (lang : LanguageTag) :
    LiteralValue.fromString value type ≠ .createPlainLiteral text lang := by
  rw [LiteralValue.fromString, LiteralValue.createPlainLiteral]
  intro h
  split at h
  · cases h
  · split at h <;> cases h

theorem ofLiteral_plain_inj {value : QString} {lang : LanguageTag} {v : LiteralValue}
    (h : Node.ofLiteral v = Node.ofLiteral (.createPlainLiteral value lang)) : v = .createPlainLiteral value lang := by
  have hPlain : Node.ofLiteral (.createPlainLiteral value lang) =
      .literal (.createPlainLiteral value lang) (LiteralValue.isValid_plain value lang) :=
    dif_pos (LiteralValue.isValid_plain value lang)
  rw [hPlain, Node.ofLiteral] at h
  split at h
  · exact (Node.literal.inj h)
  · cases h

/-- The parser reads a term as what it stands for exactly in the cases of `Faithful`. -/
theorem read_iff (hWords : Words) (prefixes : List (QString × QUrl)) (t : Term) :
    (∃ pattern, t.meaning prefixes = some pattern ∧ parseNodePattern prefixes t.text = (pattern, some true)) ↔
      t.Faithful prefixes := by
  cases t with
  | ofVariable name h => exact iff_of_true ⟨_, rfl, rfl⟩ trivial
  | resource u h =>
    have hUri : QString.midAt ('<' :: (u ++ ['>'])) 1 ((('<' :: (u ++ ['>'])).length : Int) - 2) = u :=
      midAt_of_eq ['<'] u ['>'] rfl rfl (by simp; omega)
    refine iff_of_true ⟨_, rfl, ?_⟩ trivial
    rw [text, parseNodePattern]
    simp only [List.headD_cons, hUri]
    rfl
  | blankNode name h =>
    refine iff_of_false ?_ id
    rintro ⟨pattern, hMeaning, hRead⟩
    cases hMeaning
    rw [text] at hRead
    rcases parse_blankNode prefixes hWords h with hNone | ⟨uri, hUri⟩
    · rw [hNone] at hRead
      cases (Prod.mk.inj hRead).2
    · obtain ⟨c, rest, rfl⟩ := List.exists_cons_of_ne_nil h.1
      have hBlank : Node.ofIdentifier (c :: rest) = .blank (c :: rest) rfl := rfl
      rw [hUri, hBlank, Node.ofUri] at hRead
      split at hRead <;> cases hRead
  | prefixed qname name h h' =>
    rw [Faithful, meaning, text, parse_prefixed hWords h h']
    split
    · rename_i hBlank
      refine iff_of_false ?_ fun hFaithful => hFaithful.1 hBlank
      rintro ⟨pattern, -, hRead⟩
      cases hRead
    · rename_i hOther
      cases hLookup : prefixes.lookup qname with
      | none => simp
      | some uri => simp [hOther]
  | literal q q' text suffix hOpen hClose hText =>
    cases suffix with
    | plain =>
      exact iff_of_true ⟨_, rfl, parse_plain hOpen hText⟩ trivial
    | lang tag h =>
      refine iff_of_false ?_ id
      rintro ⟨pattern, hMeaning, hRead⟩
      cases hMeaning
      obtain ⟨value, lang, hParsed, hLonger⟩ := parse_language prefixes q' hWords hOpen hText h
      have hSame := hParsed.symm.trans hRead
      have hNode := NodePattern.resource.inj (congrArg Prod.fst hSame)
      have hValue := (LiteralValue.plain.inj (ofLiteral_plain_inj hNode)).1
      rw [hValue] at hLonger
      exact Nat.lt_irrefl _ hLonger
    | typed u h =>
      by_cases hFaithful : q' = q ∧ ¬['^', '^', '<'] <+: text
      · obtain ⟨rfl, hStart⟩ := hFaithful
        exact iff_of_true ⟨_, rfl, parse_typed hOpen hText hStart u⟩ ⟨rfl, hStart⟩
      · refine iff_of_false ?_ hFaithful
        rintro ⟨pattern, hMeaning, hRead⟩
        cases hMeaning
        have hMissing : q' = q → ['^', '^', '<'] <+: text := fun hSame =>
          Classical.byContradiction fun hStart => hFaithful ⟨hSame, hStart⟩
        obtain ⟨value, lang, hParsed⟩ := parse_mistyped prefixes hOpen hText h hMissing
        have hSame := hParsed.symm.trans hRead
        have hNode := NodePattern.resource.inj (congrArg Prod.fst hSame)
        exact fromString_ne_plain _ _ _ _ (ofLiteral_plain_inj hNode.symm)
  | integer digits h =>
    rw [Faithful, meaning, text]
    cases hInt : digits.toInt with
    | none => simp
    | some val => simp [parse_integer h hInt]

/-- The texts that the node pattern matches are those of the terms, and which of them are read as they are meant. -/
theorem token_read (hWords : Words) (prefixes : List (QString × QUrl)) :
    (∀ s : QString, IsToken s ↔ ∃ t : Term, s = t.text) ∧
      ∀ t : Term, (∃ pattern, t.meaning prefixes = some pattern ∧
        parseNodePattern prefixes t.text = (pattern, some true)) ↔ t.Faithful prefixes :=
  ⟨fun _ => isToken_iff, fun t => t.read_iff hWords prefixes⟩

end Term

end Qt

/-! ### A literal with a language -/

section Example

local instance ruleTermsQt : Qt := asciiQt

theorem isName_de : IsName ['d', 'e'] := by
  refine ⟨List.cons_ne_nil _ _, fun c hc => ?_⟩
  simp only [List.mem_cons, List.not_mem_nil, or_false] at hc
  rcases hc with rfl | rfl <;> rfl

theorem isLiteralText_ja : IsLiteralText ['j', 'a'] := by
  refine ⟨List.cons_ne_nil _ _, fun c hc => ?_⟩
  simp only [List.mem_cons, List.not_mem_nil, or_false] at hc
  rcases hc with rfl | rfl <;> rfl

/-- A literal with the language `de`. -/
def germanTerm : Term := .literal '"' '"' ['j', 'a'] (.lang ['d', 'e'] isName_de) rfl rfl isLiteralText_ja

theorem token_read_germanTerm : Words ∧
    ¬∃ pattern, germanTerm.meaning [] = some pattern ∧ parseNodePattern [] germanTerm.text = (pattern, some true) :=
  ⟨words_ascii, fun hRead => ((Term.token_read words_ascii []).2 germanTerm).mp hRead⟩

end Example

end Inference

end Soprano
