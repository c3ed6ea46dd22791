import Soprano.Inference.RuleLines
import Soprano.NQuadDocument

/-! What `RuleParser::parseFile` makes of a file: the prefixes that its lines declare, and the rules that they name. -/

namespace Soprano

namespace Inference

open Regex RuleParser

section Qt

variable [Qt]

/-! ### Prefix lines -/

/-- The letters of the keyword, in either case. -/
def keywordLetters : List (Char × Char) := [('p', 'P'), ('r', 'R'), ('e', 'E'), ('f', 'F'), ('i', 'I'), ('x', 'X')]

/-- A text with a letter of each pair. -/
def IsKeyword (s : QString) : Prop := List.Forall₂ (fun c pair => c = pair.1 ∨ c = pair.2) s keywordLetters

/-- A text without white space. -/
def IsSolid (s : QString) : Prop := s ≠ [] ∧ ∀ c ∈ s, isSpace c = false

/-- A prefix line as it is written. -/
structure PrefixText where
  keyword : QString
  gap : QString
  qname : QString
  gap' : QString
  uri : QString
  isKeyword : IsKeyword keyword
  gaps : IsGap gap ∧ IsGap gap'
  apart : gap ≠ [] ∧ gap' ≠ []
  solid : IsSolid qname ∧ IsSolid uri

def PrefixText.text (line : PrefixText) : QString :=
  line.keyword ++ (line.gap ++ (line.qname ++ ':' :: (line.gap' ++ '<' :: (line.uri ++ ['>']))))

omit [Qt] in
theorem matches_oneLetter {lower upper : Char} {w : QString} {d : Captures Char} :
    Regex.Matches (oneLetter lower upper) w d ↔ (∃ c, (c = lower ∨ c = upper) ∧ w = [c]) ∧ d = [] := by
  simp [oneLetter]

omit [Qt] in
theorem matches_letters {pairs : List (Char × Char)} {rs : List (Regex Char)} {w : QString} {d : Captures Char} :
    Regex.Matches (.chain (pairs.map (fun pair => oneLetter pair.1 pair.2) ++ rs)) w d ↔
      ∃ keyword behind, List.Forall₂ (fun c pair => c = pair.1 ∨ c = pair.2) keyword pairs ∧
        Regex.Matches (.chain rs) behind d ∧ w = keyword ++ behind := by
  induction pairs generalizing w d with
  | nil => simp
  | cons pair pairs ih =>
    rw [List.map_cons, List.cons_append, matches_chain_cons]
    simp only [matches_oneLetter, ih]
    constructor
    · rintro ⟨_, _, _, _, ⟨⟨c, hc, rfl⟩, rfl⟩, ⟨keyword, behind, hKeyword, hRest, rfl⟩, rfl, rfl⟩
      exact ⟨c :: keyword, behind, .cons hc hKeyword, hRest, rfl⟩
    · rintro ⟨_, behind, hKeyword, hRest, rfl⟩
      cases hKeyword with
      | @cons c _ keyword _ hc hKeyword =>
        exact ⟨[c], _, [], d, ⟨⟨c, hc, rfl⟩, rfl⟩, ⟨keyword, behind, hKeyword, hRest, rfl⟩, rfl, rfl⟩

omit [Qt] in
theorem matches_solid {w : QString} {d : Captures Char} :
    Regex.Matches (.plus nonSpace) w d ↔ IsSolid w ∧ d = [] := by
  rw [nonSpace, matches_plus_one, IsSolid, and_assoc]
  simp

omit [Qt] in
theorem matches_gap {w : QString} {d : Captures Char} :
    Regex.Matches (.plus space) w d ↔ (w ≠ [] ∧ IsGap w) ∧ d = [] := by
  rw [space, matches_plus_one, IsGap, and_assoc]

omit [Qt] in
/-- The matches of the prefix line: the parts of a prefix line. -/
theorem matches_prefixLine {w : QString} {d : Captures Char} :
    Regex.Matches prefixLine w d ↔ ∃ line : PrefixText, w = line.text ∧ d = [(1, line.qname), (2, line.uri)] := by
  have hLine : prefixLine = .chain (keywordLetters.map (fun pair => oneLetter pair.1 pair.2) ++
      [.plus space, .group 1 (.plus nonSpace), char ':', .plus space, char '<', .group 2 (.plus nonSpace), char '>']) :=
    rfl
  rw [hLine, matches_letters]
  simp only [matches_chain_cons, matches_chain_nil, matches_gap, matches_group, matches_solid, matches_char]
  constructor
  · rintro ⟨keyword, _, hKeyword, ⟨gap, _, _, _, ⟨hGap, rfl⟩, ⟨qname, _, _, _, ⟨_, ⟨hName, rfl⟩, rfl⟩, ⟨_, _, _, _,
      ⟨rfl, rfl⟩, ⟨gap', _, _, _, ⟨hGap', rfl⟩, ⟨_, _, _, _, ⟨rfl, rfl⟩, ⟨uri, _, _, _, ⟨_, ⟨hUri, rfl⟩, rfl⟩, ⟨_, _, _, _,
      ⟨rfl, rfl⟩, ⟨rfl, rfl⟩, rfl, rfl⟩, rfl, rfl⟩, rfl, rfl⟩, rfl, rfl⟩, rfl, rfl⟩, rfl, rfl⟩, rfl, rfl⟩, rfl⟩
    exact ⟨⟨keyword, gap, qname, gap', uri, hKeyword, ⟨hGap.2, hGap'.2⟩, ⟨hGap.1, hGap'.1⟩, ⟨hName, hUri⟩⟩, by
      simp [PrefixText.text], by simp⟩
  · rintro ⟨line, rfl, rfl⟩
    exact ⟨line.keyword, _, line.isKeyword, ⟨line.gap, _, [], _, ⟨⟨line.apart.1, line.gaps.1⟩, rfl⟩, ⟨line.qname, _, _, _,
      ⟨[], ⟨line.solid.1, rfl⟩, rfl⟩, ⟨[':'], _, [], _, ⟨rfl, rfl⟩, ⟨line.gap', _, [], _,
      ⟨⟨line.apart.2, line.gaps.2⟩, rfl⟩, ⟨['<'], _, [], _, ⟨rfl, rfl⟩, ⟨line.uri, ['>'], _, [], ⟨[], ⟨line.solid.2, rfl⟩,
      rfl⟩, ⟨['>'], [], [], [], ⟨rfl, rfl⟩, ⟨rfl, rfl⟩, rfl, rfl⟩, rfl, rfl⟩, rfl, rfl⟩, rfl, rfl⟩, rfl, rfl⟩, rfl, rfl⟩,
      rfl, rfl⟩, rfl⟩

namespace PrefixText

omit [Qt] in
theorem isSpace_head_solid {s : QString} (h : IsSolid s) (rest : QString) :
    ∀ c, (s ++ rest).head? = some c → isSpace c = false := by
  cases s with
  | nil => exact absurd rfl h.1
  | cons d s =>
    intro c hc
    cases hc
    exact h.2 d List.mem_cons_self

omit [Qt] in
/-- A prefix line is read in one way. -/
theorem text_inj {line line' : PrefixText} (h : line.text = line'.text) :
    line.qname = line'.qname ∧ line.uri = line'.uri := by
  have hLength : line.keyword.length = line'.keyword.length :=
    line.isKeyword.length_eq.trans line'.isKeyword.length_eq.symm
  obtain ⟨-, hBehind⟩ := List.append_inj h hLength
  obtain ⟨-, hNames⟩ := gap_inj line.gaps.1 line'.gaps.1 (isSpace_head_solid line.solid.1 _)
    (isSpace_head_solid line'.solid.1 _) hBehind
  obtain ⟨c, gap, hGap⟩ := List.exists_cons_of_ne_nil line.apart.2
  obtain ⟨c', gap', hGap'⟩ := List.exists_cons_of_ne_nil line'.apart.2
  have hSpaces := line.gaps.2
  have hSpaces' := line'.gaps.2
  rw [hGap] at hNames hSpaces
  rw [hGap'] at hNames hSpaces'
  have hSolid : ∀ {s : QString}, IsSolid s → ∀ d ∈ s ++ [':'], isSpace d = false := by
    intro s hs d hd
    rcases List.mem_append.mp hd with hd | hd
    · exact hs.2 d hd
    · rw [List.mem_singleton.mp hd]
      rfl
  obtain ⟨hNameEq, -, hUris⟩ := split_inj (hSolid line.solid.1) (hSolid line'.solid.1) (hSpaces c List.mem_cons_self)
    (hSpaces' c' List.mem_cons_self) (by simpa using hNames)
  obtain ⟨-, hEnds⟩ := gap_inj (fun d hd => hSpaces d (List.mem_cons_of_mem c hd))
    (fun d hd => hSpaces' d (List.mem_cons_of_mem c' hd)) (by simp [isSpace]) (by simp [isSpace]) hUris
  exact ⟨List.append_cancel_right hNameEq, List.append_cancel_right (List.cons.inj hEnds).2⟩

omit [Qt] in
theorem whole_text (engine : Engine Char) (line : PrefixText) :
    engine.whole prefixLine line.text = some [(1, line.qname), (2, line.uri)] := by
  obtain ⟨captures, hWhole⟩ := Option.isSome_iff_exists.mp
    (engine.whole_complete (matches_prefixLine.mpr ⟨line, rfl, rfl⟩))
  obtain ⟨line', hText, rfl⟩ := matches_prefixLine.mp (engine.whole_sound hWhole)
  obtain ⟨hName, hUri⟩ := text_inj hText
  rw [hWhole, hName, hUri]

omit [Qt] in
theorem exists_head (line : PrefixText) : ∃ c rest, line.text = c :: rest ∧ (c = 'p' ∨ c = 'P') := by
  have hKeyword : List.Forall₂ _ line.keyword keywordLetters := line.isKeyword
  rw [PrefixText.text]
  generalize line.keyword = keyword at hKeyword
  cases hKeyword with
  | cons hc => exact ⟨_, _, rfl, hc⟩

end PrefixText

/-- A rule line is no prefix line. -/
theorem RuleText.whole_prefixLine (engine : Engine Char) (rule : RuleText) :
    engine.whole prefixLine rule.text = none := by
  rw [Option.eq_none_iff_forall_ne_some]
  intro captures hWhole
  obtain ⟨line, hText, -⟩ := matches_prefixLine.mp (engine.whole_sound hWhole)
  obtain ⟨c, rest, hHead, hLetter⟩ := line.exists_head
  obtain ⟨behind, hRule⟩ := rule.exists_text_eq
  rw [hRule, hHead] at hText
  obtain ⟨rfl, -⟩ := List.cons.inj hText
  rcases hLetter with hLetter | hLetter <;> cases hLetter

/-! ### The lines of a file -/

/-- A line of a rule file. -/
inductive FileLine where
  | blank (gap : QString) (h : IsGap gap)
  | comment (gap text : QString) (h : IsGap gap)
  | declares (before : QString) (line : PrefixText) (behind : QString) (h : IsGap before ∧ IsGap behind)
  | rule (before : QString) (line : RuleText) (behind : QString) (h : IsGap before ∧ IsGap behind)

def FileLine.text : FileLine → QString
  | blank gap _ => gap
  | comment gap text _ => gap ++ '#' :: text
  | declares before line behind _ => before ++ (line.text ++ behind)
  | rule before line behind _ => before ++ (line.text ++ behind)

/-- What the parser makes of a line, and whether it goes on. -/
def FileLine.read (unset : QString → Bool) (parser : RuleParser) : FileLine → Bool × RuleParser
  | blank _ _ => (true, parser)
  | comment _ _ _ => (true, parser)
  | declares _ line _ _ => (true, parser.addPrefix line.qname (Qt.urlOfString line.uri))
  | rule _ line _ _ =>
    ((readRule parser.prefixes unset (patterns line.parts)).map fun found =>
      (found.isValid, { parser with rules := insertHash parser.rules line.name found })).getD (false, parser)

/-- What it makes of the lines up to one at which it stops. -/
def readLines (unset : QString → Bool) (parser : RuleParser) : List FileLine → Bool × RuleParser
  | [] => (true, parser)
  | line :: lines =>
    if (line.read unset parser).1 then readLines unset (line.read unset parser).2 lines
    else (false, (line.read unset parser).2)

omit [Qt] in
theorem dropWhile_gap {gap : QString} (h : IsGap gap) (rest : QString) :
    (gap ++ rest).dropWhile isSpace = rest.dropWhile isSpace := List.dropWhile_append_of_pos h

omit [Qt] in
theorem trimmed_blank {gap : QString} (h : IsGap gap) : QString.trimmed gap = [] := by
  have hNone := dropWhile_gap h []
  rw [List.append_nil] at hNone
  rw [QString.trimmed, hNone]
  rfl

omit [Qt] in
/-- A comment is one behind its white space. -/
theorem head_trimmed_comment {gap : QString} (h : IsGap gap) (text : QString) :
    (QString.trimmed (gap ++ '#' :: text)).head? = some '#' := by
  have hFront : (gap ++ '#' :: text).dropWhile isSpace = '#' :: text := by
    rw [dropWhile_gap h]
    rfl
  rw [QString.trimmed, hFront, List.reverse_cons, List.dropWhile_append]
  split <;> simp [isSpace]

omit [Qt] in
/-- White space is cut off at both ends of a text that has none there. -/
theorem trimmed_solid {text before behind : QString} {c d : Char} (h : IsGap before ∧ IsGap behind)
    (hHead : text.head? = some c) (hLast : text.getLast? = some d) (hSolid : isSpace c = false ∧ isSpace d = false) :
    QString.trimmed (before ++ (text ++ behind)) = text := by
  refine NQuadDocument.trimmed_pad h.1 h.2 ?_ ?_ ?_
  · intro c' hc'
    rw [hHead] at hc'
    cases hc'
    exact hSolid.1
  · intro d' hd'
    rw [hLast] at hd'
    cases hd'
    exact hSolid.2
  · rintro rfl
    cases hHead

theorem trimmed_rule (rule : RuleText) {before behind : QString} (h : IsGap before ∧ IsGap behind) :
    QString.trimmed (before ++ (rule.text ++ behind)) = rule.text := by
  obtain ⟨left, hText⟩ := rule.exists_text_eq
  have hLast : rule.text.getLast? = some ']' := by
    rw [RuleText.text, ← List.append_assoc]
    exact List.getLast?_concat
  exact trimmed_solid h (by rw [hText]; rfl) hLast ⟨rfl, rfl⟩

omit [Qt] in
theorem trimmed_declares (line : PrefixText) {before behind : QString} (h : IsGap before ∧ IsGap behind) :
    QString.trimmed (before ++ (line.text ++ behind)) = line.text := by
  obtain ⟨c, left, hText, hLetter⟩ := line.exists_head
  have hLast : line.text.getLast? = some '>' := by
    simp [PrefixText.text, List.getLast?_append, List.getLast?_cons]
  have hHead : line.text.head? = some c := by rw [hText]; rfl
  refine trimmed_solid h hHead hLast ⟨?_, rfl⟩
  rcases hLetter with rfl | rfl <;> rfl

section Words

variable (hWords : Words) (engine : Engine Char) (unset : QString → Bool)

include hWords in
/-- A turn of the loop over the lines of a file. -/
theorem parseLines_cons (parser : RuleParser) (line : FileLine) (lines : List QString) :
    parser.parseLines engine unset (line.text :: lines) =
      if (line.read unset parser).1 then (line.read unset parser).2.parseLines engine unset lines
      else (false, (line.read unset parser).2) := by
  rw [parseLines]
  cases line with
  | blank gap h =>
    rw [FileLine.text, trimmed_blank h]
    rfl
  | comment gap text h =>
    have hHead := head_trimmed_comment h text
    rw [FileLine.text]
    simp only [hHead, decide_true, Bool.or_true, if_true]
    rfl
  | declares before line behind h =>
    obtain ⟨c, rest, hText, hLetter⟩ := line.exists_head
    have hNo : (line.text.isEmpty || decide (line.text.head? = some '#')) = false := by
      rw [hText]
      rcases hLetter with rfl | rfl <;> rfl
    rw [FileLine.text, trimmed_declares line h]
    simp only [hNo, line.whole_text engine, Bool.false_eq_true, if_false]
    rfl
  | rule before line behind h =>
    obtain ⟨rest, hText⟩ := line.exists_text_eq
    have hNo : (line.text.isEmpty || decide (line.text.head? = some '#')) = false := by
      rw [hText]
      rfl
    have hRule := parseRule_text hWords engine unset parser line
    rw [FileLine.text, trimmed_rule line h]
    cases hFound : readRule parser.prefixes unset (patterns line.parts) with
    | none =>
      rw [hFound] at hRule
      simp only [hNo, line.whole_prefixLine engine, Bool.false_eq_true, if_false, hRule, FileLine.read, hFound]
      rfl
    | some found =>
      rw [hFound] at hRule
      simp only [hNo, line.whole_prefixLine engine, Bool.false_eq_true, if_false, hRule, FileLine.read, hFound]
      rfl

include hWords in
/-- The loop over the lines of a file. -/
theorem parseLines_eq (parser : RuleParser) (lines : List FileLine) :
    parser.parseLines engine unset (lines.map FileLine.text) = readLines unset parser lines := by
  induction lines generalizing parser with
  | nil => rfl
  | cons line lines ih => rw [List.map_cons, parseLines_cons hWords, ih, readLines]

/-! ### Prefixes and rules of a file -/

/-- The prefixes that are known behind a line. -/
def FileLine.declared (prefixes : List (QString × QUrl)) : FileLine → List (QString × QUrl)
  | declares _ line _ _ => insertHash prefixes line.qname (Qt.urlOfString line.uri)
  | _ => prefixes

/-- Those that are known behind some lines. -/
def declaredBy (prefixes : List (QString × QUrl)) (lines : List FileLine) : List (QString × QUrl) :=
  lines.foldl FileLine.declared prefixes

/-- The rule of a line with its name. -/
def FileLine.rule? (prefixes : List (QString × QUrl)) : FileLine → Option (QString × Rule)
  | rule _ line _ _ => (readRule prefixes unset (patterns line.parts)).map (line.name, ·)
  | _ => none

/-- The rules that the lines declare, the last one first. -/
def rulesOf (prefixes : List (QString × QUrl)) : List FileLine → List (QString × Rule)
  | [] => []
  | line :: lines => rulesOf (line.declared prefixes) lines ++ (line.rule? unset prefixes).toList

/-- A rule line declares a valid rule. -/
def FileLine.IsReadable (prefixes : List (QString × QUrl)) : FileLine → Prop
  | rule _ line _ _ => ∃ rule, readRule prefixes unset (patterns line.parts) = some rule ∧ rule.isValid = true
  | _ => True

/-- Each rule line does, with the prefixes above it. -/
def Readable (prefixes : List (QString × QUrl)) (lines : List FileLine) : Prop :=
  ∀ before line after, lines = before ++ line :: after → line.IsReadable unset (declaredBy prefixes before)

omit [Qt] in
theorem lookup_filter {β : Type} (hash : List (QString × β)) {key name : QString} (h : name ≠ key) :
    (hash.filter fun e => e.1 ≠ key).lookup name = hash.lookup name := by
  induction hash with
  | nil => rfl
  | cons e hash ih =>
    obtain ⟨k, value⟩ := e
    by_cases hKey : k = key
    · subst hKey
      have hOther : (name == k) = false := by simpa using h
      rw [List.filter_cons_of_neg (by simp), ih, List.lookup_cons, hOther]
    · rw [List.filter_cons_of_pos (by simpa using hKey), List.lookup_cons, List.lookup_cons, ih]

omit [Qt] in
theorem lookup_insertHash {β : Type} (hash : List (QString × β)) (key name : QString) (value : β) :
    (insertHash hash key value).lookup name = if name = key then some value else hash.lookup name := by
  rw [insertHash, List.lookup_cons]
  by_cases h : name = key
  · simp [h]
  · have hOther : (name == key) = false := by simpa using h
    rw [hOther, if_neg h, lookup_filter hash h]

/-- What a line changes. -/
theorem read_line (parser : RuleParser) (line : FileLine) :
    ((line.read unset parser).1 = true ↔ line.IsReadable unset parser.prefixes) ∧
      (line.read unset parser).2.prefixes = line.declared parser.prefixes ∧
      ∀ name, (line.read unset parser).2.rules.lookup name =
        ((line.rule? unset parser.prefixes).toList.lookup name).or (parser.rules.lookup name) := by
  cases line with
  | blank gap h => exact ⟨iff_of_true rfl trivial, rfl, fun name => rfl⟩
  | comment gap text h => exact ⟨iff_of_true rfl trivial, rfl, fun name => rfl⟩
  | declares before line behind h => exact ⟨iff_of_true rfl trivial, rfl, fun name => rfl⟩
  | rule before line behind h =>
    rw [FileLine.read, FileLine.IsReadable, FileLine.rule?]
    cases readRule parser.prefixes unset (patterns line.parts) with
    | none => exact ⟨by simp, rfl, fun name => rfl⟩
    | some rule =>
      refine ⟨by simp, rfl, fun name => ?_⟩
      have hInsert := lookup_insertHash parser.rules line.name name rule
      simp only [Option.map_some, Option.getD_some, Option.toList_some, List.lookup_cons]
      rw [hInsert]
      by_cases hName : name = line.name
      · simp [hName]
      · have hOther : (name == line.name) = false := by simpa using hName
        simp [hName, hOther]

/-- The first line of a readable file, and the others. -/
theorem readable_cons (prefixes : List (QString × QUrl)) (line : FileLine) (lines : List FileLine) :
    Readable unset prefixes (line :: lines) ↔
      line.IsReadable unset prefixes ∧ Readable unset (line.declared prefixes) lines := by
  constructor
  · intro hAll
    refine ⟨hAll [] line lines rfl, fun before line' after hLines => ?_⟩
    exact hAll (line :: before) line' after (by rw [hLines]; rfl)
  · rintro ⟨hFirst, hRest⟩ before line' after hLines
    cases before with
    | nil =>
      obtain ⟨rfl, -⟩ := List.cons.inj hLines
      exact hFirst
    | cons line'' before =>
      obtain ⟨rfl, hTail⟩ := List.cons.inj hLines
      exact hRest before line' after hTail

theorem readable_nil (prefixes : List (QString × QUrl)) : Readable unset prefixes [] := by
  intro before line after hLines
  cases before <;> cases hLines

/-- The lines are read to their end exactly if each rule line declares a valid rule. -/
theorem readLines_iff (parser : RuleParser) (lines : List FileLine) :
    (readLines unset parser lines).1 = true ↔ Readable unset parser.prefixes lines := by
  induction lines generalizing parser with
  | nil => exact iff_of_true rfl (readable_nil unset _)
  | cons line lines ih =>
    obtain ⟨hRead, hPrefixes, -⟩ := read_line unset parser line
    rw [readable_cons, ← hRead, ← hPrefixes, readLines]
    split
    · rename_i hTrue
      rw [ih]
      exact ⟨fun hRest => ⟨hTrue, hRest⟩, And.right⟩
    · rename_i hFalse
      exact iff_of_false (by simp) fun hBoth => hFalse hBoth.1

/-- What a file declares is known to the parser behind it: a later rule replaces an earlier one of its name. -/
theorem readLines_result (parser : RuleParser) (lines : List FileLine)
    (hAll : (readLines unset parser lines).1 = true) :
    (readLines unset parser lines).2.prefixes = declaredBy parser.prefixes lines ∧
      ∀ name, (readLines unset parser lines).2.rules.lookup name =
        ((rulesOf unset parser.prefixes lines).lookup name).or (parser.rules.lookup name) := by
  induction lines generalizing parser with
  | nil => exact ⟨rfl, fun name => rfl⟩
  | cons line lines ih =>
    obtain ⟨-, hPrefixes, hRules⟩ := read_line unset parser line
    rw [readLines] at hAll ⊢
    split at hAll
    · rename_i hTrue
      obtain ⟨hRestPrefixes, hRestRules⟩ := ih _ hAll
      rw [if_pos hTrue, hRestPrefixes, hPrefixes]
      refine ⟨rfl, fun name => ?_⟩
      rw [hRestRules name, hRules name, hPrefixes, rulesOf, List.lookup_append, Option.or_assoc]
    · cases hAll

include hWords in
/-- A file is parsed to its end exactly if each of its rule lines declares a valid rule with the prefixes above it,
and then it has declared what its lines say. -/
theorem parseFile_lines (parser : RuleParser) (lines : List FileLine) :
    ((parser.parseFile engine unset (some (lines.map FileLine.text))).1 = true ↔
      Readable unset parser.prefixes lines) ∧
    ((parser.parseFile engine unset (some (lines.map FileLine.text))).1 = true →
      (parser.parseFile engine unset (some (lines.map FileLine.text))).2.prefixes = declaredBy parser.prefixes lines ∧
      ∀ name, (parser.parseFile engine unset (some (lines.map FileLine.text))).2.rules.lookup name =
        ((rulesOf unset parser.prefixes lines).lookup name).or (parser.rules.lookup name)) := by
  have hLines : parser.parseFile engine unset (some (lines.map FileLine.text)) = readLines unset parser lines :=
    parseLines_eq hWords engine unset parser lines
  rw [hLines]
  exact ⟨readLines_iff unset parser lines, readLines_result unset parser lines⟩

end Words

end Qt

/-! ### A file with one rule -/

section Example

local instance ruleFileQt : Qt := asciiQt

/-- A comment, a rule and an empty line. -/
def swapFile : List FileLine :=
  [.comment [] [' ', 's'] isGap_nil, .rule [] swapText [' '] ⟨isGap_nil, isGap_blank⟩, .blank [] isGap_nil]

theorem readable_swapFile : Readable (fun _ => false) [] swapFile := by
  refine (readable_cons _ _ _ _).mpr ⟨trivial, (readable_cons _ _ _ _).mpr ⟨⟨swapRule, rfl, rfl⟩, ?_⟩⟩
  exact (readable_cons _ _ _ _).mpr ⟨trivial, readable_nil _ _⟩

theorem parseFile_lines_swap : Words ∧
    ((RuleParser.mk [] []).parseFile Regex.tryAll (fun _ => false) (some (swapFile.map FileLine.text))).2.rules.lookup
      ['r'] = some swapRule := by
  have hFile := parseFile_lines words_ascii Regex.tryAll (fun _ => false) ⟨[], []⟩ swapFile
  exact ⟨words_ascii, ((hFile.2 (hFile.1.mpr readable_swapFile)).2 ['r']).trans rfl⟩

end Example

end Inference

end Soprano
