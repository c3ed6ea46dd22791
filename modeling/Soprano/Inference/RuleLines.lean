import Soprano.Inference.RuleParser

/-! What `RuleParser` makes of a line, and of the lines of a file. -/

namespace Soprano

namespace Inference

open Regex RuleParser

section Qt

variable [Qt]

/-! ### The patterns of a line -/

/-- A part of a line in brackets: a statement pattern, or a text that starts with none. -/
inductive Part where
  | pattern (p : PatternText)
  | other (body : QString) (plain : '(' ∉ body)
      (unmatched : ∀ rest w c, w <+: '(' :: (body ++ ')' :: rest) → ¬Regex.Matches statementPattern w c)

namespace Part

def text : Part → QString
  | pattern p => p.text
  | other body _ _ => '(' :: (body ++ [')'])

def pattern? : Part → Option PatternText
  | pattern p => some p
  | other _ _ _ => none

end Part

/-- The parts of a line, each with the text in front of it. -/
def partsText (parts : List (QString × Part)) : QString := parts.flatMap fun e => e.1 ++ e.2.text

def patterns (parts : List (QString × Part)) : List PatternText := parts.filterMap fun e => e.2.pattern?

@[simp] theorem partsText_nil : partsText [] = [] := rfl

@[simp] theorem partsText_cons (gap : QString) (part : Part) (parts : List (QString × Part)) :
    partsText ((gap, part) :: parts) = gap ++ part.text ++ partsText parts := rfl

@[simp] theorem partsText_append (parts parts' : List (QString × Part)) :
    partsText (parts ++ parts') = partsText parts ++ partsText parts' := List.flatMap_append

@[simp] theorem patterns_nil : patterns [] = [] := rfl

@[simp] theorem patterns_pattern (gap : QString) (p : PatternText) (parts : List (QString × Part)) :
    patterns ((gap, .pattern p) :: parts) = p :: patterns parts := rfl

theorem patterns_other {e : QString × Part} (h : e.2.pattern? = none) (parts : List (QString × Part)) :
    patterns (e :: parts) = patterns parts := List.filterMap_cons_none h

@[simp] theorem patterns_append (parts parts' : List (QString × Part)) :
    patterns (parts ++ parts') = patterns parts ++ patterns parts' := List.filterMap_append

theorem patterns_eq_nil {parts : List (QString × Part)} (h : ∀ e ∈ parts, e.2.pattern? = none) :
    patterns parts = [] := List.filterMap_eq_nil_iff.mpr h

section Words

variable (hWords : Words) {engine : Engine Char}

/-- A text without opening brackets has no match in it. -/
theorem find_eq_none_of_head {text : QString} (h : text.head? ≠ some '(') :
    engine.find statementPattern text = none := by
  refine engine.find_eq_none fun w c hPrefix hMatches => ?_
  obtain ⟨s, g, p, g', o, g'', -, -, -, -, -, -, rfl, -⟩ := matches_statementPattern.mp hMatches
  obtain ⟨behind, rfl⟩ := hPrefix
  exact h rfl

omit [Qt] in
theorem head_ne_of_split {before w v : QString} (h : '(' ∉ before) (hSplit : before = w ++ v) (hSome : v ≠ [])
    (text : QString) : (v ++ text).head? ≠ some '(' := by
  cases v with
  | nil => exact absurd rfl hSome
  | cons c v =>
    intro hOpen
    cases hOpen
    exact h (by simp [hSplit])

theorem firstFrom_quiet {before : QString} (h : '(' ∉ before) (pos : Nat) (text : QString) :
    engine.firstFrom statementPattern pos (before ++ text) =
      engine.firstFrom statementPattern (pos + before.length) text :=
  engine.firstFrom_append pos fun _ _ hSplit hSome =>
    find_eq_none_of_head (head_ne_of_split h hSplit hSome text)

variable (engine) in
/-- A part that starts with no pattern is skipped. -/
theorem firstFrom_other {gap body : QString} (hGap : '(' ∉ gap) (plain : '(' ∉ body)
    (unmatched : ∀ rest w c, w <+: '(' :: (body ++ ')' :: rest) → ¬Regex.Matches statementPattern w c) (pos : Nat)
    (text : QString) : engine.firstFrom statementPattern pos (gap ++ '(' :: (body ++ [')']) ++ text) =
      engine.firstFrom statementPattern (pos + (gap ++ '(' :: (body ++ [')'])).length) text := by
  have hBody : '(' ∉ body ++ [')'] := by simp [plain]
  have hNone : engine.find statementPattern ('(' :: (body ++ [')'] ++ text)) = none :=
    engine.find_eq_none fun w c hPrefix => unmatched text w c (by simpa using hPrefix)
  rw [List.append_assoc, firstFrom_quiet hGap, List.cons_append, Engine.firstFrom, hNone]
  simp only
  rw [firstFrom_quiet hBody]
  congr 1
  simp only [List.length_append, List.length_cons, List.length_nil]
  omega

variable (engine) in
include hWords in
theorem firstFrom_pattern {gap : QString} (hGap : '(' ∉ gap) (p : PatternText) (pos : Nat) (text : QString) :
    engine.firstFrom statementPattern pos (gap ++ p.text ++ text) =
      some (pos + gap.length, ⟨p.text, p.captures⟩) := by
  rw [List.append_assoc, firstFrom_quiet hGap]
  exact engine.firstFrom_of_find _ (p.find_text hWords engine text)

/-! ### The last pattern -/

/-- No pattern starts in the text. -/
def Quiet (engine : Engine Char) (text : QString) : Prop := ∀ w v, text = w ++ v → engine.find statementPattern v = none

theorem quiet_nil : Quiet engine [] := by
  intro w v hSplit
  obtain ⟨-, rfl⟩ := List.append_eq_nil_iff.mp hSplit.symm
  exact find_eq_none_of_head (by simp)

theorem Quiet.append {before text : QString} (h : Quiet engine text) (hBefore : '(' ∉ before) :
    Quiet engine (before ++ text) := by
  intro w v hSplit
  rcases List.append_eq_append_iff.mp hSplit with ⟨u, -, hText⟩ | ⟨u, hSplit', rfl⟩
  · exact h u v hText
  · by_cases hSome : u = []
    · subst hSome
      exact h [] text rfl
    · exact find_eq_none_of_head (head_ne_of_split hBefore hSplit' hSome text)

theorem Quiet.other {body text : QString} (h : Quiet engine text) (plain : '(' ∉ body)
    (unmatched : ∀ rest w c, w <+: '(' :: (body ++ ')' :: rest) → ¬Regex.Matches statementPattern w c) :
    Quiet engine ('(' :: (body ++ [')']) ++ text) := by
  have hBody : '(' ∉ body ++ [')'] := by simp [plain]
  have hRest : Quiet engine (body ++ [')'] ++ text) := h.append hBody
  intro w v hSplit
  cases w with
  | nil =>
    obtain rfl : '(' :: (body ++ [')']) ++ text = v := hSplit
    exact engine.find_eq_none fun w c hPrefix => unmatched text w c (by simpa using hPrefix)
  | cons c w => exact hRest w v (List.cons.inj hSplit).2

theorem quiet_parts {parts : List (QString × Part)} (hGaps : ∀ e ∈ parts, '(' ∉ e.1)
    (hOthers : ∀ e ∈ parts, e.2.pattern? = none) {closing : QString} (hClosing : '(' ∉ closing) :
    Quiet engine (partsText parts ++ closing) := by
  induction parts with
  | nil =>
    have hNil : Quiet engine [] := quiet_nil
    have hQuiet := hNil.append hClosing
    rwa [List.append_nil] at hQuiet
  | cons e parts ih =>
    have hRest := ih (fun e he => hGaps e (List.mem_cons_of_mem _ he)) fun e he => hOthers e (List.mem_cons_of_mem _ he)
    obtain ⟨gap, part⟩ := e
    have hGap := hGaps (gap, part) List.mem_cons_self
    cases part with
    | pattern p => cases hOthers (gap, .pattern p) List.mem_cons_self
    | other body plain unmatched =>
      rw [partsText_cons, List.append_assoc, List.append_assoc]
      exact (hRest.other plain unmatched).append hGap

include hWords in
/-- The last pattern of a line. -/
theorem lastFrom_pattern (before : QString) (p : PatternText) {text : QString} (h : Quiet engine text) :
    engine.lastFrom statementPattern 0 (before ++ (p.text ++ text)) = some (before.length, ⟨p.text, p.captures⟩) := by
  refine engine.lastFrom_append before 0 ?_
  have hInner : Quiet engine (p.inner ++ text) := h.append p.notMem_inner
  have hFind := p.find_text hWords engine text
  rw [PatternText.text, List.cons_append] at hFind ⊢
  rw [Engine.lastFrom, engine.lastFrom_eq_none _ hInner, hFind, Nat.zero_add]
  rfl

/-! ### A rule line -/

/-- The pattern that is read, if the flag says so. -/
def takePattern (prefixes : List (QString × QUrl)) (unset : QString → Bool) (p : PatternText) :
    Option StatementPattern :=
  let pattern := parseMatchedStatementPattern prefixes unset p.captures
  if pattern.2 then some pattern.1 else none

/-- The patterns that are read, if all are. -/
def takePatterns (prefixes : List (QString × QUrl)) (unset : QString → Bool) :
    List PatternText → Option (List StatementPattern)
  | [] => some []
  | p :: rest => (takePattern prefixes unset p).bind fun pattern =>
      (takePatterns prefixes unset rest).map (pattern :: ·)

variable {unset : QString → Bool} {parser : RuleParser} {line : QString}

/-- A turn of the loop is decided by the first match from its position on. -/
theorem parsePreconditions_congr {effectPos pos pos' : Nat} (turns : Nat) (preconditions : List StatementPattern)
    (h : engine.firstFrom statementPattern pos (line.drop pos) =
      engine.firstFrom statementPattern pos' (line.drop pos')) :
    parser.parsePreconditions engine unset line effectPos turns pos preconditions =
      parser.parsePreconditions engine unset line effectPos turns pos' preconditions := by
  cases turns with
  | zero => rfl
  | succ turns => rw [parsePreconditions, parsePreconditions, h]

variable (engine unset parser) in
include hWords in
/-- The loop reads the patterns in front of the effect. -/
theorem parsePreconditions_eq {parts : List (QString × Part)} (hGaps : ∀ e ∈ parts, '(' ∉ e.1) {gap text : QString}
    (hGap : '(' ∉ gap) (effect : PatternText) {pos turns : Nat} (hTurns : (patterns parts).length < turns)
    (hLine : line.drop pos = partsText parts ++ (gap ++ effect.text ++ text)) (preconditions : List StatementPattern) :
    parser.parsePreconditions engine unset line (pos + (partsText parts).length + gap.length) turns pos preconditions =
      (takePatterns parser.prefixes unset (patterns parts)).map (preconditions ++ ·) := by
  induction parts generalizing pos turns preconditions with
  | nil =>
    cases turns with
    | zero => cases hTurns
    | succ turns =>
      have hFirst := firstFrom_pattern hWords engine hGap effect pos text
      rw [parsePreconditions, hLine, partsText_nil, List.nil_append, hFirst]
      simp [takePatterns]
  | cons e parts ih =>
    obtain ⟨before, part⟩ := e
    have hBefore := hGaps (before, part) List.mem_cons_self
    have hRest : ∀ e ∈ parts, '(' ∉ e.1 := fun e he => hGaps e (List.mem_cons_of_mem _ he)
    have hText := partsText_cons before part parts
    have hBehind : line.drop (pos + (before ++ part.text).length) =
        partsText parts ++ (gap ++ effect.text ++ text) := by
      rw [← List.drop_drop, hLine, hText, List.append_assoc (before ++ part.text), List.drop_left]
    have hPos : pos + (partsText ((before, part) :: parts)).length + gap.length =
        pos + (before ++ part.text).length + (partsText parts).length + gap.length := by
      rw [hText, List.length_append]
      omega
    rw [hPos]
    cases part with
    | other body plain unmatched =>
      have hSkip : parser.parsePreconditions engine unset line (pos + (before ++ '(' :: (body ++ [')'])).length +
            (partsText parts).length + gap.length) turns pos preconditions =
          parser.parsePreconditions engine unset line (pos + (before ++ '(' :: (body ++ [')'])).length +
            (partsText parts).length + gap.length) turns (pos + (before ++ '(' :: (body ++ [')'])).length)
              preconditions := by
        refine parsePreconditions_congr turns preconditions ?_
        have hOther := firstFrom_other engine hBefore plain unmatched pos
          (partsText parts ++ (gap ++ effect.text ++ text))
        rw [hLine, hText, List.append_assoc (before ++ _)]
        exact hOther.trans (congrArg _ hBehind.symm)
      exact hSkip.trans (ih hRest hTurns hBehind preconditions)
    | pattern p =>
      cases turns with
      | zero => cases hTurns
      | succ turns =>
        have hFirst := firstFrom_pattern hWords engine hBefore p pos
          (partsText parts ++ (gap ++ effect.text ++ text))
        have hSame : line.drop pos = before ++ p.text ++ (partsText parts ++ (gap ++ effect.text ++ text)) := by
          rw [hLine, hText, Part.text, List.append_assoc (before ++ _)]
        have hAhead : pos + before.length <
            pos + (before ++ p.text).length + (partsText parts).length + gap.length := by
          rw [List.length_append, PatternText.text, List.length_cons]
          omega
        have hNext : pos + before.length + p.text.length = pos + (before ++ p.text).length := by
          rw [List.length_append, Nat.add_assoc]
        have hFewer : (patterns parts).length < turns := Nat.lt_of_succ_lt_succ hTurns
        rw [parsePreconditions, hSame, hFirst]
        simp only [Part.text, if_pos hAhead, hNext]
        rw [patterns_pattern, takePatterns, takePattern]
        split
        · refine (ih hRest hFewer hBehind _).trans ?_
          rw [Option.bind_some, Option.map_map]
          congr 1
          funext rest
          simp
        · rfl

/-- The last pattern of some parts, if there is any. -/
theorem patterns_cases (parts : List (QString × Part)) : (∀ e ∈ parts, e.2.pattern? = none) ∨
    ∃ before gap p after, parts = before ++ (gap, .pattern p) :: after ∧ ∀ e ∈ after, e.2.pattern? = none := by
  induction parts with
  | nil => exact .inl fun _ hMem => absurd hMem List.not_mem_nil
  | cons e parts ih =>
    obtain ⟨gap, part⟩ := e
    rcases ih with hOthers | ⟨before, gap', p, after, rfl, hOthers⟩
    · cases part with
      | pattern p => exact .inr ⟨[], gap, p, parts, rfl, hOthers⟩
      | other body plain unmatched =>
        refine .inl fun e he => ?_
        rcases List.mem_cons.mp he with rfl | he
        · rfl
        · exact hOthers e he
    · exact .inr ⟨(gap, part) :: before, gap', p, after, rfl, hOthers⟩

/-- Each pattern takes a character at least. -/
theorem length_patterns_le (parts : List (QString × Part)) : (patterns parts).length ≤ (partsText parts).length := by
  induction parts with
  | nil => exact Nat.le_refl 0
  | cons e parts ih =>
    obtain ⟨gap, part⟩ := e
    cases part with
    | pattern p =>
      simp only [patterns_pattern, partsText_cons, Part.text, PatternText.text, List.length_cons, List.length_append]
      omega
    | other body plain unmatched =>
      rw [patterns_other rfl, partsText_cons, List.length_append]
      omega

/-! ### A rule line as it is written -/

/-- The text between the brackets of a part. -/
def Part.body : Part → QString
  | pattern p => p.body
  | other body _ _ => body

/-- A rule line: a name, parts with commas between them, the arrow and one more part. -/
structure RuleText where
  opening : QString
  name : QString
  gap : QString
  first : Part
  rest : List (QString × QString × Part)
  arrow : QString × QString
  last : Part
  closing : QString
  named : IsName name
  gaps : IsGap opening ∧ IsGap gap ∧ IsGap arrow.1 ∧ IsGap arrow.2 ∧ IsGap closing
  separated : ∀ e ∈ rest, IsGap e.1 ∧ IsGap e.2.1
  closed : ∀ part ∈ first :: last :: rest.map (fun e => e.2.2), part.body ≠ [] ∧ ')' ∉ part.body

namespace RuleText

/-- The parts, each with what stands in front of it. -/
def parts (rule : RuleText) : List (QString × Part) :=
  ('[' :: (rule.opening ++ (rule.name ++ ':' :: rule.gap)), rule.first) ::
    (rule.rest.map fun e => (e.1 ++ ',' :: e.2.1, e.2.2)) ++
      [(rule.arrow.1 ++ '-' :: '>' :: rule.arrow.2, rule.last)]

def text (rule : RuleText) : QString := partsText rule.parts ++ (rule.closing ++ [']'])

end RuleText

theorem Part.text_eq (part : Part) : part.text = '(' :: (part.body ++ [')']) := by
  cases part <;> rfl

omit [Qt] in
theorem matches_sign (c : Char) : Regex.Matches (char c) [c] [] := matches_char.mpr ⟨rfl, rfl⟩

omit [Qt] in
theorem IsGap.matches {gap : QString} (h : IsGap gap) : Regex.Matches spaces gap [] := matches_spaces.mpr ⟨h, rfl⟩

theorem matches_bracketedPart (k : Nat) {part : Part} (h : part.body ≠ [] ∧ ')' ∉ part.body) :
    Regex.Matches (bracketedPart k) part.text [(k, part.text)] := by
  have hBody : Regex.Matches (.plus (.one (· != ')'))) part.body [] := by
    refine matches_plus_one.mpr ⟨h.1, fun c hc => ?_, rfl⟩
    rw [bne_iff_ne]
    rintro rfl
    exact h.2 hc
  have hPart := (matches_sign '(').chain (hBody.chain ((matches_sign ')').chain .chainNil))
  rw [bracketedPart, part.text_eq]
  exact .group hPart

/-- The parts behind the first one, with their commas. -/
theorem matches_rest {rest : List (QString × QString × Part)} (hSeparated : ∀ e ∈ rest, IsGap e.1 ∧ IsGap e.2.1)
    (hClosed : ∀ e ∈ rest, e.2.2.body ≠ [] ∧ ')' ∉ e.2.2.body) :
    ∃ c, Regex.Matches (.star (.chain [spaces, char ',', spaces, bracketedPart 3]))
      (partsText (rest.map fun e => (e.1 ++ ',' :: e.2.1, e.2.2))) c := by
  induction rest with
  | nil => exact ⟨[], .starNil⟩
  | cons e rest ih =>
    obtain ⟨c, hRest⟩ := ih (fun e he => hSeparated e (List.mem_cons_of_mem _ he))
      fun e he => hClosed e (List.mem_cons_of_mem _ he)
    obtain ⟨hGap, hGap'⟩ := hSeparated e List.mem_cons_self
    have hPart := hGap.matches.chain ((matches_sign ',').chain (hGap'.matches.chain
      ((matches_bracketedPart 3 (hClosed e List.mem_cons_self)).chain .chainNil)))
    exact (Regex.Matches.starCons hPart hRest).exists_of_eq (by simp)

namespace RuleText

/-- A rule line is one for the parser. -/
theorem matches_ruleLine (rule : RuleText) : ∃ c, Regex.Matches ruleLine rule.text c := by
  obtain ⟨hOpening, hGap, hArrow, hArrow', hClosing⟩ := rule.gaps
  have hFirst := rule.closed rule.first (by simp)
  have hLast := rule.closed rule.last (by simp)
  have hName : Regex.Matches (.plus wordChar) rule.name [] := matches_name.mpr ⟨rule.named, rfl⟩
  obtain ⟨c, hRest⟩ := matches_rest rule.separated fun e he =>
    rule.closed e.2.2 (List.mem_cons_of_mem _ (List.mem_cons_of_mem _ (List.mem_map_of_mem he)))
  have hBehind := hClosing.matches.chain ((matches_sign ']').chain .chainNil)
  have hEffect := (matches_sign '-').chain ((matches_sign '>').chain (hArrow'.matches.chain
    ((matches_bracketedPart 4 hLast).chain hBehind)))
  have hParts := (matches_bracketedPart 2 hFirst).chain (hRest.chain (hArrow.matches.chain hEffect))
  have hLine := (matches_sign '[').chain (hOpening.matches.chain ((Regex.Matches.group hName (k := 1)).chain
    ((matches_sign ':').chain (hGap.matches.chain hParts))))
  exact hLine.exists_of_eq (by simp [text, parts])

include hWords in
theorem isSpace_head_name {name : QString} (h : IsName name) (rest : QString) :
    ∀ c, (name ++ rest).head? = some c → isSpace c = false := by
  cases name with
  | nil => exact absurd rfl h.1
  | cons d name =>
    intro c hc
    cases hc
    exact (hWords d (h.2 d List.mem_cons_self)).1

theorem exists_text_eq (rule : RuleText) :
    ∃ behind, rule.text = '[' :: (rule.opening ++ (rule.name ++ ':' :: behind)) :=
  ⟨rule.gap ++ (rule.first.text ++ (partsText (rule.parts.drop 1) ++ (rule.closing ++ [']']))), by simp [text, parts]⟩

include hWords in
/-- A match of the line takes its name. -/
theorem cap_name (rule : RuleText) {c : Captures Char} (h : Regex.Matches ruleLine rule.text c) :
    cap c 1 = rule.name := by
  unfold ruleLine at h
  rw [matches_chain_cons] at h
  obtain ⟨_, _, _, _, hOpen, h, hText, rfl⟩ := h
  obtain ⟨rfl, rfl⟩ := matches_char.mp hOpen
  rw [matches_chain_cons] at h
  obtain ⟨gap, _, _, _, hSpaces, h, rfl, rfl⟩ := h
  obtain ⟨hGap, rfl⟩ := matches_spaces.mp hSpaces
  rw [matches_chain_cons] at h
  obtain ⟨name, _, _, others, hGroup, h, rfl, rfl⟩ := h
  obtain ⟨_, hPlus, rfl⟩ := matches_group.mp hGroup
  obtain ⟨hName, rfl⟩ := matches_name.mp hPlus
  -- the other groups have other numbers
  have hOthers : ∀ g ∈ others, g.1 ≠ 1 := by
    intro g hg hOne
    have hMem := h.mem_groups g hg
    rw [hOne] at hMem
    revert hMem
    decide
  rw [matches_chain_cons] at h
  obtain ⟨_, rest, _, _, hColon, h, rfl, rfl⟩ := h
  obtain ⟨rfl, rfl⟩ := matches_char.mp hColon
  obtain ⟨behind, hBehind⟩ := rule.exists_text_eq
  have hLine : rule.opening ++ (rule.name ++ ':' :: behind) = gap ++ (name ++ ':' :: rest) := by
    rw [hBehind] at hText
    exact (List.cons.inj hText).2
  obtain ⟨-, hNames⟩ := gap_inj rule.gaps.1 hGap (isSpace_head_name hWords rule.named _)
    (isSpace_head_name hWords hName _) hLine
  have hWord : ∀ {s : QString}, IsName s → ∀ c ∈ s, (!Qt.isWordChar c) = false := by
    intro s hs c hc
    rw [hs.2 c hc]
    rfl
  have hSign : (!Qt.isWordChar ':') = true := by
    rw [Bool.not_eq_true', ← Bool.not_eq_true]
    exact fun hTrue => (hWords _ hTrue).2.1 rfl
  obtain ⟨hSame, -⟩ := split_inj (hWord rule.named) (hWord hName) hSign hSign hNames
  rw [List.nil_append, List.nil_append, hSame]
  exact cap_append_of_notMem hOthers

include hWords in
theorem notMem_parts (rule : RuleText) : ∀ e ∈ rule.parts, '(' ∉ e.1 := by
  obtain ⟨hOpening, hGap, hArrow, hArrow', -⟩ := rule.gaps
  have hName : '(' ∉ rule.name := fun hMem => (hWords _ (rule.named.2 _ hMem)).2.2 (by decide)
  intro e he
  simp only [parts, List.cons_append, List.mem_cons, List.mem_append, List.mem_map, List.not_mem_nil, or_false] at he
  rcases he with rfl | ⟨e, hRest, rfl⟩ | rfl
  · simp [PatternText.notMem_gap hOpening, hName, PatternText.notMem_gap hGap]
  · obtain ⟨hBefore, hBehind⟩ := rule.separated e hRest
    simp [PatternText.notMem_gap hBefore, PatternText.notMem_gap hBehind]
  · simp [PatternText.notMem_gap hArrow, PatternText.notMem_gap hArrow']

theorem notMem_closing (rule : RuleText) : '(' ∉ rule.closing ++ [']'] := by
  simp [PatternText.notMem_gap rule.gaps.2.2.2.2]

end RuleText

/-- The rule that the patterns of a line make: the last one is the effect, the others are the preconditions. -/
def readRule (prefixes : List (QString × QUrl)) (unset : QString → Bool) (ps : List PatternText) : Option Rule :=
  let effect := parseMatchedStatementPattern prefixes unset ((ps.getLast?.map PatternText.captures).getD [])
  if effect.2 then
    (takePatterns prefixes unset ps.dropLast).map fun preconditions => ⟨preconditions, effect.1, .empty⟩
  else none

/-- Without an effect there are no preconditions. -/
theorem parsePreconditions_zero (turns pos : Nat) (preconditions : List StatementPattern) :
    parser.parsePreconditions engine unset line 0 turns pos preconditions = some preconditions := by
  cases turns with
  | zero => rfl
  | succ turns =>
    rw [parsePreconditions]
    split
    · rfl
    · rw [if_neg (Nat.not_lt_zero _)]

variable (engine unset parser) in
include hWords in
/-- The effect of a line is looked for first, then its preconditions. -/
theorem parse_parts {parts : List (QString × Part)} (hGaps : ∀ e ∈ parts, '(' ∉ e.1) {closing : QString}
    (hClosing : '(' ∉ closing) (hLine : line = partsText parts ++ closing) :
    let found := engine.lastFrom statementPattern 0 line
    found.map (fun e => e.2.captures) = (patterns parts).getLast?.map PatternText.captures ∧
      parser.parsePreconditions engine unset line ((found.map Prod.fst).getD 0) (line.length + 1) 0 [] =
        takePatterns parser.prefixes unset (patterns parts).dropLast := by
  rcases patterns_cases parts with hOthers | ⟨before, gap, effect, after, rfl, hOthers⟩
  · have hQuiet : Quiet engine (partsText parts ++ closing) := quiet_parts hGaps hOthers hClosing
    have hNone : engine.lastFrom statementPattern 0 line = none := by
      rw [hLine]
      exact engine.lastFrom_eq_none 0 hQuiet
    rw [patterns_eq_nil hOthers]
    simp only [hNone]
    exact ⟨rfl, parsePreconditions_zero _ _ _⟩
  · have hBefore : ∀ e ∈ before, '(' ∉ e.1 := fun e he => hGaps e (List.mem_append_left _ he)
    have hGap : '(' ∉ gap := hGaps (gap, .pattern effect) (by simp)
    have hAfter : ∀ e ∈ after, '(' ∉ e.1 :=
      fun e he => hGaps e (List.mem_append_right _ (List.mem_cons_of_mem _ he))
    have hQuiet : Quiet engine (partsText after ++ closing) := quiet_parts hAfter hOthers hClosing
    have hText : line = partsText before ++ (gap ++ effect.text ++ (partsText after ++ closing)) := by
      rw [hLine, partsText_append, partsText_cons, Part.text]
      simp only [List.append_assoc]
    have hFound : engine.lastFrom statementPattern 0 line =
        some ((partsText before ++ gap).length, ⟨effect.text, effect.captures⟩) := by
      rw [hText, ← lastFrom_pattern hWords (partsText before ++ gap) effect hQuiet]
      simp only [List.append_assoc]
    have hPatterns : patterns (before ++ (gap, .pattern effect) :: after) = patterns before ++ [effect] := by
      rw [patterns_append, patterns_pattern, patterns_eq_nil hOthers]
    have hTurns : (patterns before).length < line.length + 1 := by
      have hLength := length_patterns_le before
      rw [hText, List.length_append]
      omega
    have hStart : line.drop 0 = partsText before ++ (gap ++ effect.text ++ (partsText after ++ closing)) := hText
    have hRead := parsePreconditions_eq hWords engine unset parser hBefore hGap effect hTurns hStart []
    rw [hPatterns]
    simp only [hFound]
    refine ⟨by simp, ?_⟩
    rw [Option.map_some, Option.getD_some, List.dropLast_concat, List.length_append]
    simpa using hRead

variable (engine unset parser) in
include hWords in
/-- The rule of a line, which is kept under its name, or none. -/
theorem parseRule_text (rule : RuleText) :
    parser.parseRule engine unset rule.text =
      match readRule parser.prefixes unset (patterns rule.parts) with
      | some read => (read, { parser with rules := insertHash parser.rules rule.name read })
      | none => (.invalid, parser) := by
  obtain ⟨_, hMatches⟩ := rule.matches_ruleLine
  obtain ⟨captures, hWhole⟩ := Option.isSome_iff_exists.mp (engine.whole_complete hMatches)
  have hName := rule.cap_name hWords (engine.whole_sound hWhole)
  obtain ⟨hEffect, hPreconditions⟩ := parse_parts hWords engine unset parser
    (rule.notMem_parts hWords) rule.notMem_closing rfl
  rw [RuleText.text] at hWhole ⊢
  simp only [parseRule, hWhole, hEffect, hPreconditions, hName, readRule]
  split
  · cases takePatterns parser.prefixes unset (patterns rule.parts).dropLast <;> rfl
  · rfl

end Words

end Qt

/-! ### A rule of two patterns -/

section Example

local instance ruleLinesQt : Qt := asciiQt

theorem isGap_nil : IsGap [] := by
  intro c hc
  cases hc

theorem isGap_blank : IsGap [' '] := by
  intro c hc
  rw [List.mem_singleton.mp hc]
  rfl

theorem isName_letter {c : Char} (h : Qt.isWordChar c = true) : IsName [c] :=
  ⟨List.cons_ne_nil _ _, fun d hd => by rwa [List.mem_singleton.mp hd]⟩

theorem notMem_letter {c : Char} (h : Qt.isWordChar c = true) : '(' ∉ ['?', c] := by
  intro hMem
  have hOpen : '(' = c := by simpa using hMem
  rw [← hOpen] at h
  cases h

/-- Three variables of one letter each. -/
def variablePattern (s p o : Char)
    (h : Qt.isWordChar s = true ∧ Qt.isWordChar p = true ∧ Qt.isWordChar o = true) : PatternText where
  subject := ['?', s]
  gap := [' ']
  predicate := ['?', p]
  gap' := [' ']
  object := ['?', o]
  gap'' := []
  tokens := ⟨isToken_iff.mpr ⟨.ofVariable [s] (isName_letter h.1), rfl⟩,
    isToken_iff.mpr ⟨.ofVariable [p] (isName_letter h.2.1), rfl⟩,
    isToken_iff.mpr ⟨.ofVariable [o] (isName_letter h.2.2), rfl⟩⟩
  gaps := ⟨isGap_blank, isGap_blank, isGap_nil⟩
  apart := ⟨List.cons_ne_nil _ _, List.cons_ne_nil _ _⟩
  plain := ⟨notMem_letter h.1, notMem_letter h.2.1, notMem_letter h.2.2⟩

theorem closed_letters {s p o : Char} (h : Qt.isWordChar s = true ∧ Qt.isWordChar p = true ∧ Qt.isWordChar o = true)
    (hClosed : ')' ≠ s ∧ ')' ≠ p ∧ ')' ≠ o) :
    (Part.pattern (variablePattern s p o h)).body ≠ [] ∧ ')' ∉ (Part.pattern (variablePattern s p o h)).body := by
  simp [Part.body, PatternText.body, variablePattern, hClosed]

theorem closed_pair {s p o : Char} (h : Qt.isWordChar s = true ∧ Qt.isWordChar p = true ∧ Qt.isWordChar o = true)
    (h' : Qt.isWordChar o = true ∧ Qt.isWordChar p = true ∧ Qt.isWordChar s = true)
    (hClosed : ')' ≠ s ∧ ')' ≠ p ∧ ')' ≠ o) :
    ∀ part ∈ [Part.pattern (variablePattern s p o h), .pattern (variablePattern o p s h')],
      part.body ≠ [] ∧ ')' ∉ part.body := by
  intro part hPart
  simp only [List.mem_cons, List.not_mem_nil, or_false] at hPart
  rcases hPart with rfl | rfl
  · exact closed_letters h hClosed
  · exact closed_letters h' ⟨hClosed.2.2, hClosed.2.1, hClosed.1⟩

/-- `[r: (?a ?b ?c) -> (?c ?b ?a)]` -/
def swapText : RuleText where
  opening := []
  name := ['r']
  gap := [' ']
  first := .pattern (variablePattern 'a' 'b' 'c' ⟨rfl, rfl, rfl⟩)
  rest := []
  arrow := ([' '], [' '])
  last := .pattern (variablePattern 'c' 'b' 'a' ⟨rfl, rfl, rfl⟩)
  closing := []
  named := isName_letter rfl
  gaps := ⟨isGap_nil, isGap_blank, isGap_blank, isGap_blank, isGap_nil⟩
  separated := by
    intro e he
    cases he
  closed := closed_pair ⟨rfl, rfl, rfl⟩ ⟨rfl, rfl, rfl⟩ ⟨by decide, by decide, by decide⟩

def swapRule : Rule :=
  ⟨[⟨.ofVariable ['a'], .ofVariable ['b'], .ofVariable ['c']⟩],
    ⟨.ofVariable ['c'], .ofVariable ['b'], .ofVariable ['a']⟩, .empty⟩

theorem parseRule_text_swap : Words ∧
    (RuleParser.mk [] []).parseRule Regex.tryAll (fun _ => false) swapText.text = (swapRule, ⟨[(['r'], swapRule)], []⟩) :=
  ⟨words_ascii, (parseRule_text words_ascii Regex.tryAll (fun _ => false) ⟨[], []⟩ swapText).trans rfl⟩

end Example

end Inference

end Soprano
