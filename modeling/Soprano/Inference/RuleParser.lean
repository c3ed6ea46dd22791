import Soprano.DateTime
import Soprano.Inference.Rule
import Soprano.Library.Codec
import Soprano.Library.Regex

/-! `RuleParser`: the lines of a rule file, which three regular expressions take apart, and the rules and prefixes
that they declare. -/

namespace Soprano

namespace Inference

open Regex

/-- Quotes of either kind. -/
def isQuote (c : Char) : Bool := c == '\x27' || c == '"'

def isUriChar (c : Char) : Bool := c != '<' && c != '>' && !isSpace c

/-- `QString::indexOf` of a text, -1 where there is none. -/
def indexOfText (text : QString) : QString → Int
  | [] => if text = [] then 0 else -1
  | c :: s =>
    if text.isPrefixOf (c :: s) then 0
    else
      let index := indexOfText text s
      if index = -1 then -1 else index + 1

/-- `QHash::insert` -/
def insertHash {β : Type} (hash : List (QString × β)) (key : QString) (value : β) : List (QString × β) :=
  (key, value) :: hash.filter fun e => e.1 ≠ key

section Qt

variable [Qt]

/-! ### The expressions -/

def wordChar : Regex Char := .one Qt.isWordChar

def space : Regex Char := .one isSpace

def spaces : Regex Char := .star space

def char (c : Char) : Regex Char := .one (· == c)

def quote : Regex Char := .one isQuote

/-- The brackets of a URI and what stands between them. -/
def bracketed : Regex Char := .chain [char '<', .plus (.one isUriChar), char '>']

/-- A text between quotes, which need not be the same. -/
def quoted : List (Regex Char) := [quote, .plus (.one fun c => !isQuote c), quote]

/-- What `s_nodePattern` matches. -/
def node : Regex Char := .oneOf
  -- a variable
  (.chain [char '?', .plus wordChar])
  [ -- a resource
    bracketed,
    -- a blank node
    .chain [char '_', .plus wordChar],
    -- a prefixed resource
    .chain [.plus wordChar, char ':', .plus wordChar],
    -- a plain literal
    .chain (quoted ++ [.optional (.chain [char '@', .plus wordChar])]),
    -- a typed literal
    .chain (quoted ++ [char '^', char '^', bracketed]),
    -- an integer
    .plus (.one Char.isDigit)]

/-- `s_nodePattern`, with the number of its group. -/
def nodePattern (k : Nat) : Regex Char := .group k node

/-- `RuleParser::Private::statementPattern` -/
def statementPattern : Regex Char :=
  .chain [char '(', nodePattern 1, spaces, nodePattern 2, spaces, nodePattern 3, spaces, char ')']

/-- A part of a rule in its brackets. -/
def bracketedPart (k : Nat) : Regex Char := .group k (.chain [char '(', .plus (.one (· != ')')), char ')'])

/-- `RuleParser::Private::ruleLine` -/
def ruleLine : Regex Char :=
  .chain [char '[', spaces, .group 1 (.plus wordChar), char ':', spaces, bracketedPart 2,
    .star (.chain [spaces, char ',', spaces, bracketedPart 3]), spaces, char '-', char '>', spaces,
    bracketedPart 4, spaces, char ']']

def oneLetter (lower upper : Char) : Regex Char := .one fun c => c == lower || c == upper

def nonSpace : Regex Char := .one fun c => !isSpace c

/-- `RuleParser::Private::prefixLine` -/
def prefixLine : Regex Char :=
  .chain [oneLetter 'p' 'P', oneLetter 'r' 'R', oneLetter 'e' 'E', oneLetter 'f' 'F', oneLetter 'i' 'I',
    oneLetter 'x' 'X', .plus space, .group 1 (.plus nonSpace), char ':', .plus space, char '<',
    .group 2 (.plus nonSpace), char '>']

/-! ### The parser -/

/-- `NodePattern()` -/
def NodePattern.invalid : NodePattern := .resource .empty

/-- `Rule()` -/
def Rule.invalid : Rule := ⟨[], ⟨.invalid, .invalid, .invalid⟩, .empty⟩

/-- `RuleParser`, by the rules of its set and its prefixes. -/
structure RuleParser where
  rules : List (QString × Rule)
  prefixes : List (QString × QUrl)

/-- `RuleParser::Private::parseNodePattern`: the pattern, and the flag where it is set. -/
def parseNodePattern (prefixes : List (QString × QUrl)) (s : QString) : NodePattern × Option Bool :=
  let first := s.headD '\x00'
  if first = '?' then (.ofVariable (s.drop 1), some true)
  else if first = '<' then (.resource (.ofUri (Qt.urlOfString (s.midAt 1 (s.length - 2)))), some true)
  else if first = '_' ∧ 2 < s.length ∧ s[1]? = some ':' then
    -- the code does not set the flag here
    (.resource (.ofIdentifier (s.drop 2)), none)
  else if isQuote first then
    let pos := indexOfText (first :: "^^<".toList) s
    if 0 < pos then
      (.resource (.ofLiteral (.fromString (s.midAt 1 (pos - 1))
        (Qt.urlOfString (s.midAt (pos + 4) (s.length - pos - 5))))), some true)
    else
      let pos := indexOfText (first :: "@".toList) s
      let lang := if 0 < pos then s.midAt (pos + 2) (s.length - pos - 3) else []
      let len : Int := if 0 < pos then s.length - 2 - (lang.length - 1) else s.length - 2
      (.resource (.ofLiteral (.createPlainLiteral (s.midAt 1 len) (.ofString lang))), some true)
  else
    match s.toInt with
    | some val => (.resource (.ofLiteral (.ofVariant (.int val))), some true)
    | none =>
      let pos := s.indexOfAt ':' 0
      let name := if pos < 0 then s else s.take pos.toNat
      match prefixes.lookup name with
      | none => (.invalid, some false)
      | some uri =>
        (.resource (.ofUri (Qt.urlOfString (Qt.urlToString uri ++ s.drop (pos + 1).toNat))), some true)

/-- `RuleParser::Private::parseMatchedStatementPattern`, with the values of the flags that no branch sets. -/
def parseMatchedStatementPattern (prefixes : List (QString × QUrl)) (unset : QString → Bool)
    (captures : Captures Char) : StatementPattern × Bool :=
  let subject := cap captures 1
  let predicate := cap captures 2
  let object := cap captures 3
  let subjectPattern := parseNodePattern prefixes subject
  let predicatePattern := parseNodePattern prefixes predicate
  let objectPattern := parseNodePattern prefixes object
  (⟨subjectPattern.1, predicatePattern.1, objectPattern.1⟩,
    subjectPattern.2.getD (unset subject) && predicatePattern.2.getD (unset predicate) &&
      objectPattern.2.getD (unset object))

namespace RuleParser

/-- The loop of `parseRule` over the matches before the effect. -/
def parsePreconditions (engine : Engine Char) (unset : QString → Bool) (parser : RuleParser) (line : QString)
    (effectPos : Nat) : Nat → Nat → List StatementPattern → Option (List StatementPattern)
  | 0, _, preconditions => some preconditions
  | turns + 1, pos, preconditions =>
    match engine.firstFrom statementPattern pos (line.drop pos) with
    | none => some preconditions
    | some (pos, found) =>
      if pos < effectPos then
        let pattern := parseMatchedStatementPattern parser.prefixes unset found.captures
        if pattern.2 then
          parsePreconditions engine unset parser line effectPos turns (pos + found.matched.length)
            (preconditions ++ [pattern.1])
        else none
      else some preconditions

/-- `RuleParser::parseRule`. A match takes at least one character, so that the loop ends. -/
def parseRule (engine : Engine Char) (unset : QString → Bool) (parser : RuleParser) (line : QString) :
    Rule × RuleParser :=
  match engine.whole ruleLine line with
  | some captures =>
    -- start with the effect statement pattern
    let found := engine.lastFrom statementPattern 0 line
    let effect := parseMatchedStatementPattern parser.prefixes unset ((found.map fun e => e.2.captures).getD [])
    if effect.2 then
      match parsePreconditions engine unset parser line ((found.map Prod.fst).getD 0) (line.length + 1) 0 [] with
      | some preconditions =>
        let rule : Rule := ⟨preconditions, effect.1, .empty⟩
        (rule, { parser with rules := insertHash parser.rules (cap captures 1) rule })
      | none => (.invalid, parser)
    else (.invalid, parser)
  | none => (.invalid, parser)

/-- `RuleParser::addPrefix` -/
def addPrefix (parser : RuleParser) (qname : QString) (uri : QUrl) : RuleParser :=
  { parser with prefixes := insertHash parser.prefixes qname uri }

/-- The loop of `parseFile` over the lines. -/
def parseLines (engine : Engine Char) (unset : QString → Bool) (parser : RuleParser) :
    List QString → Bool × RuleParser
  | [] => (true, parser)
  | line :: lines =>
    let line := line.trimmed
    if line.isEmpty || line.head? = some '#' then parseLines engine unset parser lines
    else
      match engine.whole prefixLine line with
      | some captures =>
        parseLines engine unset (parser.addPrefix (cap captures 1) (Qt.urlOfString (cap captures 2))) lines
      | none =>
        let rule := parser.parseRule engine unset line
        if rule.1.isValid then parseLines engine unset rule.2 lines else (false, rule.2)

/-- `RuleParser::parseFile`, of the lines of a file that can be opened. -/
def parseFile (engine : Engine Char) (unset : QString → Bool) (parser : RuleParser) (file : Option (List QString)) :
    Bool × RuleParser :=
  match file with
  | some lines => parseLines engine unset parser lines
  | none => (false, parser)

end RuleParser

/-! ### Nodes -/

/-- The signs of the rule language, but for the colon. -/
def signs : QString := ['?', '<', '>', '(', ')', '[', ']', ',', '@', '^', '-', '"', '\x27']

/-- The characters of words are neither white space nor signs of the rule language. -/
def Words : Prop := ∀ c, Qt.isWordChar c = true → isSpace c = false ∧ c ≠ ':' ∧ c ∉ signs

/-- A name of word characters. -/
def IsName (s : QString) : Prop := s ≠ [] ∧ ∀ c ∈ s, Qt.isWordChar c = true

/-- The text of a URI. -/
def IsUriText (s : QString) : Prop := s ≠ [] ∧ ∀ c ∈ s, isUriChar c = true

/-- The text of a literal. -/
def IsLiteralText (s : QString) : Prop := s ≠ [] ∧ ∀ c ∈ s, isQuote c = false

/-- The characters of the nodes that start with no sign. -/
def isBare (c : Char) : Bool := Qt.isWordChar c || c == ':' || c == '_' || c.isDigit

/-- What stands behind the quotes of a literal. -/
inductive Suffix where
  | plain
  | lang (tag : QString) (h : IsName tag)
  | typed (u : QString) (h : IsUriText u)

def Suffix.text : Suffix → QString
  | plain => []
  | lang tag _ => '@' :: tag
  | typed u _ => '^' :: '^' :: '<' :: (u ++ ['>'])

/-- The terms that the comments of the node pattern list. -/
inductive Term where
  | ofVariable (name : QString) (h : IsName name)
  | resource (u : QString) (h : IsUriText u)
  | blankNode (name : QString) (h : IsName name)
  | prefixed (qname name : QString) (h : IsName qname) (h' : IsName name)
  | literal (q q' : Char) (text : QString) (suffix : Suffix) (hOpen : isQuote q = true) (hClose : isQuote q' = true)
      (hText : IsLiteralText text)
  | integer (digits : QString) (h : QString.Digits digits)

def Term.text : Term → QString
  | ofVariable name _ => '?' :: name
  | resource u _ => '<' :: (u ++ ['>'])
  | blankNode name _ => '_' :: name
  | prefixed qname name _ _ => qname ++ ':' :: name
  | literal q q' text suffix _ _ _ => q :: (text ++ q' :: suffix.text)
  | integer digits _ => digits

/-- What stands behind the quotes of a literal. -/
inductive IsSuffix : QString → Prop
  | plain : IsSuffix []
  | lang {tag : QString} (h : IsName tag) : IsSuffix ('@' :: tag)
  | typed {u : QString} (h : IsUriText u) : IsSuffix ('^' :: '^' :: '<' :: (u ++ ['>']))

/-- The forms of a node. -/
inductive IsNode : QString → Prop
  | ofVariable {name : QString} (h : IsName name) : IsNode ('?' :: name)
  | resource {u : QString} (h : IsUriText u) : IsNode ('<' :: (u ++ ['>']))
  | literal {q q' : Char} {text suffix : QString} (hOpen : isQuote q = true) (hClose : isQuote q' = true)
      (hText : IsLiteralText text) (hSuffix : IsSuffix suffix) : IsNode (q :: (text ++ q' :: suffix))
  | bare {s : QString} (hSome : s ≠ []) (h : ∀ c ∈ s, isBare c = true) : IsNode s

/-- A text that the node pattern matches. -/
def IsToken (s : QString) : Prop := ∃ c, Regex.Matches node s c

omit [Qt] in
theorem matches_char {c : Char} {w : QString} {d : Captures Char} :
    Regex.Matches (char c) w d ↔ w = [c] ∧ d = [] := by
  simp [char]

theorem matches_name {w : QString} {d : Captures Char} :
    Regex.Matches (.plus wordChar) w d ↔ IsName w ∧ d = [] := by
  rw [wordChar, matches_plus_one, IsName, and_assoc]

omit [Qt] in
theorem matches_bracketed {w : QString} {d : Captures Char} :
    Regex.Matches bracketed w d ↔ (∃ u, IsUriText u ∧ w = '<' :: (u ++ ['>'])) ∧ d = [] := by
  simp only [bracketed, matches_chain_cons, matches_char, matches_plus_one, matches_chain_nil]
  constructor
  · rintro ⟨_, _, _, _, ⟨rfl, rfl⟩, ⟨u, _, _, _, ⟨hSome, hAll, rfl⟩, ⟨_, _, _, _, ⟨rfl, rfl⟩, ⟨rfl, rfl⟩, rfl, rfl⟩,
      rfl, rfl⟩, rfl, rfl⟩
    exact ⟨⟨u, ⟨hSome, hAll⟩, rfl⟩, rfl⟩
  · rintro ⟨⟨u, ⟨hSome, hAll⟩, rfl⟩, rfl⟩
    exact ⟨['<'], _, [], [], ⟨rfl, rfl⟩, ⟨u, _, [], [], ⟨hSome, hAll, rfl⟩, ⟨['>'], _, [], [], ⟨rfl, rfl⟩, ⟨rfl, rfl⟩,
      rfl, rfl⟩, rfl, rfl⟩, rfl, rfl⟩

omit [Qt] in
/-- A quoted text and what the rest of the chain matches. -/
theorem matches_quoted {rs : List (Regex Char)} {w : QString} {d : Captures Char} :
    Regex.Matches (.chain (quoted ++ rs)) w d ↔ ∃ q text q' suffix, isQuote q = true ∧ IsLiteralText text ∧
      isQuote q' = true ∧ Regex.Matches (.chain rs) suffix d ∧ w = q :: (text ++ q' :: suffix) := by
  simp only [quoted, List.cons_append, List.nil_append, matches_chain_cons, quote, matches_one, matches_plus_one]
  constructor
  · rintro ⟨_, _, _, _, ⟨⟨q, hq, rfl⟩, rfl⟩, ⟨text, _, _, _, ⟨hSome, hAll, rfl⟩, ⟨_, suffix, _, _,
      ⟨⟨q', hq', rfl⟩, rfl⟩, hRest, rfl, rfl⟩, rfl, rfl⟩, rfl, rfl⟩
    exact ⟨q, text, q', suffix, hq, ⟨hSome, fun c hc => by simpa using hAll c hc⟩, hq', hRest, rfl⟩
  · rintro ⟨q, text, q', suffix, hq, ⟨hSome, hAll⟩, hq', hRest, rfl⟩
    exact ⟨[q], _, [], d, ⟨⟨q, hq, rfl⟩, rfl⟩, ⟨text, _, [], d, ⟨hSome, fun c hc => by simp [hAll c hc], rfl⟩,
      ⟨[q'], suffix, [], d, ⟨⟨q', hq', rfl⟩, rfl⟩, hRest, rfl, rfl⟩, rfl, rfl⟩, rfl, rfl⟩

theorem isBare_of_isName {s : QString} (h : IsName s) : ∀ c ∈ s, isBare c = true :=
  fun c hc => by simp [isBare, h.2 c hc]

/-- A sign and a name. -/
theorem matches_signed {c : Char} {w : QString} {d : Captures Char} :
    Regex.Matches (.chain [char c, .plus wordChar]) w d ↔ (∃ name, IsName name ∧ w = c :: name) ∧ d = [] := by
  simp only [matches_chain_cons, matches_char, matches_name, matches_chain_nil]
  constructor
  · rintro ⟨_, _, _, _, ⟨rfl, rfl⟩, ⟨name, _, _, _, ⟨hName, rfl⟩, ⟨rfl, rfl⟩, rfl, rfl⟩, rfl, rfl⟩
    exact ⟨⟨name, hName, by simp⟩, rfl⟩
  · rintro ⟨⟨name, hName, rfl⟩, rfl⟩
    exact ⟨[c], _, [], [], ⟨rfl, rfl⟩, ⟨name, [], [], [], ⟨hName, rfl⟩, ⟨rfl, rfl⟩, by simp, rfl⟩, rfl, rfl⟩

/-- Two names with a colon between them. -/
theorem matches_prefixed {w : QString} {d : Captures Char} :
    Regex.Matches (.chain [.plus wordChar, char ':', .plus wordChar]) w d ↔
      (∃ qname name, IsName qname ∧ IsName name ∧ w = qname ++ ':' :: name) ∧ d = [] := by
  rw [matches_chain_cons]
  simp only [matches_name, matches_signed]
  constructor
  · rintro ⟨qname, _, _, _, ⟨hName, rfl⟩, ⟨⟨name, hName', rfl⟩, rfl⟩, rfl, rfl⟩
    exact ⟨⟨qname, name, hName, hName', rfl⟩, rfl⟩
  · rintro ⟨⟨qname, name, hName, hName', rfl⟩, rfl⟩
    exact ⟨qname, _, [], [], ⟨hName, rfl⟩, ⟨⟨name, hName', rfl⟩, rfl⟩, rfl, rfl⟩

omit [Qt] in
/-- The data type of a literal. -/
theorem matches_dataType {w : QString} {d : Captures Char} :
    Regex.Matches (.chain [char '^', char '^', bracketed]) w d ↔
      (∃ u, IsUriText u ∧ w = '^' :: '^' :: '<' :: (u ++ ['>'])) ∧ d = [] := by
  simp only [matches_chain_cons, matches_char, matches_bracketed, matches_chain_nil]
  constructor
  · rintro ⟨_, _, _, _, ⟨rfl, rfl⟩, ⟨_, _, _, _, ⟨rfl, rfl⟩, ⟨_, _, _, _, ⟨⟨u, hu, rfl⟩, rfl⟩, ⟨rfl, rfl⟩, rfl, rfl⟩,
      rfl, rfl⟩, rfl, rfl⟩
    exact ⟨⟨u, hu, by simp⟩, rfl⟩
  · rintro ⟨⟨u, hu, rfl⟩, rfl⟩
    exact ⟨['^'], _, [], [], ⟨rfl, rfl⟩, ⟨['^'], _, [], [], ⟨rfl, rfl⟩, ⟨_, [], [], [], ⟨⟨u, hu, rfl⟩, rfl⟩, ⟨rfl, rfl⟩,
      by simp, rfl⟩, rfl, rfl⟩, rfl, rfl⟩

/-- The language of a literal, if it has one. -/
theorem matches_language {w : QString} {d : Captures Char} :
    Regex.Matches (.chain [.optional (.chain [char '@', .plus wordChar])]) w d ↔
      ((∃ tag, IsName tag ∧ w = '@' :: tag) ∨ w = []) ∧ d = [] := by
  rw [matches_chain_cons]
  simp only [matches_optional, matches_signed, matches_chain_nil]
  constructor
  · rintro ⟨tag, _, _, _, ⟨⟨name, hName, rfl⟩, rfl⟩ | ⟨rfl, rfl⟩, ⟨rfl, rfl⟩, rfl, rfl⟩
    · exact ⟨.inl ⟨name, hName, by simp⟩, rfl⟩
    · exact ⟨.inr rfl, rfl⟩
  · rintro ⟨⟨tag, hName, rfl⟩ | rfl, rfl⟩
    · exact ⟨'@' :: tag, [], [], [], .inl ⟨⟨tag, hName, rfl⟩, rfl⟩, ⟨rfl, rfl⟩, by simp, rfl⟩
    · exact ⟨[], [], [], [], .inr ⟨rfl, rfl⟩, ⟨rfl, rfl⟩, rfl, rfl⟩

/-- The pattern matches the texts of the terms. -/
theorem matches_node {w : QString} {d : Captures Char} :
    Regex.Matches node w d ↔ (∃ t : Term, w = t.text) ∧ d = [] := by
  simp only [node, matches_oneOf_cons, matches_oneOf_nil, matches_signed, matches_bracketed, matches_prefixed,
    matches_quoted, matches_language, matches_dataType, matches_plus_one]
  constructor
  · rintro (⟨⟨name, hName, rfl⟩, rfl⟩ | ⟨⟨u, hu, rfl⟩, rfl⟩ | ⟨⟨name, hName, rfl⟩, rfl⟩ |
      ⟨⟨qname, name, hName, hName', rfl⟩, rfl⟩ | ⟨q, text, q', _, hq, hText, hq', ⟨hTag, rfl⟩, rfl⟩ |
      ⟨q, text, q', _, hq, hText, hq', ⟨⟨u, hu, rfl⟩, rfl⟩, rfl⟩ | ⟨hSome, hAll, rfl⟩)
    · exact ⟨⟨.ofVariable name hName, rfl⟩, rfl⟩
    · exact ⟨⟨.resource u hu, rfl⟩, rfl⟩
    · exact ⟨⟨.blankNode name hName, rfl⟩, rfl⟩
    · exact ⟨⟨.prefixed qname name hName hName', rfl⟩, rfl⟩
    · rcases hTag with ⟨tag, hTag, rfl⟩ | rfl
      · exact ⟨⟨.literal q q' text (.lang tag hTag) hq hq' hText, rfl⟩, rfl⟩
      · exact ⟨⟨.literal q q' text .plain hq hq' hText, rfl⟩, rfl⟩
    · exact ⟨⟨.literal q q' text (.typed u hu) hq hq' hText, rfl⟩, rfl⟩
    · exact ⟨⟨.integer w ⟨hSome, hAll⟩, rfl⟩, rfl⟩
  · rintro ⟨⟨t, rfl⟩, rfl⟩
    cases t with
    | ofVariable name h => exact .inl ⟨⟨name, h, rfl⟩, rfl⟩
    | resource u h => exact .inr (.inl ⟨⟨u, h, rfl⟩, rfl⟩)
    | blankNode name h => exact .inr (.inr (.inl ⟨⟨name, h, rfl⟩, rfl⟩))
    | prefixed qname name h h' => exact .inr (.inr (.inr (.inl ⟨⟨qname, name, h, h', rfl⟩, rfl⟩)))
    | literal q q' text suffix hOpen hClose hText =>
      cases suffix with
      | plain =>
        exact .inr (.inr (.inr (.inr (.inl ⟨q, text, q', _, hOpen, hText, hClose, ⟨.inr rfl, rfl⟩, rfl⟩))))
      | lang tag h =>
        exact .inr (.inr (.inr (.inr (.inl ⟨q, text, q', _, hOpen, hText, hClose, ⟨.inl ⟨tag, h, rfl⟩, rfl⟩, rfl⟩))))
      | typed u h =>
        exact .inr (.inr (.inr (.inr (.inr (.inl
          ⟨q, text, q', _, hOpen, hText, hClose, ⟨⟨u, h, rfl⟩, rfl⟩, rfl⟩)))))
    | integer digits h => exact .inr (.inr (.inr (.inr (.inr (.inr ⟨h.1, h.2, rfl⟩)))))

theorem isToken_iff {s : QString} : IsToken s ↔ ∃ t : Term, s = t.text := by
  simp [IsToken, matches_node]

/-- The form of a term. -/
theorem Term.isNode (t : Term) : IsNode t.text := by
  cases t with
  | ofVariable name h => exact .ofVariable h
  | resource u h => exact .resource h
  | blankNode name h =>
    refine .bare (List.cons_ne_nil _ _) fun c hc => ?_
    rcases List.mem_cons.mp hc with rfl | hc
    · simp [isBare]
    · exact isBare_of_isName h c hc
  | prefixed qname name h h' =>
    refine .bare (by simp [Term.text]) fun c hc => ?_
    rcases List.mem_append.mp hc with hc | hc
    · exact isBare_of_isName h c hc
    · rcases List.mem_cons.mp hc with rfl | hc
      · simp [isBare]
      · exact isBare_of_isName h' c hc
  | literal q q' text suffix hOpen hClose hText =>
    cases suffix with
    | plain => exact .literal hOpen hClose hText .plain
    | lang tag h => exact .literal hOpen hClose hText (.lang h)
    | typed u h => exact .literal hOpen hClose hText (.typed h)
  | integer digits h => exact .bare h.1 fun c hc => by simp [isBare, h.2 c hc]

/-! ### Where a node ends -/

omit [Qt] in
/-- A run of characters of a kind ends within a text that is followed by another character. -/
theorem exists_of_run {p : Char → Bool} {n y t z : QString} (hn : ∀ c ∈ n, p c = true)
    (hz : ∀ c, z.head? = some c → p c = false) (h : n ++ y = t ++ z) : ∃ r, t = n ++ r ∧ y = r ++ z := by
  rcases List.append_eq_append_iff.mp h with hInside | ⟨r, rfl, hBehind⟩
  · exact hInside
  · cases r with
    | nil => exact ⟨[], by simp, by simpa using hBehind.symm⟩
    | cons c r =>
      have hFalse := hz c (by rw [hBehind]; rfl)
      rw [hn c (by simp)] at hFalse
      cases hFalse

omit [Qt] in
/-- Where a character of a kind ends the first part, the parts are determined. -/
theorem split_inj {p : Char → Bool} {w w' rest rest' : QString} {a a' : Char} (hw : ∀ c ∈ w, p c = false)
    (hw' : ∀ c ∈ w', p c = false) (ha : p a = true) (ha' : p a' = true) (h : w ++ a :: rest = w' ++ a' :: rest') :
    w = w' ∧ a = a' ∧ rest = rest' := by
  have hRun : ∀ {c}, p c = true → ∀ d, (c :: rest').head? = some d → (!p d) = false := by
    intro c hc d hd
    cases hd
    simp [hc]
  obtain ⟨r, rfl, hBehind⟩ := exists_of_run (p := fun c => !p c) (fun c hc => by simp [hw c hc]) (hRun ha') h
  cases r with
  | nil =>
    obtain ⟨rfl, rfl⟩ := List.cons.inj hBehind
    exact ⟨by simp, rfl, rfl⟩
  | cons c r =>
    obtain ⟨rfl, -⟩ := List.cons.inj hBehind
    rw [hw' a (by simp)] at ha
    cases ha

/-- What follows a node: white space or the closing bracket. -/
def Ends (z : QString) : Prop := ∃ c rest, z = c :: rest ∧ (isSpace c = true ∨ c = ')')

/-- What can be left of a node behind a shorter one. -/
def IsTail (r : QString) : Prop :=
  (∀ c ∈ r, isBare c = true) ∨ ∃ c rest, r = c :: rest ∧ (c = '@' ∨ c = '^')

section Words

variable (hWords : Words)

include hWords

theorem isBare_of_sign {c : Char} (h : c ∈ signs) : isBare c = false := by
  have hWord : Qt.isWordChar c = false := by
    rw [← Bool.not_eq_true]
    exact fun hTrue => (hWords c hTrue).2.2 h
  have hOther : c ≠ ':' ∧ c ≠ '_' ∧ c.isDigit = false := by
    simp only [signs, List.mem_cons, List.not_mem_nil, or_false] at h
    rcases h with rfl | rfl | rfl | rfl | rfl | rfl | rfl | rfl | rfl | rfl | rfl | rfl | rfl <;> decide
  simp [isBare, hWord, hOther]

theorem isBare_of_space {c : Char} (h : isSpace c = true) : isBare c = false := by
  have hWord : Qt.isWordChar c = false := by
    rw [← Bool.not_eq_true]
    intro hTrue
    rw [(hWords c hTrue).1] at h
    cases h
  have hDigit : c.isDigit = false := by
    rw [← Bool.not_eq_true]
    intro hTrue
    rw [QString.isSpace_of_isDigit hTrue] at h
    cases h
  have hOther : c ≠ ':' ∧ c ≠ '_' := by
    constructor <;> (rintro rfl; cases h)
  simp [isBare, hWord, hDigit, hOther]

theorem Ends.isBare {z : QString} (h : Ends z) : ∀ c, z.head? = some c → isBare c = false := by
  obtain ⟨c, rest, rfl, hEnd⟩ := h
  intro d hd
  cases hd
  rcases hEnd with hSpace | rfl
  · exact isBare_of_space hWords hSpace
  · exact isBare_of_sign hWords (by decide)

theorem Ends.isWordChar {z : QString} (h : Ends z) : ∀ c, z.head? = some c → Qt.isWordChar c = false := by
  intro c hc
  have hBare := h.isBare hWords c hc
  simp only [Inference.isBare, Bool.or_eq_false_iff] at hBare
  exact hBare.1.1.1

/-- What stands behind the quotes of a literal ends with the literal. -/
theorem exists_of_suffix {suffix suffix' y z : QString} (h : IsSuffix suffix) (h' : IsSuffix suffix') (hz : Ends z)
    (hEq : suffix' ++ y = suffix ++ z) : ∃ r, suffix = suffix' ++ r ∧ y = r ++ z ∧ IsTail r := by
  obtain ⟨c, rest, hBehind, hEnd⟩ := hz
  have hNe : c ≠ '@' ∧ c ≠ '^' := by
    constructor <;> (rintro rfl; rcases hEnd with hEnd | hEnd <;> cases hEnd)
  cases h' with
  | plain =>
    refine ⟨suffix, rfl, hEq, ?_⟩
    cases h with
    | plain => exact .inl fun _ hMem => absurd hMem List.not_mem_nil
    | lang => exact .inr ⟨_, _, rfl, .inl rfl⟩
    | typed => exact .inr ⟨_, _, rfl, .inr rfl⟩
  | lang hTag' =>
    cases h with
    | plain =>
      rw [hBehind] at hEq
      exact absurd (List.cons.inj hEq).1.symm hNe.1
    | lang hTag =>
      obtain ⟨r, rfl, hRest⟩ := exists_of_run hTag'.2 (Ends.isWordChar hWords ⟨c, rest, hBehind, hEnd⟩)
        (List.cons.inj hEq).2
      exact ⟨r, rfl, hRest, .inl fun d hd => by simp [isBare, hTag.2 d (by simp [hd])]⟩
    | typed => cases (List.cons.inj hEq).1
  | typed hUri' =>
    cases h with
    | plain =>
      rw [hBehind] at hEq
      exact absurd (List.cons.inj hEq).1.symm hNe.2
    | lang => cases (List.cons.inj hEq).1
    | typed hUri =>
      simp only [List.cons_append, List.append_assoc, List.nil_append, List.cons.injEq, true_and] at hEq
      have hClose : ∀ {u : QString}, IsUriText u → '>' ∉ u := fun hu hMem => by cases hu.2 _ hMem
      obtain ⟨rfl, hRest⟩ := (Codec.Reads.append_cons_inj (hClose hUri') (hClose hUri)).mp hEq
      exact ⟨[], by simp, hRest, .inl fun _ hMem => absurd hMem List.not_mem_nil⟩

omit hWords in
/-- The sign that a node starts with, if it starts with one. -/
theorem IsNode.head {n : QString} (h : IsNode n) : ∃ c rest, n = c :: rest ∧
    (c = '?' ∨ c = '<' ∨ isQuote c = true ∨ isBare c = true) := by
  cases h with
  | ofVariable => exact ⟨_, _, rfl, .inl rfl⟩
  | resource => exact ⟨_, _, rfl, .inr (.inl rfl)⟩
  | literal hOpen => exact ⟨_, _, rfl, .inr (.inr (.inl hOpen))⟩
  | bare hSome hAll =>
    cases n with
    | nil => exact absurd rfl hSome
    | cons c rest => exact ⟨c, rest, rfl, .inr (.inr (.inr (hAll c (by simp))))⟩

theorem isBare_of_quote {c : Char} (h : isQuote c = true) : isBare c = false := by
  have hQuote : c = '\x27' ∨ c = '"' := by simpa [isQuote] using h
  rcases hQuote with rfl | rfl
  · exact isBare_of_sign hWords (by decide)
  · exact isBare_of_sign hWords (by decide)

/-- A node that starts with a character of names has no others. -/
theorem IsNode.bare_of_head {n rest : QString} {c : Char} (h : IsNode n) (hHead : n = c :: rest)
    (hBare : isBare c = true) : ∀ d ∈ n, isBare d = true := by
  cases h with
  | ofVariable =>
    obtain ⟨rfl, -⟩ := List.cons.inj hHead
    rw [isBare_of_sign hWords (by decide)] at hBare
    cases hBare
  | resource =>
    obtain ⟨rfl, -⟩ := List.cons.inj hHead
    rw [isBare_of_sign hWords (by decide)] at hBare
    cases hBare
  | literal hOpen =>
    obtain ⟨rfl, -⟩ := List.cons.inj hHead
    rw [isBare_of_quote hWords hOpen] at hBare
    cases hBare
  | bare _ hAll => exact hAll

/-- A node at the start of another one ends in it. -/
theorem exists_of_node {t n y z : QString} (ht : IsNode t) (hn : IsNode n) (hz : Ends z) (h : n ++ y = t ++ z) :
    ∃ r, t = n ++ r ∧ y = r ++ z ∧ IsTail r := by
  have hQuestion := isBare_of_sign hWords (c := '?') (by decide)
  have hOpen := isBare_of_sign hWords (c := '<') (by decide)
  cases ht with
  | @ofVariable name hName =>
    cases hn with
    | ofVariable hName' =>
      obtain ⟨r, rfl, hRest⟩ := exists_of_run hName'.2 (hz.isWordChar hWords) (List.cons.inj h).2
      exact ⟨r, rfl, hRest, .inl fun d hd => by simp [isBare, hName.2 d (by simp [hd])]⟩
    | resource => cases (List.cons.inj h).1
    | literal hQuote =>
      rw [(List.cons.inj h).1] at hQuote
      cases hQuote
    | bare hSome hAll =>
      cases n with
      | nil => exact absurd rfl hSome
      | cons c n =>
        have hBare := hAll c (by simp)
        rw [(List.cons.inj h).1, hQuestion] at hBare
        cases hBare
  | @resource u hUri =>
    cases hn with
    | ofVariable => cases (List.cons.inj h).1
    | @resource u' hUri' =>
      simp only [List.cons_append, List.append_assoc, List.nil_append, List.cons.injEq, true_and] at h
      have hClose : ∀ {u : QString}, IsUriText u → '>' ∉ u := fun hu hMem => by cases hu.2 _ hMem
      obtain ⟨rfl, hRest⟩ := (Codec.Reads.append_cons_inj (hClose hUri') (hClose hUri)).mp h
      exact ⟨[], by simp, hRest, .inl fun _ hMem => absurd hMem List.not_mem_nil⟩
    | literal hQuote =>
      rw [(List.cons.inj h).1] at hQuote
      cases hQuote
    | bare hSome hAll =>
      cases n with
      | nil => exact absurd rfl hSome
      | cons c n =>
        have hBare := hAll c (by simp)
        rw [(List.cons.inj h).1, hOpen] at hBare
        cases hBare
  | @literal q q' text suffix hQuote hQuote' hText hSuffix =>
    cases hn with
    | ofVariable =>
      rw [← (List.cons.inj h).1] at hQuote
      cases hQuote
    | resource =>
      rw [← (List.cons.inj h).1] at hQuote
      cases hQuote
    | @literal _ closing text' suffix' _ hClose hText' hSuffix' =>
      obtain ⟨rfl, hBehind⟩ := List.cons.inj h
      have hSame : (text' ++ closing :: suffix') ++ y = (text ++ q' :: suffix) ++ z := hBehind
      rw [List.append_assoc, List.append_assoc] at hSame
      obtain ⟨rfl, rfl, hRest⟩ := split_inj hText'.2 hText.2 hClose hQuote' hSame
      obtain ⟨r, rfl, hLeft, hTail⟩ := exists_of_suffix hWords hSuffix hSuffix' hz hRest
      exact ⟨r, by simp, hLeft, hTail⟩
    | bare hSome hAll =>
      cases n with
      | nil => exact absurd rfl hSome
      | cons c n =>
        have hBare := hAll c (by simp)
        rw [(List.cons.inj h).1, isBare_of_quote hWords hQuote] at hBare
        cases hBare
  | bare hSome hAll =>
    cases t with
    | nil => exact absurd rfl hSome
    | cons c t =>
      obtain ⟨c', rest, rfl, -⟩ := hn.head
      obtain ⟨rfl, -⟩ := List.cons.inj h
      have hBare := hn.bare_of_head hWords rfl (hAll c' (by simp))
      obtain ⟨r, hSplit, hRest⟩ := exists_of_run hBare (hz.isBare hWords) h
      exact ⟨r, hSplit, hRest, .inl fun d hd => hAll d (by rw [hSplit]; simp [hd])⟩

/-- So does one at the start of what is left of a node. -/
theorem exists_of_tail {r n y z : QString} (hr : IsTail r) (hSome : r ≠ []) (hn : IsNode n) (hz : Ends z)
    (h : n ++ y = r ++ z) : ∃ r', r = n ++ r' ∧ y = r' ++ z ∧ IsTail r' := by
  obtain ⟨c, rest, rfl, hHead⟩ := hn.head
  cases r with
  | nil => exact absurd rfl hSome
  | cons c' r =>
    obtain ⟨rfl, -⟩ := List.cons.inj h
    rcases hr with hAll | ⟨c', rest', hEq, hSign⟩
    · have hBare := hn.bare_of_head hWords rfl (hAll c (by simp))
      obtain ⟨r', hSplit, hRest⟩ := exists_of_run hBare (hz.isBare hWords) h
      exact ⟨r', hSplit, hRest, .inl fun d hd => hAll d (by rw [hSplit]; simp [hd])⟩
    · obtain ⟨rfl, -⟩ := List.cons.inj hEq
      have hBare : isBare c = false := isBare_of_sign hWords (by rcases hSign with rfl | rfl <;> decide)
      rcases hSign with rfl | rfl
      all_goals
        rcases hHead with hEq | hEq | hQuote | hTrue
        · cases hEq
        · cases hEq
        · cases hQuote
        · rw [hTrue] at hBare
          cases hBare

/-! ### A statement pattern is taken apart in one way -/

/-- White space. -/
def IsGap (s : QString) : Prop := ∀ c ∈ s, isSpace c = true

/-- The text is a row of nodes, each with the white space behind it. -/
def Nodes : List QString → QString → QString → Prop
  | [], text, rest => text = rest
  | n :: ns, text, rest => ∃ gap behind, IsNode n ∧ IsGap gap ∧ text = n ++ (gap ++ behind) ∧ Nodes ns behind rest

/-- Nodes with the white space behind each: there is some but behind the last one. -/
def Spaced : List (QString × QString) → Prop
  | [] => True
  | [e] => IsNode e.1 ∧ IsGap e.2
  | e :: e' :: rest => IsNode e.1 ∧ IsGap e.2 ∧ e.2 ≠ [] ∧ Spaced (e' :: rest)

def rowText (row : List (QString × QString)) : QString := row.flatMap fun e => e.1 ++ e.2

omit hWords in
theorem Spaced.cons {e : QString × QString} {row : List (QString × QString)} (h : Spaced (e :: row)) :
    IsNode e.1 ∧ IsGap e.2 ∧ (e.2 ≠ [] ∨ row = []) ∧ Spaced row := by
  cases row with
  | nil => exact ⟨h.1, h.2, .inr rfl, trivial⟩
  | cons e' row => exact ⟨h.1, h.2.1, .inl h.2.2.1, h.2.2.2⟩

/-- A node starts with no white space. -/
theorem IsNode.isSpace_head {n : QString} (h : IsNode n) : ∀ c, n.head? = some c → isSpace c = false := by
  obtain ⟨c, rest, rfl, hHead⟩ := h.head
  intro d hd
  cases hd
  rw [← Bool.not_eq_true]
  intro hSpace
  rcases hHead with rfl | rfl | hQuote | hBare
  · cases hSpace
  · cases hSpace
  · have hEither : c = '\x27' ∨ c = '"' := by simpa [isQuote] using hQuote
    rcases hEither with rfl | rfl <;> cases hSpace
  · rw [isBare_of_space hWords hSpace] at hBare
    cases hBare

/-- Nor is it the closing bracket. -/
theorem IsNode.head_ne {n : QString} (h : IsNode n) : n.head? ≠ some ')' := by
  obtain ⟨c, rest, rfl, hHead⟩ := h.head
  intro hClose
  cases hClose
  rcases hHead with hEq | hEq | hQuote | hBare
  · cases hEq
  · cases hEq
  · cases hQuote
  · rw [isBare_of_sign hWords (by decide)] at hBare
    cases hBare

theorem isSpace_head_row {row : List (QString × QString)} (h : Spaced row) (rest : QString) :
    ∀ c, (rowText row ++ ')' :: rest).head? = some c → isSpace c = false := by
  cases row with
  | nil =>
    intro c hc
    cases hc
    rfl
  | cons e row =>
    obtain ⟨hNode, -⟩ := h.cons
    intro c hc
    refine hNode.isSpace_head hWords c ?_
    obtain ⟨d, behind, hEq, -⟩ := hNode.head
    rw [rowText, List.flatMap_cons, hEq] at hc
    rw [hEq]
    exact hc

omit [Qt] hWords in
/-- White space is followed by something else in one way only. -/
theorem gap_inj {gap gap' behind behind' : QString} (hGap : IsGap gap) (hGap' : IsGap gap')
    (hBehind : ∀ c, behind.head? = some c → isSpace c = false)
    (hBehind' : ∀ c, behind'.head? = some c → isSpace c = false) (h : gap ++ behind = gap' ++ behind') :
    gap = gap' ∧ behind = behind' := by
  obtain ⟨r, rfl, hLeft⟩ := exists_of_run hGap hBehind' h
  cases r with
  | nil => exact ⟨by simp, by simpa using hLeft⟩
  | cons c r =>
    have hSpace := hBehind c (by rw [hLeft]; rfl)
    rw [hGap' c (by simp)] at hSpace
    cases hSpace

theorem isSpace_head_nodes {ns : List QString} {text rest : QString} (h : Nodes ns text (')' :: rest)) :
    ∀ c, text.head? = some c → isSpace c = false := by
  cases ns with
  | nil =>
    obtain rfl : text = ')' :: rest := h
    intro c hc
    cases hc
    rfl
  | cons n ns =>
    obtain ⟨gap, behind, hNode, -, rfl, -⟩ := h
    intro c hc
    refine hNode.isSpace_head hWords c ?_
    obtain ⟨d, left, hEq, -⟩ := hNode.head
    rw [hEq] at hc ⊢
    exact hc

omit [Qt] hWords in
/-- What follows a node of a row ends it. -/
theorem ends_of_spaced {gap : QString} {row : List (QString × QString)} (hGap : IsGap gap)
    (hSome : gap ≠ [] ∨ row = []) (rest : QString) : Ends (gap ++ (rowText row ++ ')' :: rest)) := by
  cases gap with
  | nil =>
    obtain rfl := hSome.resolve_left (fun h => h rfl)
    exact ⟨_, _, rfl, .inr rfl⟩
  | cons c gap => exact ⟨c, _, rfl, .inl (hGap c (by simp))⟩

/-- What is left of a node starts with neither white space nor a closing bracket. -/
theorem IsTail.head {r : QString} (h : IsTail r) : ∀ c, r.head? = some c → isSpace c = false ∧ c ≠ ')' := by
  intro c hc
  rcases h with hAll | ⟨d, rest, rfl, hSign⟩
  · have hBare := hAll c (List.mem_of_head? hc)
    constructor
    · rw [← Bool.not_eq_true]
      intro hSpace
      rw [isBare_of_space hWords hSpace] at hBare
      cases hBare
    · rintro rfl
      rw [isBare_of_sign hWords (by decide)] at hBare
      cases hBare
  · cases hc
    rcases hSign with rfl | rfl <;> exact ⟨rfl, by decide⟩

/-- No white space stands in front of it. -/
theorem gap_eq_nil {r gap behind z : QString} (hr : IsTail r) (hSome : r ≠ []) (hGap : IsGap gap)
    (h : gap ++ behind = r ++ z) : gap = [] ∧ behind = r ++ z := by
  cases gap with
  | nil => exact ⟨rfl, h⟩
  | cons c gap =>
    cases r with
    | nil => exact absurd rfl hSome
    | cons d r =>
      have hSpace := (hr.head hWords d rfl).1
      rw [← (List.cons.inj h).1, hGap c (by simp)] at hSpace
      cases hSpace

/-- A row of nodes is read as no fewer nodes, and as itself if as no more. -/
theorem nodes_spaced {ns : List QString} :
    (∀ {row : List (QString × QString)} {rest rest' : QString}, Spaced row →
      Nodes ns (rowText row ++ ')' :: rest) (')' :: rest') →
        row.length ≤ ns.length ∧ (ns.length = row.length → ns = row.map Prod.fst ∧ rest' = rest)) ∧
    (∀ {r gap : QString} {row : List (QString × QString)} {rest rest' : QString}, IsTail r → r ≠ [] → IsGap gap →
      (gap ≠ [] ∨ row = []) → Spaced row →
        Nodes ns (r ++ (gap ++ (rowText row ++ ')' :: rest))) (')' :: rest') → row.length < ns.length) := by
  induction ns with
  | nil =>
    refine ⟨fun {row rest rest'} hRow hNodes => ?_, fun {r gap row rest rest'} hTail hSome _ _ _ hNodes => ?_⟩
    · cases row with
      | nil => exact ⟨Nat.le_refl _, fun _ => ⟨rfl, (List.cons.inj hNodes).2.symm⟩⟩
      | cons e row =>
        obtain ⟨hNode, -⟩ := hRow.cons
        obtain ⟨c, behind, hEq, -⟩ := hNode.head
        have hClose := hNode.head_ne hWords
        rw [Nodes, rowText, List.flatMap_cons, hEq] at hNodes
        rw [hEq, (List.cons.inj hNodes).1] at hClose
        exact absurd rfl hClose
    · cases r with
      | nil => exact absurd rfl hSome
      | cons c r => exact absurd (List.cons.inj hNodes).1 (hTail.head hWords c rfl).2
  | cons n ns ih =>
    refine ⟨fun {row rest rest'} hRow hNodes => ?_, fun {r gap row rest rest'} hTail hSome hGap hEnd hRow hNodes => ?_⟩
    · obtain ⟨gap, behind, hNode, hGap, hText, hBehind⟩ := hNodes
      cases row with
      | nil =>
        obtain ⟨c, left, rfl, -⟩ := hNode.head
        have hClose := hNode.head_ne hWords
        rw [(List.cons.inj hText).1.symm] at hClose
        exact absurd rfl hClose
      | cons e row =>
        obtain ⟨hToken, hGap', hEnd, hRest⟩ := hRow.cons
        have hSame : n ++ (gap ++ behind) = e.1 ++ (e.2 ++ (rowText row ++ ')' :: rest)) := by
          rw [← hText, rowText, List.flatMap_cons, rowText]
          simp
        obtain ⟨r, hSplit, hLeft, hTail⟩ :=
          exists_of_node hWords hToken hNode (ends_of_spaced hGap' hEnd rest) hSame
        by_cases hSome : r = []
        · -- the node is the first one of the row
          subst hSome
          obtain ⟨rfl, rfl⟩ := gap_inj hGap hGap' (isSpace_head_nodes hWords hBehind)
            (isSpace_head_row hWords hRest rest) hLeft
          obtain ⟨hLength, hEqual⟩ := ih.1 hRest hBehind
          refine ⟨Nat.succ_le_succ hLength, fun hCount => ?_⟩
          obtain ⟨rfl, rfl⟩ := hEqual (Nat.succ.inj hCount)
          rw [List.append_nil] at hSplit
          exact ⟨by rw [List.map_cons, hSplit], rfl⟩
        · -- the rest of it takes another node
          obtain ⟨-, rfl⟩ := gap_eq_nil hWords hTail hSome hGap hLeft
          have hMore := ih.2 hTail hSome hGap' hEnd hRest hBehind
          simp only [List.length_cons]
          omega
    · obtain ⟨gap', behind, hNode, hGap', hText, hBehind⟩ := hNodes
      obtain ⟨r', rfl, hLeft, hTail'⟩ :=
        exists_of_tail hWords hTail hSome hNode (ends_of_spaced hGap hEnd rest) hText.symm
      by_cases hSome' : r' = []
      · subst hSome'
        obtain ⟨rfl, rfl⟩ := gap_inj hGap' hGap (isSpace_head_nodes hWords hBehind) (isSpace_head_row hWords hRow rest)
          hLeft
        exact Nat.lt_succ_of_le (ih.1 hRow hBehind).1
      · obtain ⟨-, rfl⟩ := gap_eq_nil hWords hTail' hSome' hGap' hLeft
        exact Nat.lt_succ_of_lt (ih.2 hTail' hSome' hGap hEnd hRow hBehind)

omit [Qt] hWords in
theorem matches_spaces {w : QString} {d : Captures Char} : Regex.Matches spaces w d ↔ IsGap w ∧ d = [] := by
  rw [spaces, space, matches_star_one, IsGap]

omit hWords in
theorem matches_nodePattern {k : Nat} {w : QString} {d : Captures Char} :
    Regex.Matches (nodePattern k) w d ↔ IsToken w ∧ d = [(k, w)] := by
  rw [nodePattern, matches_group]
  constructor
  · rintro ⟨c, hNode, rfl⟩
    obtain rfl := (matches_node.mp hNode).2
    exact ⟨⟨_, hNode⟩, rfl⟩
  · rintro ⟨⟨c, hNode⟩, rfl⟩
    obtain rfl := (matches_node.mp hNode).2
    exact ⟨[], hNode, rfl⟩

omit hWords in
theorem IsToken.isNode {s : QString} (h : IsToken s) : IsNode s := by
  obtain ⟨t, rfl⟩ := isToken_iff.mp h
  exact t.isNode

omit hWords in
/-- The matches of the statement pattern: three nodes in brackets. -/
theorem matches_statementPattern {w : QString} {d : Captures Char} : Regex.Matches statementPattern w d ↔
    ∃ s g p g' o g'', IsToken s ∧ IsGap g ∧ IsToken p ∧ IsGap g' ∧ IsToken o ∧ IsGap g'' ∧
      w = '(' :: (s ++ (g ++ (p ++ (g' ++ (o ++ (g'' ++ [')'])))))) ∧ d = [(1, s), (2, p), (3, o)] := by
  simp only [statementPattern, matches_chain_cons, matches_char, matches_nodePattern, matches_spaces,
    matches_chain_nil]
  constructor
  · rintro ⟨_, _, _, _, ⟨rfl, rfl⟩, ⟨s, _, _, _, ⟨hs, rfl⟩, ⟨g, _, _, _, ⟨hg, rfl⟩, ⟨p, _, _, _, ⟨hp, rfl⟩,
      ⟨g', _, _, _, ⟨hg', rfl⟩, ⟨o, _, _, _, ⟨ho, rfl⟩, ⟨g'', _, _, _, ⟨hg'', rfl⟩, ⟨_, _, _, _, ⟨rfl, rfl⟩, ⟨rfl, rfl⟩,
      rfl, rfl⟩, rfl, rfl⟩, rfl, rfl⟩, rfl, rfl⟩, rfl, rfl⟩, rfl, rfl⟩, rfl, rfl⟩, rfl, rfl⟩
    exact ⟨s, g, p, g', o, g'', hs, hg, hp, hg', ho, hg'', by simp, rfl⟩
  · rintro ⟨s, g, p, g', o, g'', hs, hg, hp, hg', ho, hg'', rfl, rfl⟩
    exact ⟨['('], _, [], _, ⟨rfl, rfl⟩, ⟨s, _, _, _, ⟨hs, rfl⟩, ⟨g, _, [], _, ⟨hg, rfl⟩, ⟨p, _, _, _, ⟨hp, rfl⟩,
      ⟨g', _, [], _, ⟨hg', rfl⟩, ⟨o, _, _, _, ⟨ho, rfl⟩, ⟨g'', _, [], [], ⟨hg'', rfl⟩, ⟨[')'], _, [], [], ⟨rfl, rfl⟩,
      ⟨rfl, rfl⟩, rfl, rfl⟩, rfl, rfl⟩, rfl, rfl⟩, rfl, rfl⟩, rfl, rfl⟩, rfl, rfl⟩, rfl, rfl⟩, rfl, rfl⟩

/-- A statement pattern as it is written: three nodes with white space between them, without other brackets. -/
structure PatternText where
  subject : QString
  gap : QString
  predicate : QString
  gap' : QString
  object : QString
  gap'' : QString
  tokens : IsToken subject ∧ IsToken predicate ∧ IsToken object
  gaps : IsGap gap ∧ IsGap gap' ∧ IsGap gap''
  apart : gap ≠ [] ∧ gap' ≠ []
  plain : '(' ∉ subject ∧ '(' ∉ predicate ∧ '(' ∉ object

namespace PatternText

/-- What stands between the brackets. -/
def body (p : PatternText) : QString :=
  p.subject ++ (p.gap ++ (p.predicate ++ (p.gap' ++ (p.object ++ p.gap''))))

/-- What stands behind the opening bracket. -/
def inner (p : PatternText) : QString := p.body ++ [')']

def text (p : PatternText) : QString := '(' :: p.inner

def captures (p : PatternText) : Captures Char := [(1, p.subject), (2, p.predicate), (3, p.object)]

omit [Qt] hWords in
theorem notMem_gap {gap : QString} (h : IsGap gap) : '(' ∉ gap := fun hMem => by cases h _ hMem

omit hWords in
theorem notMem_inner (p : PatternText) : '(' ∉ p.inner := by
  have hGap := notMem_gap p.gaps.1
  have hGap' := notMem_gap p.gaps.2.1
  have hGap'' := notMem_gap p.gaps.2.2
  simp [inner, body, p.plain, hGap, hGap', hGap'']

/-- It has one match. -/
theorem eq_of_matches (p : PatternText) {rest w : QString} {d : Captures Char} (hPrefix : w <+: p.text ++ rest)
    (h : Regex.Matches statementPattern w d) : w = p.text ∧ d = p.captures := by
  obtain ⟨s, g, n, g', o, g'', hs, hg, hn, hg', ho, hg'', rfl, rfl⟩ := matches_statementPattern.mp h
  obtain ⟨behind, hBehind⟩ := hPrefix
  have hRow : Spaced [(p.subject, p.gap), (p.predicate, p.gap'), (p.object, p.gap'')] :=
    ⟨p.tokens.1.isNode, p.gaps.1, p.apart.1, p.tokens.2.1.isNode, p.gaps.2.1, p.apart.2, p.tokens.2.2.isNode,
      p.gaps.2.2⟩
  have hText : rowText [(p.subject, p.gap), (p.predicate, p.gap'), (p.object, p.gap'')] ++ ')' :: rest =
      s ++ (g ++ (n ++ (g' ++ (o ++ (g'' ++ ')' :: behind))))) := by
    simpa [rowText, text, inner, body] using hBehind.symm
  have hNodes : Nodes [s, n, o] (rowText [(p.subject, p.gap), (p.predicate, p.gap'), (p.object, p.gap'')] ++
      ')' :: rest) (')' :: behind) :=
    ⟨g, _, hs.isNode, hg, hText, g', _, hn.isNode, hg', rfl, g'', _, ho.isNode, hg'', rfl, rfl⟩
  obtain ⟨hEq, rfl⟩ := ((nodes_spaced hWords).1 hRow hNodes).2 rfl
  simp only [List.map_cons, List.map_nil, List.cons.injEq, and_true] at hEq
  obtain ⟨rfl, rfl, rfl⟩ := hEq
  refine ⟨?_, rfl⟩
  exact List.append_cancel_right hBehind

theorem find_text (engine : Engine Char) (p : PatternText) (rest : QString) :
    engine.find statementPattern (p.text ++ rest) = some ⟨p.text, p.captures⟩ := by
  have hMatches : Regex.Matches statementPattern p.text p.captures :=
    matches_statementPattern.mpr ⟨_, _, _, _, _, _, p.tokens.1, p.gaps.1, p.tokens.2.1, p.gaps.2.1, p.tokens.2.2,
      p.gaps.2.2, by simp [text, inner, body], rfl⟩
  obtain ⟨m, hFind⟩ := Option.isSome_iff_exists.mp
    (engine.find_complete (List.prefix_append p.text rest) hMatches)
  obtain ⟨hPrefix, hFound⟩ := engine.find_sound hFind
  obtain ⟨hText, hCaptures⟩ := p.eq_of_matches hWords hPrefix hFound
  rw [hFind, Option.some.injEq]
  cases m
  simpa using ⟨hText, hCaptures⟩

end PatternText

end Words

end Qt

/-- Letters, digits and the underscore are no signs. -/
theorem words_ascii : @Words asciiQt := by
  intro c hc
  have hWord : (c.isAlphanum || c == '_') = true := hc
  have hEither : c.isAlphanum = true ∨ c = '_' := by simpa using hWord
  have hRange : 48 ≤ c.toNat ∧ c.toNat ≤ 57 ∨ 65 ≤ c.toNat ∧ c.toNat ≤ 90 ∨ c.toNat = 95 ∨
      97 ≤ c.toNat ∧ c.toNat ≤ 122 := by
    rcases hEither with hAlnum | rfl
    · simp only [Char.isAlphanum, Char.isAlpha, Bool.or_eq_true] at hAlnum
      rcases hAlnum with (hUpper | hLower) | hDigit
      · simp [Char.isUpper, UInt32.le_iff_toNat_le] at hUpper
        exact .inr (.inl hUpper)
      · simp [Char.isLower, UInt32.le_iff_toNat_le] at hLower
        exact .inr (.inr (.inr hLower))
      · exact .inl (Char.isDigit_iff_toNat.mp hDigit)
    · decide
  refine ⟨?_, ?_, ?_⟩
  · simp [isSpace]
    omega
  · rintro rfl
    revert hRange
    decide
  · intro hSign
    simp only [signs, List.mem_cons, List.not_mem_nil, or_false] at hSign
    rcases hSign with rfl | rfl | rfl | rfl | rfl | rfl | rfl | rfl | rfl | rfl | rfl | rfl | rfl <;>
      revert hRange <;> decide

end Inference

end Soprano
