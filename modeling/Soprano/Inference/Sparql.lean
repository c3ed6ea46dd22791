import Soprano.Inference.Rule
import Soprano.Library.Codec

/-! The queries of the inference engine, as SPARQL defines them.  `parse` reads the texts of basic graph
patterns and of their unions; `Answers` is what the engine relies on of a parent model's
`executeQuery`, and `select` is an implementation of it. -/

namespace Soprano

namespace Inference

open Codec

/-- The quads of a model. -/
abbrev Store [Qt] : Type := List Statement

namespace Sparql

/-! ### Terms -/

/-- The characters of `PN_CHARS_BASE` beyond the ASCII letters. -/
def isForeignLetter (c : Char) : Bool :=
  let n := c.toNat
  (0xc0 ≤ n && n ≤ 0x2ff && n != 0xd7 && n != 0xf7) || (0x370 ≤ n && n ≤ 0x1fff && n != 0x37e) ||
    n == 0x200c || n == 0x200d || (0x2070 ≤ n && n ≤ 0x218f) || (0x2c00 ≤ n && n ≤ 0x2fef) ||
    (0x3001 ≤ n && n ≤ 0xd7ff) || (0xf900 ≤ n && n ≤ 0xfdcf) || (0xfdf0 ≤ n && n ≤ 0xfffd) ||
    (0x10000 ≤ n && n ≤ 0xeffff)

/-- The characters that a name starts with: `PN_CHARS_U` and the digits. -/
def isNameStart (c : Char) : Bool := c.isAlphanum || c == '_' || isForeignLetter c

/-- The characters of a name. -/
def isNameChar (c : Char) : Bool :=
  isNameStart c || c.toNat == 0xb7 || (0x300 ≤ c.toNat && c.toNat ≤ 0x36f) || c.toNat == 0x203f ||
    c.toNat == 0x2040

/-- `VARNAME` -/
def isName (s : QString) : Bool := s.head?.any isNameStart && s.all isNameChar

/-- The letters, digits and hyphens of `LANGTAG`. -/
def isLang (s : QString) : Bool :=
  s.head?.any Char.isAlpha && s.all fun c => c.isAlphanum || c == '-'

/-- A text that stands between quotes as it is. -/
def isPlainText (s : QString) : Bool := s.all fun c => !(['"', '\\', '\n', '\r'].contains c)

section Qt

variable [Qt]

/-- A variable, behind its question mark. -/
def readVariable : Reader Char NodePattern := do
  let name ← through ' '
  require (isName name)
  pure (.ofVariable name)

/-- An IRI, behind its bracket. -/
def readIri : Reader Char QUrl := do
  let text ← through '>'
  require (text.all isUrlChar)
  pure (QUrl.fromEncoded (QString.toLatin1 text) .tolerantMode)

/-- A literal with a language or a data type, behind its quote. -/
def readLiteral : Reader Char NodePattern := do
  let text ← through '"'
  require (isPlainText text)
  let c ← symbol
  if c = '@' then do
    let lang ← through ' '
    require (isLang lang)
    pure (.resource (.ofLiteral (.createPlainLiteral text (.ofString lang))))
  else do
    require (c = '^')
    word ['^', '<']
    let type ← readIri
    expect ' '
    pure (.resource (.ofLiteral (.fromString text type)))

/-- A term and the space behind it. -/
def readTerm : Reader Char NodePattern := do
  let c ← symbol
  if c = '?' then readVariable
  else if c = '<' then do
    let uri ← readIri
    expect ' '
    pure (.resource (.ofUri uri))
  else do
    require (c = '"')
    readLiteral

/-- A triple pattern and the dot behind it. -/
def readTriple : Reader Char StatementPattern := do
  let subject ← readTerm
  let predicate ← readTerm
  let object ← readTerm
  word ['.', ' ']
  pure ⟨subject, predicate, object⟩

/-- A group of a union, behind its bracket. -/
def readGroup : Reader Char (List StatementPattern) := do
  let patterns ← manyThrough ' ' readTriple
  expect '}'
  pure patterns

def readBasic : Reader Char (List (List StatementPattern)) := do
  let patterns ← manyThrough '}' readTriple
  pure [patterns]

def readUnion : Reader Char (List (List StatementPattern)) := do
  word ['{', ' ']
  let first ← readGroup
  let rest ← manyThrough '}' (do
    word " UNION \x7b ".toList
    readGroup)
  pure (first :: rest)

/-- What follows the bracket of `WHERE`: a basic graph pattern, or a union of them. -/
def readBody : Reader Char (List (List StatementPattern)) := fun input =>
  if input.head? = some '{' then readUnion input else readBasic input

def withoutPrefix (head s : QString) : Option QString :=
  if head.isPrefixOf s then some (s.drop head.length) else none

/-- The groups of a query that selects every variable, or the one variable `g`. -/
def parse (query : QString) : Option (List (List StatementPattern)) :=
  let groups := fun body =>
    match readBody body with
    | (some groups, []) => some groups
    | _ => none
  match withoutPrefix "SELECT * WHERE \x7b ".toList query with
  | some body => groups body
  | none =>
    (((withoutPrefix "SELECT ?g WHERE \x7b ".toList query).or
      (withoutPrefix "select ?g where \x7b ".toList query)).bind groups).filter fun groups =>
        groups.all fun patterns => patterns.all fun p => p.variableNames.all (· = ['g'])

/-! ### Solutions -/

/-- The triples of a store, in any context. -/
def triples (store : Store) : Set Statement := {t | ∃ q ∈ store, q.triple = t}

/-- The variables of a basic graph pattern. -/
def names (patterns : List StatementPattern) : List QString :=
  patterns.flatMap StatementPattern.variableNames

/-- The values of the variables make each pattern a triple of the store; other variables are
unbound. -/
structure Solution (patterns : List StatementPattern) (store : Store) (value : QString → Node) :
    Prop where
  triple : ∀ p ∈ patterns, p.bind value ∈ triples store
  unbound : ∀ name, name ∉ names patterns → value name = .empty

/-- `executeQuery` returns the solutions of the groups of a query, and all of them. -/
structure Answers (select : QString → Store → List BindingSet) : Prop where
  sound : ∀ {query groups store b}, parse query = some groups → (∀ q ∈ store, q.isValid = true) →
    b ∈ select query store → ∃ patterns ∈ groups, Solution patterns store b.value
  complete : ∀ {query groups patterns store value}, parse query = some groups →
    (∀ q ∈ store, q.isValid = true) → patterns ∈ groups → Solution patterns store value →
    ∃ b ∈ select query store, b.value = value
  named : ∀ {query groups store b}, parse query = some groups → (∀ q ∈ store, q.isValid = true) →
    b ∈ select query store → b.DistinctNames ∧ ∀ name ∈ b.bindingNames, name ∈ names groups.flatten

/-! ### Texts of patterns -/

/-- The node is written as SPARQL writes it: a resource, or a literal with a language or a data type
whose text needs no escapes and gives the literal back. -/
def PlainNode : Node → Prop
  | .resource _ _ => True
  | .literal (.plain s l) _ => isPlainText s = true ∧ isLang l.toString = true ∧
      QString.MarkersAbove 2 s
  | .literal (.typed v u h) _ =>
      (LiteralValue.typed v u h).operatorEq (.typed v u h) = true ∧
      LiteralValue.fromString (LiteralValue.text v) u = .typed v u h ∧
      isPlainText (LiteralValue.text v) = true ∧ Qt.urlToString u = u.encoded ∧
      QString.MarkersAbove 2 (LiteralValue.text v)
  | _ => False

def PlainPattern : NodePattern → Prop
  | .resource n => PlainNode n
  | .ofVariable name => isName name = true

/-- The pattern is written as SPARQL writes it, and no text in it is taken for a place marker. -/
structure Plain (p : StatementPattern) : Prop where
  subject : PlainPattern p.subjectPattern
  predicate : PlainPattern p.predicatePattern
  object : PlainPattern p.objectPattern
  subjectMarkers :
    QString.MarkersAbove 3 (p.subjectPattern.createSparqlNodePattern .empty)
  predicateMarkers :
    QString.MarkersAbove 3 (p.predicatePattern.createSparqlNodePattern .empty)

omit [Qt] in
theorem notMem_of_isName {s : QString} (h : isName s = true) {d : Char}
    (hd : isNameChar d = false) : d ∉ s := by
  simp only [isName, Bool.and_eq_true, List.all_eq_true] at h
  intro hMem
  rw [h.2 d hMem] at hd
  cases hd

omit [Qt] in
theorem notMem_of_isPlainText {s : QString} (h : isPlainText s = true) : '"' ∉ s := by
  intro hMem
  have := List.all_eq_true.mp h '"' hMem
  revert this
  decide

omit [Qt] in
theorem notMem_of_isLang {s : QString} (h : isLang s = true) : ' ' ∉ s := by
  simp only [isLang, Bool.and_eq_true, List.all_eq_true] at h
  intro hMem
  have := h.2 ' ' hMem
  revert this
  decide

theorem reads_variable {name : QString} (h : isName name = true) :
    Reads readTerm ('?' :: (name ++ [' '])) (.ofVariable name) := by
  refine (Reads.symbol '?').bind ?_
  rw [if_pos rfl]
  have hName := (Reads.through (notMem_of_isName h (d := ' ') (by decide))).bind
    (f := fun name => require (isName name) >>= fun _ => pure (NodePattern.ofVariable name))
    (Reads.bind_require h (Reads.pure _))
  rwa [List.append_nil] at hName

theorem reads_iri (u : QUrl) : Reads readIri (u.encoded ++ ['>']) u := by
  have hIri := (Reads.through (u.notMem (c := '>') rfl)).bind
    (f := fun text => require (text.all isUrlChar) >>= fun _ =>
      pure (QUrl.fromEncoded (QString.toLatin1 text) .tolerantMode))
    (Reads.bind_require u.legal (Reads.pure _))
  have hUrl : QUrl.fromEncoded (QString.toLatin1 u.encoded) .tolerantMode = u :=
    QUrl.fromEncoded_toEncoded u .tolerantMode
  rwa [List.append_nil, hUrl] at hIri

theorem reads_resource {u : QUrl} (h : u.isEmpty = false) :
    Reads readTerm ('<' :: (u.encoded ++ ['>', ' '])) (.resource (.resource u h)) := by
  refine (Reads.symbol '<').bind ?_
  rw [if_neg (by decide), if_pos rfl]
  have := (reads_iri u).bind (f := fun uri => expect ' ' >>= fun _ =>
    pure (NodePattern.resource (.ofUri uri))) (Reads.expect ' ').bind_pure
  rw [Node.ofUri_self u h, List.append_assoc] at this
  exact this

theorem reads_lang {s : QString} {l : LanguageTag} (hText : isPlainText s = true)
    (hLang : isLang l.toString = true) :
    Reads readTerm ('"' :: (s ++ '"' :: '@' :: (l.toString ++ [' '])))
      (.resource (.ofLiteral (.plain s l))) := by
  refine (Reads.symbol '"').bind ?_
  rw [if_neg (by decide), if_neg (by decide)]
  refine Reads.bind_require (by decide) ?_
  unfold readLiteral
  have hTail : Reads (do
      let lang ← through ' '
      require (isLang lang)
      pure (NodePattern.resource (.ofLiteral (.createPlainLiteral s (.ofString lang)))))
      (l.toString ++ [' ']) (.resource (.ofLiteral (.plain s l))) := by
    have := (Reads.through (notMem_of_isLang hLang)).bind
      (f := fun lang => require (isLang lang) >>= fun _ =>
        pure (NodePattern.resource (.ofLiteral (.createPlainLiteral s (.ofString lang)))))
      (Reads.bind_require hLang (Reads.pure _))
    rw [List.append_nil, LanguageTag.ofString_toString] at this
    exact this
  have hQuoted := (Reads.through (notMem_of_isPlainText hText)).bind
    (f := fun text => do
      require (isPlainText text)
      let c ← symbol
      if c = '@' then do
        let lang ← through ' '
        require (isLang lang)
        pure (NodePattern.resource (.ofLiteral (.createPlainLiteral text (.ofString lang))))
      else do
        require (c = '^')
        word ['^', '<']
        let type ← readIri
        expect ' '
        pure (NodePattern.resource (.ofLiteral (.fromString text type))))
    (Reads.bind_require hText ((Reads.symbol '@').bind hTail))
  rw [List.append_assoc] at hQuoted
  exact hQuoted

theorem reads_type {s : QString} {u : QUrl} (hText : isPlainText s = true) :
    Reads readTerm ('"' :: (s ++ '"' :: '^' :: '^' :: '<' :: (u.encoded ++ ['>', ' '])))
      (.resource (.ofLiteral (.fromString s u))) := by
  refine (Reads.symbol '"').bind ?_
  rw [if_neg (by decide), if_neg (by decide)]
  refine Reads.bind_require (by decide) ?_
  unfold readLiteral
  have hTail : Reads (do
      word ['^', '<']
      let type ← readIri
      expect ' '
      pure (NodePattern.resource (.ofLiteral (.fromString s type))))
      (['^', '<'] ++ ((u.encoded ++ ['>']) ++ [' '])) (.resource (.ofLiteral (.fromString s u))) :=
    (Reads.word ['^', '<']).bind ((reads_iri u).bind (Reads.expect ' ').bind_pure)
  have hQuoted := (Reads.through (notMem_of_isPlainText hText)).bind
    (f := fun text => do
      require (isPlainText text)
      let c ← symbol
      if c = '@' then do
        let lang ← through ' '
        require (isLang lang)
        pure (NodePattern.resource (.ofLiteral (.createPlainLiteral text (.ofString lang))))
      else do
        require (c = '^')
        word ['^', '<']
        let type ← readIri
        expect ' '
        pure (NodePattern.resource (.ofLiteral (.fromString text type))))
    (Reads.bind_require hText ((Reads.symbol '^').bind (Reads.bind_require (by decide) hTail)))
  simp only [List.append_assoc, List.cons_append, List.nil_append] at hQuoted
  exact hQuoted

/-- A term is read from the text of its pattern. -/
theorem reads_term {p : NodePattern} (h : PlainPattern p) :
    Reads readTerm (p.createSparqlNodePattern .empty ++ [' ']) p := by
  cases p with
  | ofVariable name => exact reads_variable h
  | resource n =>
    cases n with
    | empty | blank => cases h
    | resource u hu =>
      have hText : (NodePattern.resource (.resource u hu)).createSparqlNodePattern .empty ++ [' '] =
          '<' :: (u.encoded ++ ['>', ' ']) := by
        simp [NodePattern.createSparqlNodePattern, Node.isLiteral, Node.isResource, Node.type,
          Node.uri]
      rw [hText]
      exact reads_resource hu
    | literal v hv =>
      cases v with
      | null => cases h
      | plain s l =>
        obtain ⟨hPlain, hLang, hMarkers⟩ := h
        have hNonempty : (Node.literal (.plain s l) hv).language.isEmpty = false := by
          show l.toString.isEmpty = false
          cases hCase : l.toString with
          | nil =>
            rw [hCase] at hLang
            cases hLang
          | cons => rfl
        have hText : (NodePattern.resource (.literal (.plain s l) hv)).createSparqlNodePattern
            .empty ++ [' '] = '"' :: (s ++ '"' :: '@' :: (l.toString ++ [' '])) := by
          have hLiteral : (Node.literal (.plain s l) hv).isLiteral = true := rfl
          rw [NodePattern.createSparqlNodePattern, if_pos hLiteral, if_neg (by rw [hNonempty]; decide)]
          rw [show (Node.literal (.plain s l) hv).toString = s from rfl, QString.arg_language hMarkers]
          simp [Node.language, Node.toLiteral, LiteralValue.language]
        rw [hText]
        have := reads_lang hPlain hLang
        rwa [Node.ofLiteral_self _ hv] at this
      | typed v u hStored =>
        obtain ⟨-, hBack, hPlain, hUrl, hMarkers⟩ := h
        have hText : (NodePattern.resource (.literal (.typed v u hStored) hv)).createSparqlNodePattern
            .empty ++ [' '] = '"' :: (LiteralValue.text v ++
              '"' :: '^' :: '^' :: '<' :: (u.encoded ++ ['>', ' '])) := by
          have hLiteral : (Node.literal (.typed v u hStored) hv).isLiteral = true := rfl
          have hLang : (Node.literal (.typed v u hStored) hv).language.isEmpty = true := rfl
          rw [NodePattern.createSparqlNodePattern, if_pos hLiteral, if_pos hLang]
          rw [show (Node.literal (.typed v u hStored) hv).toString = LiteralValue.text v from rfl,
            show (Node.literal (.typed v u hStored) hv).dataType = u from rfl,
            QString.arg_type hMarkers, hUrl]
          simp
        rw [hText]
        have := reads_type (u := u) hPlain
        rw [hBack, Node.ofLiteral_self _ hv] at this
        exact this

theorem reads_triple {p : StatementPattern} (h : Plain p) :
    Reads readTriple (p.createSparqlGraphPattern .empty ++ " . ".toList) p := by
  have hText : p.createSparqlGraphPattern .empty ++ " . ".toList =
      (p.subjectPattern.createSparqlNodePattern .empty ++ [' ']) ++
        ((p.predicatePattern.createSparqlNodePattern .empty ++ [' ']) ++
          ((p.objectPattern.createSparqlNodePattern .empty ++ [' ']) ++ ['.', ' '])) := by
    rw [StatementPattern.createSparqlGraphPattern,
      QString.arg_three h.subjectMarkers h.predicateMarkers]
    simp
  rw [hText]
  exact (reads_term h.subject).bind ((reads_term h.predicate).bind ((reads_term h.object).bind
    (Reads.word ['.', ' ']).bind_pure))

/-- A pattern starts with none of the characters that end a group. -/
theorem head_createSparqlNodePattern {p : NodePattern} (h : PlainPattern p) (after : QString) :
    ∃ c s, p.createSparqlNodePattern .empty ++ after = c :: s ∧ c ≠ '}' ∧ c ≠ ' ' ∧ c ≠ '{' := by
  have hRead := reads_term h
  have hText := hRead after
  cases hCase : p.createSparqlNodePattern .empty ++ ([' '] ++ after) with
  | nil => simp at hCase
  | cons c s =>
    rw [List.append_assoc, hCase] at hText
    have hc : c = '?' ∨ c = '<' ∨ c = '"' := by
      by_contra hNot
      push Not at hNot
      have : readTerm (c :: s) = (none, s) := by
        show (if c = '?' then readVariable else _) s = _
        rw [if_neg hNot.1, if_neg hNot.2.1]
        simp [bind, require, hNot.2.2]
      rw [this] at hText
      cases hText
    cases hPattern : p.createSparqlNodePattern .empty with
    | nil =>
      rw [hPattern, List.nil_append, List.singleton_append, List.cons.injEq] at hCase
      rcases hc with rfl | rfl | rfl <;> cases hCase.1
    | cons d w =>
      rw [hPattern, List.cons_append, List.cons.injEq] at hCase
      obtain ⟨rfl, -⟩ := hCase
      refine ⟨d, w ++ after, rfl, ?_⟩
      rcases hc with rfl | rfl | rfl <;> decide

/-! ### Texts of queries -/

theorem head_triple {p : StatementPattern} (h : Plain p) (after : QString) :
    ∃ c s, p.createSparqlGraphPattern .empty ++ " . ".toList ++ after = c :: s ∧
      c ≠ '}' ∧ c ≠ ' ' ∧ c ≠ '{' := by
  rw [StatementPattern.createSparqlGraphPattern,
    QString.arg_three h.subjectMarkers h.predicateMarkers, List.append_assoc, List.append_assoc]
  exact head_createSparqlNodePattern h.subject _

/-- The triple patterns of a group are read up to what ends it. -/
theorem reads_patterns {patterns : List StatementPattern} {stop : Char}
    (hStop : stop = '}' ∨ stop = ' ') (h : ∀ p ∈ patterns, Plain p) :
    Reads (manyThrough stop readTriple) (Rule.graphPatterns patterns .empty ++ [stop])
      patterns := by
  have := Reads.manyThrough (t := stop) (r := readTriple) (v := id)
    (w := fun p => p.createSparqlGraphPattern .empty ++ " . ".toList) patterns fun p hp => by
      obtain ⟨c, s, hText, hBrace, hSpace, -⟩ := head_triple (h p hp) []
      rw [List.append_nil] at hText
      refine ⟨reads_triple (h p hp), c, s, hText, ?_⟩
      rcases hStop with rfl | rfl
      · exact hBrace
      · exact hSpace
  rwa [List.map_id] at this

theorem reads_group {patterns : List StatementPattern} (h : ∀ p ∈ patterns, Plain p) :
    Reads readGroup (Rule.graphPatterns patterns .empty ++ [' ', '}']) patterns := by
  have := (reads_patterns (.inr rfl) h).bind (f := fun patterns => expect '}' >>= fun _ => pure patterns)
    (Reads.expect '}').bind_pure
  rwa [List.append_assoc, List.singleton_append] at this

theorem parse_eq {body : QString} {groups : List (List StatementPattern)}
    (h : readBody body = (some groups, [])) :
    parse ("SELECT * WHERE \x7b ".toList ++ body) = some groups := by
  have hBody : withoutPrefix "SELECT * WHERE \x7b ".toList ("SELECT * WHERE \x7b ".toList ++ body) =
      some body := by
    rw [withoutPrefix, if_pos (by simp), List.drop_left]
  rw [parse, hBody]
  simp only [h]

theorem readBody_patterns {patterns : List StatementPattern} (h : ∀ p ∈ patterns, Plain p) :
    readBody (Rule.graphPatterns patterns .empty ++ ['}']) = (some [patterns], []) := by
  have hHead : (Rule.graphPatterns patterns .empty ++ ['}']).head? ≠ some '{' := by
    cases patterns with
    | nil => simp [Rule.graphPatterns]
    | cons p patterns =>
      obtain ⟨c, s, hText, -, -, hc⟩ :=
        head_triple (h p (by simp)) (Rule.graphPatterns patterns .empty ++ ['}'])
      have hAll : Rule.graphPatterns (p :: patterns) .empty ++ ['}'] = c :: s := by
        rw [← hText, Rule.graphPatterns, List.flatMap_cons]
        simp only [List.append_assoc]
        rfl
      rw [hAll]
      simpa using hc
  refine (if_neg hHead).trans ?_
  exact ((reads_patterns (.inl rfl) h).bind_pure (f := fun patterns => [patterns])).run

/-- A basic graph pattern is read from the query that selects its variables. -/
theorem parse_patterns {patterns : List StatementPattern} (h : ∀ p ∈ patterns, Plain p) :
    parse ("SELECT * WHERE \x7b ".toList ++ (Rule.graphPatterns patterns .empty ++ ['}'])) =
      some [patterns] := parse_eq (readBody_patterns h)

/-- The pattern of the graphs is read from the queries that select them. -/
theorem parse_graphs {head : QString} {p : StatementPattern}
    (hHead : head = "SELECT ?g WHERE \x7b ".toList ∨ head = "select ?g where \x7b ".toList) (h : Plain p)
    (hNames : ∀ name ∈ p.variableNames, name = ['g']) :
    parse (head ++ (Rule.graphPatterns [p] .empty ++ ['}'])) = some [[p]] := by
  have hBody : readBody (Rule.graphPatterns [p] .empty ++ ['}']) = (some [[p]], []) :=
    readBody_patterns (by simpa using h)
  have hSame : withoutPrefix head (head ++ (Rule.graphPatterns [p] .empty ++ ['}'])) =
      some (Rule.graphPatterns [p] .empty ++ ['}']) := by
    rw [withoutPrefix, if_pos (by simp), List.drop_left]
  have hFilter : (some [[p]]).filter (fun groups : List (List StatementPattern) => groups.all fun patterns =>
      patterns.all fun p => p.variableNames.all (· = ['g'])) = some [[p]] := by
    simpa [Option.filter] using hNames
  rcases hHead with rfl | rfl
  · have hAll : withoutPrefix "SELECT * WHERE \x7b ".toList ("SELECT ?g WHERE \x7b ".toList ++
        (Rule.graphPatterns [p] .empty ++ ['}'])) = none := rfl
    rw [parse, hAll, hSame]
    simpa only [Option.some_or, Option.bind_some, hBody] using hFilter
  · have hAll : withoutPrefix "SELECT * WHERE \x7b ".toList ("select ?g where \x7b ".toList ++
        (Rule.graphPatterns [p] .empty ++ ['}'])) = none := rfl
    have hOther : withoutPrefix "SELECT ?g WHERE \x7b ".toList ("select ?g where \x7b ".toList ++
        (Rule.graphPatterns [p] .empty ++ ['}'])) = none := rfl
    rw [parse, hAll, hOther, hSame]
    simpa only [Option.none_or, Option.bind_some, hBody] using hFilter

omit [Qt] in
theorem join_cons (separator text : QString) (texts : List QString) :
    Rule.join separator (text :: texts) = text ++ texts.flatMap (separator ++ ·) := by
  induction texts generalizing text with
  | nil => simp [Rule.join, List.intercalate]
  | cons other texts ih =>
    have := ih other
    simp only [Rule.join] at this ⊢
    rw [List.intercalate_cons_cons, this, List.flatMap_cons, List.append_assoc, List.append_assoc]

/-- The groups of a union are read from its query. -/
theorem parse_union {first : List StatementPattern} {rest : List (List StatementPattern)}
    (h : ∀ g ∈ first :: rest, ∀ p ∈ g, Plain p) :
    parse ("SELECT * WHERE \x7b ".toList ++ (("\x7b ".toList ++ (Rule.join " \x7d UNION \x7b ".toList
      ((first :: rest).map (Rule.graphPatterns · .empty)) ++ " \x7d".toList)) ++ ['}'])) =
      some (first :: rest) := by
  refine parse_eq ?_
  have hRest : Reads (manyThrough '}' (do
      word " UNION \x7b ".toList
      readGroup))
      (rest.flatMap (fun g => " UNION \x7b ".toList ++
        (Rule.graphPatterns g .empty ++ [' ', '}'])) ++ ['}']) rest := by
    have := Reads.manyThrough (t := '}') (r := word " UNION \x7b ".toList >>= fun _ => readGroup)
      (v := id) (w := fun g => " UNION \x7b ".toList ++
        (Rule.graphPatterns g .empty ++ [' ', '}'])) rest fun g hg =>
        ⟨(Reads.word _).bind (reads_group (h g (by simp [hg]))), ' ', _, rfl, by decide⟩
    rwa [List.map_id] at this
  have hText : ("\x7b ".toList ++ (Rule.join " \x7d UNION \x7b ".toList
      ((first :: rest).map (Rule.graphPatterns · .empty)) ++ " \x7d".toList)) ++ ['}'] =
      ['{', ' '] ++ ((Rule.graphPatterns first .empty ++ [' ', '}']) ++
        (rest.flatMap (fun g => " UNION \x7b ".toList ++
          (Rule.graphPatterns g .empty ++ [' ', '}'])) ++ ['}'])) := by
    rw [List.map_cons, join_cons]
    have hShift : ∀ rest : List (List StatementPattern), ∀ after : QString,
        (rest.map (Rule.graphPatterns · .empty)).flatMap (" \x7d UNION \x7b ".toList ++ ·) ++
          ([' ', '}'] ++ after) =
        [' ', '}'] ++ (rest.flatMap (fun g => " UNION \x7b ".toList ++
          (Rule.graphPatterns g .empty ++ [' ', '}'])) ++ after) := by
      intro rest
      induction rest with
      | nil => intro after; rfl
      | cons g rest ih =>
        intro after
        simp only [List.map_cons, List.flatMap_cons, List.append_assoc, ih]
        rfl
    have := hShift rest ['}']
    simp only [List.append_assoc] at this ⊢
    rw [show " \x7d".toList ++ ['}'] = [' ', '}'] ++ ['}'] from rfl, this]
    rfl
  rw [hText]
  refine (if_pos rfl).trans ?_
  exact ((Reads.word ['{', ' ']).bind ((reads_group (h first (by simp))).bind
    hRest.bind_pure)).run

end Qt

end Sparql

end Inference

end Soprano
