import Soprano.N3

/-! `N3NodeParser` and the N3 round trip of a node.  A text stream is the text that is left in it. -/

namespace Soprano

namespace N3NodeParser

/-- `scanStream`: whether the delimiter was found, the text before it, and the rest of the stream
behind it.  Without a delimiter white space ends the text. -/
def scanStream (delim : Option Char) (escaped : Bool) : QString → Bool × QString × QString
  | [] => (false, [], [])
  | c :: s =>
    if (delim.isNone && isSpace c) || (c == delim.getD '\x00' && !escaped) then (true, [], s)
    else
      let (found, str, rest) := scanStream delim (Escape.parity escaped c) s
      (found, c :: str, rest)

/-- The letters of `decodeLiteral`, with what they stand for. -/
def unescapeHash : List (Char × Char) := [('\\', '\\'), ('n', '\n'), ('r', '\r'), ('"', '"')]

def unescapeLetter (c : Char) : Option Char := unescapeHash.lookup c

def decodeLiteral (s : QString) : QString := Escape.unescape unescapeLetter s

/-- `operator>>( QTextStream&, QString& )`: the next word, and the rest of the stream. -/
def readWord (s : QString) : QString × QString :=
  let s := s.dropWhile isSpace
  (s.takeWhile fun c => !isSpace c, s.dropWhile fun c => !isSpace c)

/-- `Node::N3ParserFlags` -/
structure ParserFlags where
  strictLiteralTypes : Bool
  strictUris : Bool
  ignorePrefixes : Bool

def noFlags : ParserFlags := ⟨false, false, false⟩

def ParserFlags.parsingMode (flags : ParserFlags) : QUrl.ParsingMode :=
  if flags.strictUris then .strictMode else .tolerantMode

section Qt

variable [Qt]

/-- The prefix and the name of a token that matches `m_prefixedUriRx`. -/
def prefixedUri (token : QString) : Option (QString × QString) :=
  match token.span Qt.isWordChar with
  | (bname, colon :: name) =>
    if colon = ':' ∧ bname ≠ [] ∧ name ≠ [] ∧ name.all Qt.isWordChar then some (bname, name)
    else none
  | (_, []) => none

/-- The node of a token that starts with none of the marks.  The conversions of a token to a Boolean
and to an `int` are overwritten by the conversion to a `double` and its failure. -/
def tokenNode (prefixes : List (QString × QUrl)) (flags : ParserFlags) (token : QString) : Node :=
  if token = ['a'] then .ofUri Vocabulary.RDF.type
  else if !flags.strictLiteralTypes then
    match Qt.toDouble token with
    | some d => .ofLiteral (.ofVariant (.double d))
    | none => .ofLiteral (.createPlainLiteral token .empty)
  else if !flags.ignorePrefixes then
    match prefixedUri token with
    | some (bname, name) =>
      let ns := (prefixes.lookup bname).getD QUrl.empty
      if ns.isEmpty then .empty else .ofUri (Qt.urlOfString (Qt.urlToString ns ++ name))
    | none => .empty
  else .empty

/-- The literal whose decoded text is `val`, given what stands behind its closing quote. -/
def literalNode (parse : QString → Node × QString) (val : QString) : QString → Node × QString
  | [] => (.ofLiteral (.createPlainLiteral val .empty), [])
  | c :: s =>
    if isSpace c then (.ofLiteral (.createPlainLiteral val .empty), s)
    else if c = '@' then
      let (lang, rest) := readWord s
      (.ofLiteral (.createPlainLiteral val (.ofString lang)), rest)
    else if c = '^' then
      match s with
      | d :: s =>
        if d = '^' then
          let (resNode, rest) := parse s
          (if resNode.isResource then .ofLiteral (.fromString val resNode.uri) else .empty, rest)
        else (.empty, s)
      | [] => (.empty, [])
    else (.empty, s)

/-- `N3NodeParser::parseNode`: the node, which is empty on an error, and the rest of the stream.
Each nested call has less text to read, so that a depth of the length of the text is enough. -/
def parseNode (prefixes : List (QString × QUrl)) (flags : ParserFlags) :
    Nat → QString → Node × QString
  | 0, s => (.empty, s)
  | depth + 1, s =>
    match s.dropWhile isSpace with
    | [] => (.empty, [])
    | c :: s =>
      if c = '<' then
        let (found, str, rest) := scanStream (some '>') false s
        (if found then .ofUri (QUrl.fromEncoded (QString.toLatin1 str) flags.parsingMode)
          else .empty, rest)
      else if c = '_' then
        match s with
        | d :: s =>
          if d = ':' then
            let (str, rest) := readWord s
            (.ofIdentifier str, rest)
          else (.empty, s)
        | [] => (.empty, [])
      else if c = '"' then
        match scanStream (some '"') false s with
        | (true, val, rest) => literalNode (parseNode [] noFlags depth) (decodeLiteral val) rest
        | (false, _, rest) => (.empty, rest)
      else
        let (_, str, rest) := scanStream none false s
        (tokenNode prefixes flags (c :: str), rest)

/-- `Node::fromN3` -/
def fromN3 (s : QString) (flags : ParserFlags) : Node := (parseNode [] flags s.length s).1

/-! ### Parsing what was written -/

omit [Qt] in
theorem scanStream_eq {delim : Char} {escaped : Bool} {s before after : QString}
    (h : Escape.scan delim escaped s = some (before, after)) :
    scanStream (some delim) escaped s = (true, before, after) := by
  induction s generalizing escaped before with
  | nil => cases h
  | cons c s ih =>
    unfold Escape.scan at h
    unfold scanStream
    by_cases hDelim : c = delim ∧ escaped = false
    · rw [if_pos hDelim] at h
      cases h
      simp [hDelim.1, hDelim.2]
    · rw [if_neg hDelim] at h
      obtain ⟨⟨before', after'⟩, hScan, hEq⟩ := Option.map_eq_some_iff.mp h
      cases hEq
      have hSkip : ((some delim).isNone && isSpace c ||
          c == (some delim).getD '\x00' && !escaped) = false := by
        simpa using hDelim
      rw [hSkip, ih hScan]
      rfl

omit [Qt] in
/-- Reading a word that holds no white space. -/
theorem readWord_eq {s : QString} (h : NoSpace s) : readWord s = (s, []) := by
  have hSkip : s.dropWhile isSpace = s := by
    cases s with
    | nil => rfl
    | cons c s => simp [h c (by simp)]
  have hAll : ∀ c ∈ s, (!isSpace c) = true := fun c hc => by rw [h c hc]; rfl
  unfold readWord
  rw [hSkip]
  simp only [List.takeWhile_eq_self_iff.mpr hAll, List.dropWhile_eq_nil_iff.mpr hAll]

theorem parseNode_resource (prefixes : List (QString × QUrl)) (flags : ParserFlags) (depth : Nat)
    (u : QUrl) (rest : QString) :
    parseNode prefixes flags (depth + 1) ('<' :: (u.encoded ++ '>' :: rest)) =
      (.ofUri u, rest) := by
  have hScan := scanStream_eq (Escape.scan_guarded (d := '>') rest
    (Escape.guarded_of_notMem (u.notMem rfl)) (Escape.oddTail_of_notMem (u.notMem rfl)))
  have hUrl : QUrl.fromEncoded (QString.toLatin1 u.encoded) flags.parsingMode = u :=
    QUrl.fromEncoded_toEncoded u flags.parsingMode
  have hStart : ('<' :: (u.encoded ++ '>' :: rest)).dropWhile isSpace =
      '<' :: (u.encoded ++ '>' :: rest) := rfl
  rw [parseNode, hStart]
  simp only [if_true, hScan, hUrl]

theorem parseNode_literal (prefixes : List (QString × QUrl)) (flags : ParserFlags) (depth : Nat)
    (text rest : QString) :
    parseNode prefixes flags (depth + 1)
        ('"' :: (Escape.escape escapeLetter text ++ '"' :: rest)) =
      literalNode (parseNode [] noFlags depth)
        (decodeLiteral (Escape.escape escapeLetter text)) rest := by
  have hScan := scanStream_eq (Escape.scan_escape (t := escapeLetter) (d := '"')
    rfl (by decide) (by decide) text rest)
  have hStart : ('"' :: (Escape.escape escapeLetter text ++ '"' :: rest)).dropWhile isSpace =
      '"' :: (Escape.escape escapeLetter text ++ '"' :: rest) := rfl
  rw [parseNode, hStart]
  simp [hScan]

open N3 Node

/-- The data type that is written for a literal after a history. -/
def writtenType (history : List LiteralValue) (literal : LiteralValue) : QUrl :=
  ((firstOfType history literal.type).getD literal).dataTypeUri

theorem literalToN3_typed (history : List LiteralValue) {literal : LiteralValue}
    (h : literal.isPlain = false) :
    (literalToN3 (typeHashAfter history) literal).1 =
      '"' :: (Escape.escape escapeLetter literal.toString ++
        typedSuffix (writtenType history literal).encoded) := by
  unfold literalToN3 writtenType
  simp only [h, Bool.false_eq_true, if_false, lookup_typeHashAfter]
  cases firstOfType history literal.type with
  | none => simp
  | some first => rfl

/-- The characters that the writer escapes and the parser does not decode. -/
def undecoded : List Char := ['\x08', '\t', '\x0c', '\x27']

omit [Qt] in
theorem unescapeLetter_of_escapeHash : ∀ e ∈ escapeHash,
    (unescapeLetter e.2 = none ∧ e.2 ≠ '\\' ∧ e.1 ∈ undecoded) ∨
      (unescapeLetter e.2 = some e.1 ∧ e.1 ∉ undecoded) := by
  intro e he
  have := List.all_eq_true.mp (by decide : escapeHash.all (fun e =>
    decide ((unescapeLetter e.2 = none ∧ e.2 ≠ '\\' ∧ e.1 ∈ undecoded) ∨
      (unescapeLetter e.2 = some e.1 ∧ e.1 ∉ undecoded))) = true) e he
  simpa using this

omit [Qt] in
theorem mem_escapeHash {c letter : Char} (h : escapeLetter c = some letter) :
    (c, letter) ∈ escapeHash := by
  obtain ⟨l₁, l₂, hSplit, -⟩ := List.lookup_eq_some_iff.mp h
  simp [hSplit]

omit [Qt] in
theorem compatible : Escape.Compatible escapeLetter unescapeLetter where
  backslash := rfl
  known c letter d hWrite hRead := by
    rcases unescapeLetter_of_escapeHash _ (mem_escapeHash hWrite) with h | h
    · rw [h.1] at hRead
      cases hRead
    · rw [h.1] at hRead
      exact (Option.some.inj hRead).symm
  letter c letter hWrite hRead := by
    rcases unescapeLetter_of_escapeHash _ (mem_escapeHash hWrite) with h | h
    · exact h.2.1
    · rw [h.1] at hRead
      cases hRead

omit [Qt] in
theorem survives_iff (c : Char) :
    Escape.Survives escapeLetter unescapeLetter c ↔ c ∉ undecoded := by
  constructor
  · intro h hMem
    have hSome : (escapeLetter c).isSome = true :=
      List.all_eq_true.mp (by decide : undecoded.all (fun c => (escapeLetter c).isSome) = true)
        c hMem
    obtain ⟨letter, hWrite⟩ := Option.isSome_iff_exists.mp hSome
    rcases unescapeLetter_of_escapeHash _ (mem_escapeHash hWrite) with h' | h'
    · exact h letter hWrite h'.1
    · exact h'.2 hMem
  · intro h letter hWrite
    rcases unescapeLetter_of_escapeHash _ (mem_escapeHash hWrite) with h' | h'
    · exact absurd h'.2.2 h
    · rw [h'.1]
      nofun

omit [Qt] in
/-- The escaped text is decoded to itself exactly if it holds none of these characters. -/
theorem decodeLiteral_escape_iff (text : QString) :
    decodeLiteral (Escape.escape escapeLetter text) = text ↔ ∀ c ∈ text, c ∉ undecoded := by
  rw [decodeLiteral, Escape.unescape_escape_eq_iff compatible]
  simp only [survives_iff]

theorem literalToN3_plain (typeHash : TypeHash) (s : QString) (l : LanguageTag) :
    (literalToN3 typeHash (.plain s l)).1 =
      '"' :: (Escape.escape escapeLetter s ++
        '"' :: if l.isEmpty then [] else '@' :: l.toString) := by
  show (if l.isEmpty then ('"' :: (Escape.escape escapeLetter s ++ ['"']), typeHash)
    else ('"' :: (Escape.escape escapeLetter s ++ '"' :: '@' :: l.toString), typeHash)).1 = _
  by_cases hEmpty : l.isEmpty = true
  · rw [if_pos hEmpty, if_pos hEmpty]
  · rw [if_neg hEmpty, if_neg hEmpty]

theorem literalNode_plain (parse : QString → Node × QString) (val : QString) {l : LanguageTag}
    (hLang : NoSpace l.toString) :
    (literalNode parse val (if l.isEmpty then [] else '@' :: l.toString)).1 =
      .ofLiteral (.plain val l) := by
  by_cases hEmpty : l.isEmpty = true
  · have hTag : l = LanguageTag.empty := LanguageTag.ext (List.isEmpty_iff.mp hEmpty)
    rw [if_pos hEmpty, hTag, literalNode, LiteralValue.createPlainLiteral]
  · rw [if_neg hEmpty]
    simp [literalNode, readWord_eq hLang, LiteralValue.createPlainLiteral,
      show isSpace '@' = false from rfl]

theorem literalNode_typed (depth : Nat) (val : QString) {u : QUrl} (hu : u.isEmpty = false) :
    (literalNode (parseNode [] noFlags (depth + 1)) val
        ('^' :: '^' :: '<' :: (u.encoded ++ ['>']))).1 =
      .ofLiteral (.fromString val u) := by
  have hParse := parseNode_resource [] noFlags depth u []
  simp [literalNode, hParse, hu, isResource, type, uri, show isSpace '^' = false from rfl]

/-- What is parsed of the text that is written for a plain literal. -/
theorem fromN3_plain (typeHash : TypeHash) (flags : ParserFlags) {s : QString} {l : LanguageTag}
    (hLang : NoSpace l.toString) :
    fromN3 (literalToN3 typeHash (.plain s l)).1 flags =
      .ofLiteral (.plain (decodeLiteral (Escape.escape escapeLetter s)) l) := by
  rw [literalToN3_plain, fromN3, List.length_cons, parseNode_literal]
  exact literalNode_plain _ _ hLang

/-- What is parsed of the text that is written for a typed literal. -/
theorem fromN3_typed (history : List LiteralValue) (flags : ParserFlags) {literal : LiteralValue}
    (h : literal.isPlain = false) (hType : (writtenType history literal).isEmpty = false) :
    fromN3 (literalToN3 (typeHashAfter history) literal).1 flags =
      .ofLiteral (.fromString (decodeLiteral (Escape.escape escapeLetter literal.toString))
        (writtenType history literal)) := by
  rw [literalToN3_typed history h, fromN3, typedSuffix]
  have hLength : ∀ body s : QString, 2 ≤ ('"' :: (body ++ '"' :: s)).length := fun body s => by
    simp only [List.length_cons, List.length_append]
    omega
  obtain ⟨depth, hDepth⟩ := Nat.exists_eq_add_of_le'
    (hLength (Escape.escape escapeLetter literal.toString)
      ('^' :: '^' :: '<' :: ((writtenType history literal).encoded ++ ['>'])))
  rw [hDepth, parseNode_literal]
  exact literalNode_typed depth _ hType

/-- The nodes that come back from their N3 text, after a history of serialised literals. -/
def ComesBack (history : List LiteralValue) : Node → Prop
  | .literal v _ =>
    (∀ c ∈ v.toString, c ∉ undecoded) ∧ v.variant.ValidDateTime ∧ FirstAgrees history v
  | _ => True

/-- The texts of numbers, Booleans, dates and bytes need no escape. -/
theorem notMem_undecoded {v : QVariant} {dtUri : QUrl} (h : StoredAs v dtUri)
    (hString : v.type ≠ .string) (hDouble : v.type ≠ .double) :
    ∀ c ∈ LiteralValue.text v, c ∉ undecoded := by
  intro c hc hMem
  have hToken := LiteralValue.isTokenChar_text h hString hDouble c hc
  have hNot : isTokenChar c = false := by
    have := List.all_eq_true.mp (by decide : undecoded.all (fun c => !isTokenChar c) = true) c hMem
    simpa using this
  rw [hToken] at hNot
  cases hNot

theorem writtenType_eq_iff (history : List LiteralValue) {l : LiteralValue}
    (h : l.isPlain = false) :
    writtenType history l = l.dataTypeUri ↔ FirstAgrees history l := by
  unfold writtenType FirstAgrees
  cases firstOfType history l.type with
  | none => simp
  | some first => simp [h]

/-- The written data type of a typed literal is that of a typed literal. -/
theorem isEmpty_writtenType (history : List LiteralValue) {v : QVariant} {u : QUrl}
    (h : StoredAs v u) : (writtenType history (.typed v u h)).isEmpty = false := by
  unfold writtenType
  cases hFirst : firstOfType history (LiteralValue.typed v u h).type with
  | none => exact h.2
  | some first =>
    obtain ⟨-, hPlain, hType⟩ := firstOfType_spec hFirst
    cases first with
    | null => exact absurd (hType.trans h.1).symm (stored_ne _).1
    | plain => cases hPlain
    | typed v' u' h' => exact h'.2

theorem fromN3_typed_iff (history : List LiteralValue) (flags : ParserFlags) {v : QVariant}
    {u : QUrl} (h : StoredAs v u) (hDouble : v.type ≠ .double)
    (hValid : (LiteralValue.typed v u h).isValid = true) :
    fromN3 (literalToN3 (typeHashAfter history) (.typed v u h)).1 flags =
        .literal (.typed v u h) hValid ↔
      ComesBack history (.literal (.typed v u h) hValid) := by
  rw [fromN3_typed history flags rfl (isEmpty_writtenType history h)]
  have hAgrees := writtenType_eq_iff history (l := .typed v u h) rfl
  have hText := decodeLiteral_escape_iff (LiteralValue.text v)
  constructor
  · intro hEq
    have hLiteral : LiteralValue.fromString
        (decodeLiteral (Escape.escape escapeLetter (LiteralValue.text v)))
        (writtenType history (.typed v u h)) = .typed v u h := by
      have := congrArg toLiteral hEq
      unfold ofLiteral at this
      split at this
      · exact this
      · cases this
    obtain ⟨hUri, hParse⟩ :=
      LiteralValue.fromString_eq_typed (isEmpty_writtenType history h) hLiteral
    have hSurvives : ∀ c ∈ LiteralValue.text v, c ∉ undecoded := by
      by_cases hString : v.type = .string
      · cases v with
        | string s =>
          rw [← hUri, LiteralValue.parse_string h.1.symm] at hParse
          exact hText.mp (QVariant.string.inj (Option.some.inj hParse))
        | _ => cases hString
      · exact notMem_undecoded h hString hDouble
    refine ⟨hSurvives, ?_, hAgrees.mp hUri.symm⟩
    by_contra hInvalid
    rw [hText.mpr hSurvives, ← hUri, LiteralValue.fromString_text_invalid h hInvalid] at hLiteral
    cases hLiteral
  · rintro ⟨hSurvives, hDate, hFirst⟩
    have hLiteral : LiteralValue.fromString
        (decodeLiteral (Escape.escape escapeLetter (LiteralValue.text v))) u = .typed v u h := by
      rw [hText.mpr hSurvives]
      exact LiteralValue.fromString_text h hDouble hDate
    rw [hAgrees.mpr hFirst]
    show ofLiteral (.fromString
      (decodeLiteral (Escape.escape escapeLetter (LiteralValue.text v))) u) = _
    rw [hLiteral, ofLiteral_self]

theorem fromN3_plain_iff (history : List LiteralValue) (flags : ParserFlags) {s : QString}
    {l : LanguageTag} (hLang : NoSpace l.toString)
    (hValid : (LiteralValue.plain s l).isValid = true) :
    fromN3 (literalToN3 (typeHashAfter history) (.plain s l)).1 flags =
        .literal (.plain s l) hValid ↔
      ComesBack history (.literal (.plain s l) hValid) := by
  have hPlain : fromN3 (literalToN3 (typeHashAfter history) (.plain s l)).1 flags =
      .literal (.plain (decodeLiteral (Escape.escape escapeLetter s)) l)
        (LiteralValue.isValid_plain _ _) :=
    (fromN3_plain _ flags hLang).trans (ofLiteral_self _ (LiteralValue.isValid_plain _ _))
  rw [hPlain, Node.literal.injEq, LiteralValue.plain.injEq, decodeLiteral_escape_iff]
  constructor
  · rintro ⟨hSurvives, -⟩
    exact ⟨hSurvives, trivial, nofun⟩
  · rintro ⟨hSurvives, -⟩
    exact ⟨hSurvives, rfl⟩

theorem fromN3_resource (typeHash : TypeHash) (flags : ParserFlags) (u : QUrl)
    (h : u.isEmpty = false) : fromN3 (toN3 typeHash (.resource u h)).1 flags = .resource u h := by
  rw [toN3_resource, fromN3, List.length_cons, parseNode_resource, ofUri_self u h]

theorem fromN3_blank (typeHash : TypeHash) (flags : ParserFlags) (id : QString)
    (h : id.isEmpty = false) (hSpace : NoSpace id) :
    fromN3 (toN3 typeHash (.blank id h)).1 flags = .blank id h := by
  have hStart : ('_' :: ':' :: id).dropWhile isSpace = '_' :: ':' :: id := rfl
  rw [toN3_blank, fromN3, List.length_cons, parseNode, hStart]
  simp [readWord_eq hSpace, ofIdentifier_self id h]

/-- A valid node comes back from its N3 text exactly if its literal, where it has one, holds no
character that is escaped and not decoded, holds a valid date and time, and has the data type that
the table names for it. -/
theorem n3_roundtrip_iff (history : List LiteralValue) (n : Node) (hValid : n.isValid = true)
    (hDouble : n.isDouble = false) (hBlank : NoSpace n.identifier)
    (hLang : NoSpace n.language) :
    n.operatorEq (fromN3 (toN3 (typeHashAfter history) n).1 noFlags) = true ↔
      ComesBack history n := by
  rw [Node.operatorEq_iff hDouble, eq_comm]
  cases n with
  | empty => cases hValid
  | resource u hu => exact iff_of_true (fromN3_resource _ _ u hu) trivial
  | blank id hId => exact iff_of_true (fromN3_blank _ _ id hId hBlank) trivial
  | literal v hv =>
    cases v with
    | null => cases hv
    | plain s l => exact fromN3_plain_iff history noFlags hLang hv
    | typed v u hStored =>
      refine fromN3_typed_iff history noFlags hStored ?_ hv
      simpa [isDouble, toLiteral, LiteralValue.isDouble, LiteralValue.type,
        LiteralValue.variant] using hDouble

end Qt

local instance n3ParserQt : Qt := asciiQt

/-- A tab is escaped by the writer and not decoded by the parser. -/
theorem n3_roundtrip_tab :
    let n := Node.ofLiteral (.createPlainLiteral "a\tb".toList .empty)
    fromN3 (Node.toN3 [] n).1 noFlags =
      .ofLiteral (.createPlainLiteral "a\\tb".toList .empty) ∧
    n.operatorEq (fromN3 (Node.toN3 [] n).1 noFlags) = false := by
  decide

/-- A quoted text of two lines comes back. -/
theorem n3_roundtrip_quote :
    let n := Node.literal (.plain "\"a\nb\\\"".toList (.ofString "en".toList)) rfl
    n.operatorEq (fromN3 (Node.toN3 (N3.typeHashAfter [.ofVariant (.bool true)]) n).1 noFlags) =
      true := by
  refine (n3_roundtrip_iff _ _ rfl rfl (by decide) (by decide)).mpr ⟨?_, trivial, nofun⟩
  simp [LiteralValue.toString, undecoded]

end N3NodeParser

end Soprano
