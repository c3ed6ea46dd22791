import Soprano.Error
import Soprano.NQuadSerializer

/-! `NQuadParser`, and what it reads of the lines that `NQuadSerializer` writes.  Positions in a line
are counted as in the code; an absent position, -1 there, is `none`. -/

namespace Soprano

namespace NQuadParser

open QString

/-- Why no statements are returned: an error, or a loop that never ends. -/
inductive Failure where
  | error (e : Error)
  | endless
deriving DecidableEq

/-- `ParserError( Locator( row, column ), message )` -/
def failAt (row column : Nat) (message : QString) : Failure :=
  .error (.ofLocator ⟨Int32.ofNat row, Int32.ofNat column, -1, []⟩ message
    ErrorCode.errorParsingFailed.code)

/-- `QString::indexOf` of the expression `\s` -/
def indexOfSpace (s : QString) (start : Nat) : Option Nat :=
  ((s.drop start).findIdx? isSpace).map (· + start)

/-- An odd number of backslashes stands before the position. -/
def isEscaped (s : QString) (pos : Nat) : Bool :=
  ((s.take pos).reverse.takeWhile (· == '\\')).length % 2 != 0

/-- The loop of `findLiteralEnd`: the first quote that is not escaped, in `n` turns at most. -/
def quoteFrom (s : QString) : Nat → Nat → Option Nat
  | 0, _ => none
  | n + 1, start =>
    match s.indexOf '"' start with
    | some pos => if isEscaped s pos then quoteFrom s n (pos + 1) else some pos
    | none => none

/-- `findLiteralEnd`: the position of the closing quote, and whether a language follows. -/
def findLiteralEnd (s : QString) (offset : Nat) : Option (Nat × Bool) := do
  let pos ← quoteFrom s s.length (offset + 1)
  let c ← s[pos + 1]?
  if c = '@' then some (pos, true)
  else if pos + 3 < s.length ∧ (s.mid (pos + 1) 3 = ['^', '^', '<'] ∨ isSpace c) then
    some (pos, false)
  else none

/-- The letters of `decodeLiteral`, with what they stand for. -/
def unescapeHash : List (Char × Char) := [('\\', '\\'), ('n', '\n'), ('r', '\r'), ('"', '"')]

def unescapeLetter (c : Char) : Option Char := unescapeHash.lookup c

/-- `decodeLiteral`, which never gets past a single backslash at the end. -/
def decodeLiteral (s : QString) : Except Failure QString :=
  if Escape.dangling unescapeLetter s then .error .endless
  else .ok (Escape.unescape unescapeLetter s)

/-! ### Positions in a line -/

theorem drop_of_drop {s before after : QString} {start : Nat} (h : s.drop start = before ++ after) :
    s.drop (start + before.length) = after := by
  rw [← List.drop_drop, h, List.drop_left]

theorem getElem?_of_drop {s after : QString} {c : Char} {start : Nat}
    (h : s.drop start = c :: after) : s[start]? = some c := by
  rw [← List.head?_drop, h]
  rfl

theorem mid_of_drop {s before after : QString} {start : Nat} (h : s.drop start = before ++ after) :
    s.mid start before.length = before := by
  rw [mid, h, List.take_left]

theorem length_of_drop {s after : QString} {c : Char} {start : Nat}
    (h : s.drop start = c :: after) : s.length = start + after.length + 1 := by
  have hLength := congrArg List.length h
  simp only [List.length_drop, List.length_cons] at hLength
  omega

theorem take_of_drop {s before after : QString} {start : Nat}
    (h : s.drop start = before ++ after) :
    s.take (start + before.length) = s.take start ++ before := by
  rw [List.take_add, h, List.take_left]

theorem indexOfSpace_of_drop {s before after : QString} {c : Char} {start : Nat}
    (h : s.drop start = before ++ c :: after) (hBefore : NoSpace before) (hc : isSpace c = true) :
    indexOfSpace s start = some (start + before.length) := by
  unfold indexOfSpace
  rw [h, findIdx?_append hBefore hc, Option.map_some, Nat.add_comm]

/-- Counting backslashes backwards finds out whether the text ends inside an escape. -/
theorem oddTail_eq (s : QString) :
    Escape.oddTail false s = ((s.reverse.takeWhile (· == '\\')).length % 2 != 0) := by
  induction s using List.reverseRecOn with
  | nil => rfl
  | append_singleton s c ih =>
    rw [Escape.oddTail_concat, ih, List.reverse_append, List.reverse_singleton,
      List.singleton_append, List.takeWhile_cons, Escape.parity]
    by_cases hc : c = '\\'
    · simp only [hc, if_true, beq_self_eq_true, List.length_cons]
      rcases Nat.mod_two_eq_zero_or_one (List.takeWhile (· == '\\') s.reverse).length with h | h
      · simp [h, Nat.add_mod]
      · simp [h, Nat.add_mod]
    · simp [hc]

theorem isEscaped_of_drop {s before after : QString} {start : Nat}
    (h : s.drop start = before ++ after) :
    isEscaped s (start + before.length) =
      Escape.oddTail (Escape.oddTail false (s.take start)) before := by
  rw [isEscaped, ← oddTail_eq, take_of_drop h, Escape.oddTail_append]

/-- The loop passes the quotes of a guarded text, which are escaped, and stops behind it. -/
theorem quoteFrom_of_drop {s body after : QString} {start n : Nat}
    (hDrop : s.drop start = body ++ '"' :: after)
    (hGuarded : Escape.guarded '"' (Escape.oddTail false (s.take start)) body = true)
    (hTail : Escape.oddTail (Escape.oddTail false (s.take start)) body = false)
    (hn : body.length < n) : quoteFrom s n start = some (start + body.length) := by
  induction n generalizing start body with
  | zero => omega
  | succ n ih =>
    by_cases hQuote : '"' ∈ body
    · obtain ⟨before, body, rfl, hBefore⟩ := List.eq_append_cons_of_mem hQuote
      rw [List.append_assoc, List.cons_append] at hDrop
      have hEscaped : isEscaped s (start + before.length) = true := by
        rw [isEscaped_of_drop hDrop]
        exact Escape.guarded_split hGuarded
      have hHere := drop_of_drop hDrop
      have hNext : s.drop (start + before.length + 1) = body ++ '"' :: after :=
        @drop_of_drop s ['"'] _ _ hHere
      have hTake : Escape.oddTail false (s.take (start + before.length + 1)) = false := by
        have := @take_of_drop s ['"'] _ _ hHere
        rw [List.length_singleton] at this
        rw [this, Escape.oddTail_append]
        rfl
      have hRest := ih hNext
        (by
          rw [hTake]
          rw [Escape.guarded_append, Escape.guarded, Bool.and_eq_true, Bool.and_eq_true] at hGuarded
          exact hGuarded.2.2)
        (by
          rw [hTake]
          rw [Escape.oddTail_append] at hTail
          exact hTail)
        (by simp at hn; omega)
      rw [quoteFrom, indexOf_of_drop hDrop hBefore]
      simp only [hEscaped, if_true, hRest, List.length_append, List.length_cons]
      congr 1
      omega
    · have hEscaped : isEscaped s (start + body.length) = false := by
        rw [isEscaped_of_drop hDrop, hTail]
      rw [quoteFrom, indexOf_of_drop hDrop hQuote]
      simp [hEscaped]

section Qt

variable [Qt]

/-- The node that is made of the decoded value of a literal, and the position behind it. -/
def suffixNode (s : QString) (offset literalEndPos : Nat) (hasLangTag : Bool) (value : QString) :
    Node × Nat :=
  if hasLangTag then
    match indexOfSpace s (literalEndPos + 1) with
    | some langEnd =>
      let lang := s.mid (literalEndPos + 2) (langEnd - literalEndPos - 2)
      (.ofLiteral (.createPlainLiteral value (.ofString lang)), langEnd)
    | none => (.empty, offset)
  else if s[literalEndPos + 1]?.any fun c => !isSpace c then
    match s.indexOf '>' (literalEndPos + 4) with
    | some literalTypeEnd =>
      let literalType := s.mid (literalEndPos + 4) (literalTypeEnd - literalEndPos - 4)
      (.ofLiteral (.fromString value
        (QUrl.fromEncoded (QString.toLatin1 literalType) .tolerantMode)), literalTypeEnd + 1)
    | none => (.empty, offset)
  else (.ofLiteral (.createPlainLiteral value .empty), literalEndPos + 1)

/-- The literal whose closing quote stands at `literalEndPos`, and the position behind it. -/
def parseLiteral (s : QString) (offset literalEndPos : Nat) (hasLangTag : Bool) :
    Except Failure (Node × Nat) := do
  let value ← decodeLiteral (s.mid (offset + 1) (literalEndPos - offset - 1))
  pure (suffixNode s offset literalEndPos hasLangTag value)

/-- `NQuadParser::parseNode`: the node and the offset behind it. -/
def parseNode (s : QString) (offset : Nat) : Except Failure (Node × Nat) :=
  match s[offset]? with
  | none => pure (.empty, offset)
  | some c =>
    if c = '<' then
      match s.indexOf '>' (offset + 1) with
      | some pos =>
        pure (.ofUri (QUrl.fromEncoded (QString.toLatin1 (s.mid (offset + 1) (pos - offset - 1)))
          .tolerantMode), pos + 1)
      | none => pure (.empty, offset)
    else if c = '_' ∧ offset + 2 < s.length ∧ s[offset + 1]? = some ':' then
      match indexOfSpace s (offset + 2) with
      | some pos => pure (.ofIdentifier (s.mid (offset + 2) (pos - offset - 1)), pos)
      | none => pure (.empty, offset)
    else if c = '"' then
      match findLiteralEnd s offset with
      | some (literalEndPos, hasLangTag) => parseLiteral s offset literalEndPos hasLangTag
      | none => pure (.empty, offset)
    else pure (.empty, offset)

/-- The offset behind white space. -/
def skipSpace (s : QString) (offset : Nat) : Nat :=
  offset + ((s.drop offset).takeWhile isSpace).length

/-- The context of `parseLine`, unless the dot comes first, and the position behind it. -/
def parseContext (line : QString) (row offset : Nat) : Except Failure (Node × Nat) :=
  if (line)[offset]? = some '.' then pure (.empty, offset)
  else do
    let (context, offset) ← parseNode line offset
    if context.isResource then pure (context, offset)
    else throw (failAt row (offset + 1) "Context has to be a resource node".toList)

/-- The final dot of `parseLine`. -/
def parseDot (line : QString) (row offset : Nat) : Except Failure Unit :=
  if line.length ≤ offset then throw (failAt row offset "Unexpected end of line".toList)
  else if (line)[offset]? = some '.' then pure ()
  else throw (failAt row (offset + 1) ("Expected '.' instead of ".toList ++ line.mid offset 1))

/-- `NQuadParser::parseLine` -/
def parseLine (line : QString) (row : Nat) : Except Failure Statement := do
  let (subject, offset) ← parseNode line 0
  if !(subject.isResource || subject.isBlank) then
    throw (failAt row (offset + 1) "Subject has to be a resource or blank node".toList)
  else
    let (predicate, offset) ← parseNode line (skipSpace line offset)
    if !predicate.isResource then
      throw (failAt row (offset + 1) "Predicate has to be a resource node".toList)
    else
      let (object, offset) ← parseNode line (skipSpace line offset)
      if object.isEmpty then
        throw (failAt row (offset + 1) "Need to have a valid object node".toList)
      else
        let offset := skipSpace line offset
        if line.length ≤ offset then
          throw (failAt row offset "Unexpected end of line".toList)
        else
          let (context, offset) ← parseContext line row offset
          parseDot line row (skipSpace line offset)
          pure ⟨subject, predicate, object, context⟩

/-- The lines that `QTextStream::readLine` returns until it returns null. -/
def lines : QString → List QString
  | [] => []
  | c :: s =>
    if c = '\n' then [] :: lines s
    else
      match lines s with
      | [] => [[c]]
      | line :: rest => (c :: line) :: rest

/-- The loop of `NQuadParser::parseStream`, from a row on. -/
def parseLines (row : Nat) : List QString → Except Failure (List Statement)
  | [] => pure []
  | line :: rest => do
    if line.head? = some '#' then parseLines (row + 1) rest
    else
      let s ← parseLine line.trimmed row
      let sl ← parseLines (row + 1) rest
      pure (s :: sl)

/-- `NQuadParser::parseStream` of N-Quads -/
def parseStream (stream : QString) : Except Failure (List Statement) := parseLines 1 (lines stream)

/-! ### Parsing what was written -/

omit [Qt] in
theorem unescapeLetter_of_escapeHash : ∀ e ∈ NQuadSerializer.escapeHash,
    unescapeLetter e.2 = some e.1 := by
  intro e he
  have := List.all_eq_true.mp (by decide : NQuadSerializer.escapeHash.all (fun e =>
    decide (unescapeLetter e.2 = some e.1)) = true) e he
  simpa using this

omit [Qt] in
theorem unescapeLetter_of_escapeLetter {c letter : Char}
    (h : NQuadSerializer.escapeLetter c = some letter) : unescapeLetter letter = some c := by
  obtain ⟨l₁, l₂, hSplit, -⟩ := List.lookup_eq_some_iff.mp h
  exact unescapeLetter_of_escapeHash (c, letter) (by simp [hSplit])

omit [Qt] in
theorem escapeLetter_backslash : NQuadSerializer.escapeLetter '\\' = some '\\' := rfl

omit [Qt] in
theorem compatible : Escape.Compatible NQuadSerializer.escapeLetter unescapeLetter :=
  .of_known escapeLetter_backslash fun _ _ => unescapeLetter_of_escapeLetter

omit [Qt] in
/-- Every text is decoded to itself. -/
theorem decodeLiteral_escaped (val : QString) :
    decodeLiteral (NQuadSerializer.escaped val) = .ok val := by
  have hText : Escape.unescape unescapeLetter
      (Escape.escape NQuadSerializer.escapeLetter val) = val :=
    Escape.unescape_escape_of_known escapeLetter_backslash
      (fun _ _ => unescapeLetter_of_escapeLetter) val
  rw [decodeLiteral, NQuadSerializer.escaped_eq, Escape.dangling_escape compatible, hText]
  rfl

/-- A text between the quotes of a literal, with what it is decoded to. -/
structure Spells (body val : QString) : Prop where
  guarded : Escape.guarded '"' false body = true
  ends : Escape.oddTail false body = false
  decode : decodeLiteral body = .ok val

omit [Qt] in
theorem spells_escaped (val : QString) : Spells (NQuadSerializer.escaped val) val where
  guarded := by
    rw [NQuadSerializer.escaped_eq]
    exact Escape.guarded_escape compatible.backslash (by decide) (by decide) val
  ends := by
    rw [NQuadSerializer.escaped_eq]
    exact Escape.oddTail_escape compatible.backslash val
  decode := decodeLiteral_escaped val

omit [Qt] in
/-- The end of a literal is found where its closing quote stands. -/
theorem Spells.quoteFrom {s body val after : QString} {offset : Nat} (hBody : Spells body val)
    (h : s.drop offset = '"' :: (body ++ '"' :: after)) :
    quoteFrom s s.length (offset + 1) = some (offset + 1 + body.length) := by
  have hNext : s.drop (offset + 1) = body ++ '"' :: after := @drop_of_drop s ['"'] _ _ h
  have hTake : Escape.oddTail false (s.take (offset + 1)) = false := by
    have := @take_of_drop s ['"'] _ _ h
    rw [List.length_singleton] at this
    rw [this, Escape.oddTail_append]
    rfl
  have hLength := length_of_drop h
  refine quoteFrom_of_drop hNext ?_ ?_ (by simp only [List.length_append] at hLength; omega)
  · rw [hTake]
    exact hBody.guarded
  · rw [hTake]
    exact hBody.ends

/-- What may follow a literal: a language or a data type. -/
def continuation (lang : Bool) (rest : QString) : QString :=
  if lang then '@' :: rest else '^' :: '^' :: '<' :: rest

omit [Qt] in
/-- A literal ends at its closing quote, if a language or a data type follows. -/
theorem Spells.findLiteralEnd {s body val rest : QString} {offset : Nat} {lang : Bool} (hBody : Spells body val)
    (h : s.drop offset = '"' :: (body ++ '"' :: continuation lang rest)) :
    findLiteralEnd s offset = some (offset + 1 + body.length, lang) := by
  have hQuote := hBody.quoteFrom h
  have hNext : s.drop (offset + 1) = body ++ '"' :: continuation lang rest := @drop_of_drop s ['"'] _ _ h
  have hMark : s.drop (offset + 1 + body.length + 1) = continuation lang rest :=
    @drop_of_drop s ['"'] _ _ (drop_of_drop hNext)
  rw [NQuadParser.findLiteralEnd, hQuote]
  cases lang with
  | true => simp [getElem?_of_drop (show _ = '@' :: rest from hMark)]
  | false =>
    have hCaret : s.drop (offset + 1 + body.length + 1) = '^' :: '^' :: '<' :: rest := hMark
    have hLength := length_of_drop hCaret
    simp only [List.length_cons] at hLength
    have hInside : offset + 1 + body.length + 3 < s.length := by omega
    have hMid : s.mid (offset + 1 + body.length + 1) 3 = ['^', '^', '<'] :=
      @mid_of_drop s ['^', '^', '<'] _ _ hCaret
    simp [getElem?_of_drop hCaret, hInside, hMid]

/-- The resource whose text stands between angle brackets. -/
def urlOf (text : QString) : QUrl := QUrl.fromEncoded (QString.toLatin1 text) .tolerantMode

@[simp] theorem urlOf_encoded (u : QUrl) : urlOf u.encoded = u := QUrl.fromEncoded_toEncoded u .tolerantMode

theorem parseNode_resource {s text after : QString} {offset : Nat} (hText : '>' ∉ text)
    (h : s.drop offset = '<' :: (text ++ '>' :: after)) :
    parseNode s offset = .ok (.ofUri (urlOf text), offset + (text.length + 2)) := by
  have hNext : s.drop (offset + 1) = text ++ '>' :: after := @drop_of_drop s ['<'] _ _ h
  have hLength : offset + 1 + text.length - offset - 1 = text.length := by omega
  rw [parseNode, getElem?_of_drop h]
  simp only [if_true, indexOf_of_drop hNext hText, hLength, mid_of_drop hNext]
  rw [show offset + 1 + text.length + 1 = offset + (text.length + 2) by omega]
  rfl

theorem parseNode_blank {s after id : QString} {c : Char} {offset : Nat}
    (h : s.drop offset = '_' :: ':' :: (id ++ c :: after)) (hId : NoSpace id)
    (hc : isSpace c = true) :
    parseNode s offset = .ok (.ofIdentifier (id ++ [c]), offset + (id.length + 2)) := by
  have hNext : s.drop (offset + 1) = ':' :: (id ++ c :: after) := @drop_of_drop s ['_'] _ _ h
  have hBody : s.drop (offset + 2) = id ++ c :: after := @drop_of_drop s ['_', ':'] _ _ h
  have hMid : s.mid (offset + 2) (offset + 2 + id.length - offset - 1) = id ++ [c] := by
    have hBody' : s.drop (offset + 2) = (id ++ [c]) ++ after := by simpa using hBody
    have := mid_of_drop hBody'
    rw [List.length_append, List.length_singleton] at this
    rw [show offset + 2 + id.length - offset - 1 = id.length + 1 by omega, this]
  have hLength := length_of_drop h
  rw [parseNode, getElem?_of_drop h]
  simp only [List.length_cons, List.length_append] at hLength
  have hInside : offset + 2 < s.length := by omega
  simp only [if_neg (show '_' ≠ '<' by decide), hInside, getElem?_of_drop hNext, and_self, if_true,
    indexOfSpace_of_drop hBody hId hc, hMid]
  rw [show offset + 2 + id.length = offset + (id.length + 2) by omega]
  rfl

/-- A literal is parsed from its closing quote on. -/
theorem parseNode_literal {s val body after : QString} {offset : Nat} (hBody : Spells body val)
    (h : s.drop offset = '"' :: (body ++ '"' :: after))
    {hasLangTag : Bool}
    (hEnd : findLiteralEnd s offset = some (offset + 1 + body.length, hasLangTag)) :
    parseNode s offset =
      .ok (suffixNode s offset (offset + 1 + body.length) hasLangTag val) := by
  have hNext : s.drop (offset + 1) = body ++ '"' :: after := @drop_of_drop s ['"'] _ _ h
  have hMid : s.mid (offset + 1) (offset + 1 + body.length - offset - 1) = body := by
    rw [show offset + 1 + body.length - offset - 1 = body.length by omega]
    exact mid_of_drop hNext
  rw [parseNode, getElem?_of_drop h]
  simp only [hEnd, parseLiteral, hMid, hBody.decode]
  rfl

theorem parseNode_lang {s val body lang after : QString} {c : Char} {offset : Nat}
    (hBody : Spells body val) (h : s.drop offset = '"' :: (body ++ '"' :: '@' :: (lang ++ c :: after)))
    (hLang : NoSpace lang) (hc : isSpace c = true) :
    parseNode s offset = .ok (.ofLiteral (.plain val (.ofString lang)),
      offset + (body.length + (lang.length + 3))) := by
  have hNext : s.drop (offset + 1) = body ++ '"' :: '@' :: (lang ++ c :: after) :=
    @drop_of_drop s ['"'] _ _ h
  have hAt : s.drop (offset + 1 + body.length + 1) = '@' :: (lang ++ c :: after) :=
    @drop_of_drop s ['"'] _ _ (drop_of_drop hNext)
  have hTag : s.drop (offset + 1 + body.length + 2) = lang ++ c :: after :=
    @drop_of_drop s ['"', '@'] _ _ (drop_of_drop hNext)
  have hEnd : findLiteralEnd s offset = some (offset + 1 + body.length, true) := hBody.findLiteralEnd h
  have hSpace : NoSpace ('@' :: lang) := by
    intro d hd
    rcases List.mem_cons.mp hd with rfl | hd
    · rfl
    · exact hLang d hd
  have hLangEnd : indexOfSpace s (offset + 1 + body.length + 1) =
      some (offset + 1 + body.length + 1 + (lang.length + 1)) :=
    indexOfSpace_of_drop hAt hSpace hc
  have hLangMid : s.mid (offset + 1 + body.length + 2)
      (offset + 1 + body.length + 1 + (lang.length + 1) - (offset + 1 + body.length) - 2) =
      lang := by
    rw [show offset + 1 + body.length + 1 + (lang.length + 1) -
      (offset + 1 + body.length) - 2 = lang.length by omega]
    exact mid_of_drop hTag
  rw [parseNode_literal hBody h hEnd, suffixNode, if_pos rfl, hLangEnd]
  simp only [hLangMid]
  rw [show offset + 1 + body.length + 1 + (lang.length + 1) =
    offset + (body.length + (lang.length + 3)) by omega]
  rfl

theorem parseNode_type {s val body text after : QString} {offset : Nat} (hBody : Spells body val)
    (hText : '>' ∉ text)
    (h : s.drop offset = '"' :: (body ++ '"' :: '^' :: '^' :: '<' :: (text ++ '>' :: after))) :
    parseNode s offset = .ok (.ofLiteral (.fromString val (urlOf text)),
      offset + (body.length + (text.length + 6))) := by
  have hNext := @drop_of_drop s ['"'] _ _ h
  have hMarks : s.drop (offset + 1 + body.length + 1) =
      ['^', '^', '<'] ++ (text ++ '>' :: after) := @drop_of_drop s ['"'] _ _ (drop_of_drop hNext)
  have hUri : s.drop (offset + 1 + body.length + 4) = text ++ '>' :: after :=
    @drop_of_drop s ['"', '^', '^', '<'] _ _ (drop_of_drop hNext)
  have hCaret : s.drop (offset + 1 + body.length + 1) =
      '^' :: '^' :: '<' :: (text ++ '>' :: after) := hMarks
  have hEnd : findLiteralEnd s offset = some (offset + 1 + body.length, false) := hBody.findLiteralEnd h
  have hTypeEnd : s.indexOf '>' (offset + 1 + body.length + 4) =
      some (offset + 1 + body.length + 4 + text.length) :=
    indexOf_of_drop hUri hText
  have hTypeMid : s.mid (offset + 1 + body.length + 4) (offset + 1 + body.length + 4 +
      text.length - (offset + 1 + body.length) - 4) = text := by
    rw [show offset + 1 + body.length + 4 + text.length - (offset + 1 + body.length) - 4 =
      text.length by omega]
    exact mid_of_drop hUri
  have hTyped : s[offset + 1 + body.length + 1]?.any (fun c => !isSpace c) = true := by
    rw [getElem?_of_drop hCaret]
    rfl
  rw [parseNode_literal hBody h hEnd, suffixNode, if_neg nofun, if_pos hTyped, hTypeEnd]
  simp only [hTypeMid]
  rw [show offset + 1 + body.length + 4 + text.length + 1 =
    offset + (body.length + (text.length + 6)) by omega]
  rfl

open NQuadSerializer

/-- The node that is parsed where `n` was written. -/
def receivedNode : Node → Node
  | .literal (.plain s l) _ =>
    if l.isEmpty then .ofLiteral (.fromString s QUrl.empty) else .ofLiteral (.plain s l)
  | .literal (.typed v u _) _ => .ofLiteral (.fromString (LiteralValue.text v) u)
  | .blank id _ => .ofIdentifier (id ++ [' '])
  | n => n

/-- The identifier of a blank node and the language of a literal hold no white space. -/
def Spaceless (n : Node) : Prop := NoSpace n.identifier ∧ NoSpace n.language

theorem parseNode_serializeNode {s after : QString} {offset : Nat} {n : Node}
    (hValid : n.isValid = true) (hSpace : Spaceless n)
    (h : s.drop offset = serializeNode n ++ ' ' :: after) :
    parseNode s offset = .ok (receivedNode n, offset + (serializeNode n).length) := by
  cases n with
  | empty => cases hValid
  | resource u hu =>
    have hText : serializeNode (.resource u hu) = '<' :: (u.encoded ++ ['>']) := by
      rw [serializeNode, QUrl.fromLatin1_toEncoded]
    rw [hText] at h ⊢
    rw [parseNode_resource (u.notMem rfl) (by simpa using h)]
    simp [receivedNode, hu, Node.ofUri]
  | blank id hId =>
    rw [parseNode_blank h hSpace.1 rfl]
    rfl
  | literal v hv =>
    cases v with
    | null => cases hv
    | plain val l =>
      by_cases hEmpty : l.isEmpty = true
      · have hLang : l.toString = [] := List.isEmpty_iff.mp hEmpty
        have hText : serializeNode (.literal (.plain val l) hv) =
            '"' :: (escaped val ++ '"' :: '^' :: '^' :: '<' :: (QUrl.empty.encoded ++ ['>'])) := by
          simp [serializeNode, serializeLiteral, Node.language, Node.toLiteral,
            LiteralValue.language, LiteralValue.dataTypeUri, LiteralValue.toString, hLang]
        have hLength : (serializeNode (.literal (.plain val l) hv)).length =
            (escaped val).length + (QUrl.empty.encoded.length + 6) := by
          rw [hText]
          simp only [List.length_cons, List.length_append, List.length_nil]
          omega
        rw [hLength]
        rw [hText] at h
        rw [parseNode_type (spells_escaped val) (QUrl.empty.notMem rfl) (by simpa using h), urlOf_encoded,
          receivedNode, if_pos hEmpty]
      · have hLang : l.toString ≠ [] := fun hNil => hEmpty (List.isEmpty_iff.mpr hNil)
        have hText : serializeNode (.literal (.plain val l) hv) =
            '"' :: (escaped val ++ '"' :: '@' :: l.toString) := by
          simp [serializeNode, serializeLiteral, Node.language, Node.toLiteral,
            LiteralValue.language, LiteralValue.toString, LiteralValue.type, LiteralValue.variant,
            QVariant.type, hLang]
        have hLength : (serializeNode (.literal (.plain val l) hv)).length =
            (escaped val).length + (l.toString.length + 3) := by
          rw [hText]
          simp only [List.length_cons, List.length_append]
          omega
        have hTag : NoSpace l.toString := hSpace.2
        rw [hLength]
        rw [hText] at h
        rw [parseNode_lang (spells_escaped val) (by simpa using h) hTag rfl, receivedNode, if_neg hEmpty,
          LanguageTag.ofString_toString]
    | typed v u hStored =>
      have hText : serializeNode (.literal (.typed v u hStored) hv) =
          '"' :: (escaped (LiteralValue.text v) ++
            '"' :: '^' :: '^' :: '<' :: (u.encoded ++ ['>'])) := by
        simp [serializeNode, serializeLiteral, Node.language, Node.toLiteral,
          LiteralValue.language, LiteralValue.dataTypeUri, LiteralValue.toString,
          LanguageTag.toString, LanguageTag.empty]
      have hLength : (serializeNode (.literal (.typed v u hStored) hv)).length =
          (escaped (LiteralValue.text v)).length + (u.encoded.length + 6) := by
        rw [hText]
        simp only [List.length_cons, List.length_append, List.length_nil]
        omega
      rw [hLength]
      rw [hText] at h
      rw [parseNode_type (spells_escaped _) (u.notMem rfl) (by simpa using h), urlOf_encoded, receivedNode]

/-! ### Lines -/

omit [Qt] in
/-- White space is skipped up to a text that does not start with it. -/
theorem drop_skipSpace {s before after : QString} {start : Nat} (h : s.drop start = before ++ after)
    (hBefore : ∀ c ∈ before, isSpace c = true)
    (hAfter : ∀ c, after.head? = some c → isSpace c = false) :
    s.drop (skipSpace s start) = after := by
  have hTake : (before ++ after).takeWhile isSpace = before := by
    rw [List.takeWhile_append_of_pos hBefore]
    cases after with
    | nil => simp
    | cons c after => simp [hAfter c rfl]
  rw [skipSpace, h, hTake]
  exact drop_of_drop h

/-- A valid node is written from a bracket, a quote or an underscore on. -/
theorem head_serializeNode {n : Node} (h : n.isValid = true) (after : QString) :
    ∃ c, (serializeNode n ++ after).head? = some c ∧ isSpace c = false ∧ c ≠ '.' ∧ c ≠ '#' := by
  cases n with
  | empty => cases h
  | resource => exact ⟨'<', rfl, rfl, by decide, by decide⟩
  | literal => exact ⟨'"', rfl, rfl, by decide, by decide⟩
  | blank => exact ⟨'_', rfl, rfl, by decide, by decide⟩

theorem isSpace_head_serializeNode {n : Node} (h : n.isValid = true) (after : QString) :
    ∀ c, (serializeNode n ++ after).head? = some c → isSpace c = false := by
  obtain ⟨c, hc, hSpace, -⟩ := head_serializeNode h after
  intro d hd
  rw [hc, Option.some.injEq] at hd
  exact hd ▸ hSpace

/-- A node is parsed up to the space behind it, and the space is skipped. -/
theorem parseNode_skipSpace {s after : QString} {offset : Nat} {n : Node}
    (hValid : n.isValid = true) (hSpace : Spaceless n)
    (h : s.drop offset = serializeNode n ++ ' ' :: after)
    (hAfter : ∀ c, after.head? = some c → isSpace c = false) :
    ∃ behind, parseNode s offset = .ok (receivedNode n, behind) ∧
      s.drop (skipSpace s behind) = after := by
  refine ⟨_, parseNode_serializeNode hValid hSpace h, ?_⟩
  exact @drop_skipSpace s [' '] after _ (drop_of_drop h) (by simp [isSpace]) hAfter

/-- A statement as it is written, without the line feed. -/
def lineText (s : Statement) : QString :=
  serializeNode s.subject ++ ' ' :: (serializeNode s.predicate ++ ' ' ::
    (serializeNode s.object ++ ' ' ::
      ((if s.context.isEmpty then [] else serializeNode s.context ++ [' ']) ++ ['.'])))

theorem serializeStatement_eq (s : Statement) : serializeStatement s = lineText s ++ ['\n'] := by
  simp [serializeStatement, lineText]

/-- The statement that is parsed where `s` was written. -/
def receivedStatement (s : Statement) : Statement :=
  ⟨receivedNode s.subject, receivedNode s.predicate, receivedNode s.object, receivedNode s.context⟩

theorem isValid_iff {s : Statement} : s.isValid = true ↔
    (s.subject.isResource = true ∨ s.subject.isBlank = true) ∧ s.predicate.isResource = true ∧
      s.object.isValid = true ∧ (s.context.isEmpty = true ∨ s.context.isResource = true) := by
  unfold Statement.isValid
  cases s.context <;> simp [Node.isValid, Node.isEmpty, Node.isResource, Node.type, and_assoc]

theorem receivedNode_of_isResource {n : Node} (h : n.isResource = true) : receivedNode n = n := by
  cases n with
  | resource => rfl
  | _ => cases h

theorem receivedNode_subject {n : Node} (h : n.isResource = true ∨ n.isBlank = true) :
    ((receivedNode n).isResource || (receivedNode n).isBlank) = true := by
  cases n with
  | resource => rfl
  | blank id hId => simp [receivedNode, Node.ofIdentifier, Node.isBlank, Node.type]
  | _ => rcases h with h | h <;> cases h

theorem isValid_of_isResource {n : Node} (h : n.isResource = true) : n.isValid = true := by
  cases n with
  | resource => rfl
  | _ => cases h

theorem isValid_of_subject {n : Node} (h : n.isResource = true ∨ n.isBlank = true) :
    n.isValid = true := by
  cases n with
  | resource | blank => rfl
  | _ => rcases h with h | h <;> cases h

omit [Qt] in
/-- The dot that ends a line is found. -/
theorem parseDot_of_drop {s : QString} {start : Nat} (h : s.drop start = ['.']) (row : Nat) :
    skipSpace s start = start ∧ start < s.length ∧ parseDot s row start = .ok () := by
  have hGet := getElem?_of_drop h
  have hInside : start < s.length := (List.getElem?_eq_some_iff.mp hGet).1
  refine ⟨?_, hInside, ?_⟩
  · rw [skipSpace, h]
    rfl
  · rw [parseDot, if_neg (Nat.not_le.mpr hInside), if_pos hGet]
    rfl

/-- The context of a line is parsed, where there is one. -/
theorem parseContext_of_drop {s : QString} {offset : Nat} {n : Node}
    (hContext : n.isEmpty = true ∨ n.isResource = true) (hSpace : Spaceless n)
    (h : s.drop offset = (if n.isEmpty then [] else serializeNode n ++ [' ']) ++ ['.'])
    (row : Nat) :
    offset < s.length ∧ ∃ behind, parseContext s row offset = .ok (receivedNode n, behind) ∧
      s.drop (skipSpace s behind) = ['.'] := by
  by_cases hEmpty : n.isEmpty = true
  · rw [if_pos hEmpty] at h
    obtain ⟨hSkip, hInside, -⟩ := parseDot_of_drop h row
    refine ⟨hInside, offset, ?_, by rw [hSkip]; exact h⟩
    rw [parseContext, if_pos (getElem?_of_drop h)]
    cases n with
    | empty => rfl
    | _ => cases hEmpty
  · have hResource : n.isResource = true := hContext.resolve_left hEmpty
    rw [if_neg hEmpty, List.append_assoc, List.singleton_append] at h
    obtain ⟨c, hc, -, hDot, -⟩ :=
      head_serializeNode (isValid_of_isResource hResource) [' ', '.']
    have hHere : s[offset]? = some c := by
      rw [← List.head?_drop, h]
      exact hc
    obtain ⟨behind, hParse, hDrop⟩ :=
      parseNode_skipSpace (isValid_of_isResource hResource) hSpace h (by simp [isSpace])
    refine ⟨(List.getElem?_eq_some_iff.mp hHere).1, behind, ?_, hDrop⟩
    have hNe : s[offset]? ≠ some '.' := by
      rw [hHere]
      exact fun hEq => hDot (Option.some.inj hEq)
    rw [parseContext, if_neg hNe, hParse, receivedNode_of_isResource hResource]
    simp only [bind, Except.bind, hResource, if_true]
    rfl

/-- A line is parsed to the statement it was written for, unless the object's literal is read as an
empty node. -/
theorem parseLine_lineText {s : Statement} (hValid : s.isValid = true)
    (hSpace : ∀ n ∈ s.nodes, Spaceless n) (row : Nat) :
    ∃ e, parseLine (lineText s) row =
      if (receivedNode s.object).isEmpty then .error e else .ok (receivedStatement s) := by
  obtain ⟨hSubject, hPredicate, hObject, hContext⟩ := isValid_iff.mp hValid
  simp only [Statement.nodes, List.mem_cons, List.not_mem_nil, or_false, forall_eq_or_imp,
    forall_eq] at hSpace
  obtain ⟨hSpaceS, hSpaceP, hSpaceO, hSpaceC⟩ := hSpace
  have hValidP := isValid_of_isResource hPredicate
  obtain ⟨offS, hParseS, hDropS⟩ := @parseNode_skipSpace _ (lineText s) _ 0 _
    (isValid_of_subject hSubject) hSpaceS rfl (isSpace_head_serializeNode hValidP _)
  obtain ⟨offP, hParseP, hDropP⟩ :=
    parseNode_skipSpace hValidP hSpaceP hDropS (isSpace_head_serializeNode hObject _)
  have hHead : ∀ c, ((if s.context.isEmpty then [] else serializeNode s.context ++ [' ']) ++
      ['.']).head? = some c → isSpace c = false := by
    by_cases hEmpty : s.context.isEmpty = true
    · simp [hEmpty, isSpace]
    · rw [if_neg hEmpty, List.append_assoc]
      exact isSpace_head_serializeNode (isValid_of_isResource (hContext.resolve_left hEmpty)) _
  obtain ⟨offO, hParseO, hDropO⟩ := parseNode_skipSpace hObject hSpaceO hDropP hHead
  obtain ⟨hInside, offC, hParseC, hDropC⟩ := parseContext_of_drop hContext hSpaceC hDropO row
  have hPredicate' : (receivedNode s.predicate).isResource = true := by
    rw [receivedNode_of_isResource hPredicate, hPredicate]
  refine ⟨failAt row (offO + 1) "Need to have a valid object node".toList, ?_⟩
  unfold parseLine
  simp only [hParseS, hParseP, hParseO, bind, Except.bind, receivedNode_subject hSubject,
    hPredicate', Bool.not_true, Bool.false_eq_true, if_false]
  by_cases hReceived : (receivedNode s.object).isEmpty = true
  · simp only [hReceived, if_true]
    rfl
  · simp only [hReceived, Bool.false_eq_true, if_false, Nat.not_le.mpr hInside, hParseC,
      (parseDot_of_drop hDropC row).2.2]
    rfl

omit [Qt] in
theorem notMem_of_noSpace {s : QString} (h : NoSpace s) : '\n' ∉ s := by
  intro hMem
  have := h _ hMem
  revert this
  decide

omit [Qt] in
theorem notMem_escaped (val : QString) : '\n' ∉ escaped val := by
  rw [escaped_eq]
  refine Escape.notMem_escape (by decide) (fun d hd => ?_) (by decide) val
  have hKnown := unescapeLetter_of_escapeLetter hd
  rw [show unescapeLetter '\n' = none by decide] at hKnown
  cases hKnown

/-- The line of a node ends where it should. -/
theorem notMem_serializeNode {n : Node} (h : Spaceless n) : '\n' ∉ serializeNode n := by
  cases n with
  | empty => simp [serializeNode]
  | resource u hu =>
    simp [serializeNode, QUrl.fromLatin1_toEncoded, u.notMem (show isUrlChar '\n' = false from rfl)]
  | blank id hId =>
    have hNone : '\n' ∉ id := notMem_of_noSpace h.1
    simp [serializeNode, hNone]
  | literal v hv =>
    have hLang : '\n' ∉ (Node.literal v hv).language := notMem_of_noSpace h.2
    have hUri := v.dataTypeUri.notMem (show isUrlChar '\n' = false from rfl)
    simp only [serializeNode, serializeLiteral]
    split <;> simp [notMem_escaped, hLang, QUrl.fromLatin1_toEncoded, hUri]

theorem notMem_lineText {s : Statement} (h : ∀ n ∈ s.nodes, Spaceless n) : '\n' ∉ lineText s := by
  simp only [Statement.nodes, List.mem_cons, List.not_mem_nil, or_false, forall_eq_or_imp,
    forall_eq] at h
  obtain ⟨hS, hP, hO, hC⟩ := h
  unfold lineText
  split <;> simp [notMem_serializeNode hS, notMem_serializeNode hP, notMem_serializeNode hO,
    notMem_serializeNode hC]

omit [Qt] in
theorem lines_append {line : QString} (h : '\n' ∉ line) (s : QString) :
    lines (line ++ '\n' :: s) = line :: lines s := by
  induction line with
  | nil => rfl
  | cons c line ih =>
    rw [List.mem_cons, not_or] at h
    rw [List.cons_append, lines, if_neg (Ne.symm h.1), ih h.2]

/-- The lines of a document are those of its statements. -/
theorem lines_serialize {ss : List Statement} (h : ∀ s ∈ ss, ∀ n ∈ s.nodes, Spaceless n) :
    lines (serialize ss) = ss.map lineText := by
  induction ss with
  | nil => rfl
  | cons s ss ih =>
    have hText : serialize (s :: ss) = lineText s ++ '\n' :: serialize ss := by
      simp [serialize, serializeStatement_eq]
    rw [hText, lines_append (notMem_lineText (h s (by simp))), List.map_cons,
      ih fun t ht => h t (by simp [ht])]

/-- A line is neither a comment nor changed by `trimmed`. -/
theorem lineText_trimmed {s : Statement} (h : s.isValid = true) :
    (lineText s).head? ≠ some '#' ∧ trimmed (lineText s) = lineText s := by
  obtain ⟨c, hc, hSpace, -, hComment⟩ :=
    head_serializeNode (isValid_of_subject (isValid_iff.mp h).1) (' ' :: (serializeNode s.predicate ++
      ' ' :: (serializeNode s.object ++ ' ' ::
        ((if s.context.isEmpty then [] else serializeNode s.context ++ [' ']) ++ ['.']))))
  have hHead : (lineText s).head? = some c := hc
  constructor
  · rw [hHead]
    exact fun hEq => hComment (Option.some.inj hEq)
  · refine trimmed_eq (fun d hd => ?_) fun d hd => ?_
    · rw [hHead] at hd
      exact Option.some.inj hd ▸ hSpace
    · have hDot : (lineText s).getLast? = some '.' := by
        rw [show lineText s = (serializeNode s.subject ++ ' ' :: (serializeNode s.predicate ++ ' ' ::
          (serializeNode s.object ++ ' ' ::
            (if s.context.isEmpty then [] else serializeNode s.context ++ [' '])))) ++ ['.'] by
              simp [lineText], List.getLast?_concat]
      rw [hDot] at hd
      exact Option.some.inj hd ▸ rfl

/-! ### Documents -/

theorem parseLines_cons {s : Statement} (hValid : s.isValid = true)
    (hSpace : ∀ n ∈ s.nodes, Spaceless n) (row : Nat) (rest : List QString) :
    ∃ e, parseLines row (lineText s :: rest) =
      if (receivedNode s.object).isEmpty then .error e
      else (parseLines (row + 1) rest).map (receivedStatement s :: ·) := by
  obtain ⟨e, hParse⟩ := parseLine_lineText hValid hSpace row
  obtain ⟨hComment, hTrimmed⟩ := lineText_trimmed hValid
  refine ⟨e, ?_⟩
  rw [parseLines, if_neg hComment, hTrimmed, hParse]
  by_cases hReceived : (receivedNode s.object).isEmpty = true
  · simp only [if_pos hReceived]
    rfl
  · simp only [if_neg hReceived]
    cases parseLines (row + 1) rest <;> rfl

/-- A document of statements that are received as they are is parsed to them. -/
theorem parseLines_of_received {ss : List Statement} (hValid : ∀ s ∈ ss, s.isValid = true)
    (hSpace : ∀ s ∈ ss, ∀ n ∈ s.nodes, Spaceless n)
    (hReceived : ∀ s ∈ ss, receivedStatement s = s) (row : Nat) :
    parseLines row (ss.map lineText) = .ok ss := by
  induction ss generalizing row with
  | nil => rfl
  | cons s ss ih =>
    obtain ⟨e, hCons⟩ := parseLines_cons (hValid s (by simp)) (hSpace s (by simp)) row
      (ss.map lineText)
    have hSame := hReceived s (by simp)
    have hObject : (receivedNode s.object).isEmpty = false := by
      rw [show receivedNode s.object = s.object from congrArg Statement.object hSame]
      simpa [Node.isValid] using (isValid_iff.mp (hValid s (by simp))).2.2.1
    rw [List.map_cons, hCons, hObject, ih (fun t ht => hValid t (by simp [ht]))
      (fun t ht => hSpace t (by simp [ht])) (fun t ht => hReceived t (by simp [ht])), hSame]
    rfl

/-- What is parsed of a document is what is received of its statements. -/
theorem eq_of_parseLines {ss ts : List Statement} (hValid : ∀ s ∈ ss, s.isValid = true)
    (hSpace : ∀ s ∈ ss, ∀ n ∈ s.nodes, Spaceless n) {row : Nat}
    (h : parseLines row (ss.map lineText) = .ok ts) : ts = ss.map receivedStatement := by
  induction ss generalizing row ts with
  | nil =>
    cases h
    rfl
  | cons s ss ih =>
    obtain ⟨e, hCons⟩ := parseLines_cons (hValid s (by simp)) (hSpace s (by simp)) row
      (ss.map lineText)
    rw [List.map_cons, hCons] at h
    by_cases hReceived : (receivedNode s.object).isEmpty = true
    · rw [if_pos hReceived] at h
      cases h
    · rw [if_neg hReceived] at h
      cases hRest : parseLines (row + 1) (ss.map lineText) with
      | error f =>
        rw [hRest] at h
        cases h
      | ok us =>
        rw [hRest] at h
        cases h
        rw [ih (fun t ht => hValid t (by simp [ht])) (fun t ht => hSpace t (by simp [ht])) hRest,
          List.map_cons]

/-- The nodes that a line keeps: resources, plain literals with a language, and typed literals
without an invalid date or time. -/
def Kept : Node → Prop
  | .literal (.plain _ l) _ => l.isEmpty = false
  | .literal (.typed v _ _) _ => v.ValidDateTime
  | .blank _ _ => False
  | _ => True

theorem receivedNode_eq_iff {n : Node} (h : n.isDouble = false) : receivedNode n = n ↔ Kept n := by
  cases n with
  | empty | resource => simp [receivedNode, Kept]
  | blank id hId => simp [receivedNode, Kept, Node.ofIdentifier]
  | literal v hv =>
    have hLiteral : ∀ w : LiteralValue, Node.ofLiteral w = .literal v hv ↔ w = v := by
      intro w
      rw [Node.ofLiteral]
      split
      · rw [Node.literal.injEq]
      · rename_i hInvalid
        simp only [reduceCtorEq, false_iff]
        rintro rfl
        exact hInvalid hv
    cases v with
    | null => cases hv
    | plain s l =>
      rw [receivedNode, Kept]
      by_cases hEmpty : l.isEmpty = true
      · rw [if_pos hEmpty, hLiteral, hEmpty]
        refine iff_of_false (fun hEq => ?_) (by rintro ⟨⟩)
        have := LiteralValue.isPlain_fromString s QUrl.empty
        rw [hEq] at this
        cases this
      · rw [if_neg hEmpty, hLiteral]
        simpa using hEmpty
    | typed v u hStored =>
      rw [receivedNode, hLiteral, Kept]
      exact LiteralValue.fromString_eq_typed_iff hStored
        (by simpa [Node.isDouble, Node.toLiteral, LiteralValue.isDouble, LiteralValue.type,
          LiteralValue.variant] using h)

theorem isDouble_of_isValid {s : Statement} (hValid : s.isValid = true)
    (hDouble : s.object.isDouble = false) : ∀ n ∈ s.nodes, n.isDouble = false := by
  obtain ⟨hSubject, hPredicate, -, hContext⟩ := isValid_iff.mp hValid
  have hResource : ∀ n : Node, n.isLiteral = false → n.isDouble = false := by
    intro n hn
    cases n with
    | literal => cases hn
    | _ => rfl
  simp only [Statement.nodes, List.mem_cons, List.not_mem_nil, or_false, forall_eq_or_imp, forall_eq]
  refine ⟨hResource _ ?_, hResource _ ?_, hDouble, hResource _ ?_⟩
  · cases hNode : s.subject <;> simp_all [Node.isLiteral, Node.isResource, Node.isBlank, Node.type]
  · cases hNode : s.predicate <;> simp_all [Node.isLiteral, Node.isResource, Node.type]
  · cases hNode : s.context <;>
      simp_all [Node.isLiteral, Node.isResource, Node.isEmpty, Node.type]

theorem receivedStatement_eq_iff {s : Statement} (h : ∀ n ∈ s.nodes, n.isDouble = false) :
    (∀ n ∈ s.nodes, Kept n) ↔ receivedStatement s = s := by
  have hNode : ∀ n ∈ s.nodes, (receivedNode n = n ↔ Kept n) := fun n hn => receivedNode_eq_iff (h n hn)
  simp only [Statement.nodes, List.mem_cons, List.not_mem_nil, or_false, forall_eq_or_imp,
    forall_eq] at hNode ⊢
  obtain ⟨hS, hP, hO, hC⟩ := hNode
  rw [← hS, ← hP, ← hO, ← hC]
  cases s
  simp [receivedStatement]

/-- A document is read back as it was exactly if it holds no blank node, every plain literal has a
language and no date or time is invalid. -/
theorem nquads_roundtrip_iff (ss : List Statement) (hValid : ∀ s ∈ ss, s.isValid = true)
    (hDouble : ∀ s ∈ ss, s.object.isDouble = false)
    (hSpace : ∀ s ∈ ss, ∀ n ∈ s.nodes, Spaceless n) :
    (∃ ts, parseStream (serialize ss) = .ok ts ∧
      List.Forall₂ (fun s t => s.operatorEq t = true) ss ts) ↔
      ∀ s ∈ ss, ∀ n ∈ s.nodes, Kept n := by
  have hNode : ∀ s ∈ ss, ∀ n ∈ s.nodes, n.isDouble = false := fun s hs =>
    isDouble_of_isValid (hValid s hs) (hDouble s hs)
  have hKept : (∀ s ∈ ss, ∀ n ∈ s.nodes, Kept n) ↔ ∀ s ∈ ss, receivedStatement s = s :=
    forall₂_congr fun s hs => receivedStatement_eq_iff (hNode s hs)
  rw [hKept, parseStream, lines_serialize hSpace]
  constructor
  · rintro ⟨ts, hParse, hEq⟩
    rw [eq_of_parseLines hValid hSpace hParse, List.forall₂_map_right_iff, List.forall₂_same] at hEq
    exact fun s hs => ((Statement.operatorEq_iff (hNode s hs)).mp (hEq s hs)).symm
  · intro hReceived
    refine ⟨ss, parseLines_of_received hValid hSpace hReceived 1, List.forall₂_same.mpr ?_⟩
    exact fun s hs => (Statement.operatorEq_iff (hNode s hs)).mpr rfl

end Qt

section Example

open NQuadSerializer

local instance nquadQt : Qt := asciiQt

/-- The space behind a blank node becomes a part of its identifier, and a plain literal without a
language becomes a typed one. -/
theorem nquads_roundtrip_blank :
    let s : Statement := ⟨.ofIdentifier "b".toList, .ofUri Vocabulary.RDF.type,
      .ofLiteral (.createPlainLiteral "x".toList .empty), .empty⟩
    let t : Statement := ⟨.ofIdentifier "b ".toList, .ofUri Vocabulary.RDF.type,
      .ofLiteral (.fromString "x".toList .empty), .empty⟩
    s.isValid = true ∧ s.object.isDouble = false ∧
      (∀ n ∈ s.nodes, NoSpace n.identifier ∧ NoSpace n.language) ∧
      parseStream (serialize [s]) = .ok [t] ∧ s.subject.operatorEq t.subject = false ∧
      s.object.operatorEq t.object = false := by
  decide

/-- A quoted text with a language, in a context, comes back. -/
theorem nquads_roundtrip_lang :
    let s : Statement := ⟨.ofUri Vocabulary.RDF.type, .ofUri Vocabulary.RDF.object,
      .ofLiteral (.createPlainLiteral "a \"b\\\n".toList (.ofString "en".toList)),
      .ofUri Vocabulary.RDF.subject⟩
    ∃ ts, parseStream (serialize [s]) = .ok ts ∧
      List.Forall₂ (fun s t => s.operatorEq t = true) [s] ts := by
  refine (nquads_roundtrip_iff _ (by decide) (by decide +kernel) ?_).mpr ?_
  · unfold Spaceless
    decide
  · simp only [forall_eq, Statement.nodes, List.mem_cons, List.not_mem_nil,
      or_false, forall_eq_or_imp]
    exact ⟨trivial, trivial, rfl, trivial⟩

end Example

end NQuadParser

end Soprano
