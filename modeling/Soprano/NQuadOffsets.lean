import Soprano.NQuadParser

/-! `NQuadParser::parseLine` with its positions as the code has them: signed numbers, -1 where nothing
is found, and every character read through an index that may be out of bounds. `fuel` is how many
turns each loop is given. -/

namespace Soprano

namespace NQuadParser.Offsets

open QString

/-- What the parser must not run into. -/
inductive Fault
  | outOfBounds
  | endless

/-- `QString::operator[]` -/
def charAt (s : QString) (i : Int) : Except Fault Char :=
  if i < 0 then throw .outOfBounds
  else
    match s[i.toNat]? with
    | some c => pure c
    | none => throw .outOfBounds

/-- `QString::indexOf` of the expression `\s` -/
def indexOfSpaceAt (s : QString) (start : Int) : Int :=
  let start := if start < 0 then max (start + s.length) 0 else start
  match indexOfSpace s start.toNat with
  | some i => i
  | none => -1

/-- `QString::replace` of `count` characters from a position on -/
def replaceAt (s : QString) (pos count : Nat) (after : QString) : QString :=
  s.take pos ++ after ++ s.drop (pos + count)

/-- The loop of `isEscaped`. -/
def countBackslashes (s : QString) : Nat → Nat → Except Fault Nat
  | 0, bsc => pure bsc
  | pos + 1, bsc => do
    if (← charAt s pos) = '\\' then countBackslashes s pos (bsc + 1) else pure bsc

def isEscaped (s : QString) (pos : Int) : Except Fault Bool := do
  let bsc ← countBackslashes s pos.toNat 0
  pure (bsc % 2 != 0)

/-- The loop of `findLiteralEnd`. -/
def quoteFrom (s : QString) : Nat → Int → Except Fault Int
  | 0, _ => throw .endless
  | fuel + 1, pos => do
    let pos := s.indexOfAt '"' (pos + 1)
    if pos < s.length then
      if ← isEscaped s pos then quoteFrom s fuel pos else pure pos
    else pure pos

/-- `findLiteralEnd`: the position and `lang`. -/
def findLiteralEnd (fuel : Nat) (s : QString) (offset : Int) : Except Fault (Int × Bool) := do
  let pos ← quoteFrom s fuel offset
  if pos + 1 < s.length then
    let c ← charAt s (pos + 1)
    if c = '@' then pure (pos, true)
    else if pos + 3 < s.length ∧ (s.midAt (pos + 1) 3 = ['^', '^', '<'] ∨ isSpace c) then
      pure (pos, false)
    else pure (-1, false)
  else pure (-1, false)

/-- What `decodeLiteral` makes of the backslash at `pos` and the character behind it. -/
def decodeEscape (s : QString) (pos : Nat) (c : Char) : QString :=
  if c = '\\' then replaceAt s pos 1 []
  else if c = 'n' then replaceAt s pos 2 ['\n']
  else if c = 'r' then replaceAt s pos 2 ['\r']
  else if c = '"' then replaceAt s pos 1 []
  else s

/-- A turn of the loop in `decodeLiteral`. -/
def decodeTurn (s : QString) (pos : Int) : Except Fault (QString × Int) := do
  let pos := s.indexOfAt '\\' pos
  if pos ≠ -1 ∧ pos + 1 < s.length then
    let c ← charAt s (pos + 1)
    pure (decodeEscape s pos.toNat c, pos + 1)
  else pure (s, pos)

/-- The condition of that loop. -/
def Searches (s : QString) (pos : Int) : Prop := 0 ≤ pos ∧ pos < s.length

instance (s : QString) (pos : Int) : Decidable (Searches s pos) := inferInstanceAs (Decidable (_ ∧ _))

def decodeFrom : Nat → QString → Int → Except Fault QString
  | 0, _, _ => throw .endless
  | fuel + 1, s, pos => do
    if Searches s pos then
      let (s, pos) ← decodeTurn s pos
      decodeFrom fuel s pos
    else pure s

def decodeLiteral (fuel : Nat) (s : QString) : Except Fault QString := decodeFrom fuel s 0

/-- Every turn of the loop in `decodeLiteral` either is the last or leaves less of the text. -/
inductive Progresses : QString → Int → Prop
  | stop {s : QString} {pos : Int} : ¬ Searches s pos → Progresses s pos
  | turn {s s' : QString} {pos pos' : Int} : Searches s pos → decodeTurn s pos = .ok (s', pos') →
      pos' = -1 ∨ s'.length - pos' < s.length - pos → Progresses s' pos' → Progresses s pos

/-- The offset of a line, those before it, the latest first, and the texts that were decoded. -/
structure Trace where
  offset : Int
  past : List Int
  decoded : List QString

def Trace.start : Trace := ⟨0, [], []⟩

def Trace.moveTo (t : Trace) (offset : Int) : Trace :=
  { t with offset := offset, past := t.offset :: t.past }

/-- The condition under which a literal has a datatype. -/
def hasType (s : QString) (literalEndPos : Int) : Except Fault Bool := do
  if s.length > literalEndPos + 1 then pure !isSpace (← charAt s (literalEndPos + 1)) else pure false

/-- The condition under which a node is blank, for the character at its offset. -/
def startsBlank (s : QString) (offset : Int) (c : Char) : Except Fault Bool := do
  if c = '_' ∧ s.length > offset + 2 then pure ((← charAt s (offset + 1)) == ':') else pure false

section Qt

variable [Qt]

/-- The rest of `parseNode` for a literal. -/
def suffixNode (s : QString) (t : Trace) (literalEndPos : Int) (hasLangTag : Bool) (value : QString) :
    Except Fault (Node × Trace) := do
  if hasLangTag then
    let langEnd := indexOfSpaceAt s (literalEndPos + 1)
    if langEnd > 0 then
      let lang := s.midAt (literalEndPos + 2) (langEnd - literalEndPos - 2)
      pure (.ofLiteral (.createPlainLiteral value (.ofString lang)), t.moveTo langEnd)
    else pure (.empty, t)
  else
    if ← hasType s literalEndPos then
      let literalTypeEnd := s.indexOfAt '>' (literalEndPos + 4)
      if literalTypeEnd > 0 then
        let literalType := s.midAt (literalEndPos + 4) (literalTypeEnd - literalEndPos - 4)
        pure (.ofLiteral (.fromString value
          (QUrl.fromEncoded (QString.toLatin1 literalType) .tolerantMode)), t.moveTo (literalTypeEnd + 1))
      else pure (.empty, t)
    else pure (.ofLiteral (.createPlainLiteral value .empty), t.moveTo (literalEndPos + 1))

def parseNode (fuel : Nat) (s : QString) (t : Trace) : Except Fault (Node × Trace) := do
  if s.length > t.offset then
    let c ← charAt s t.offset
    if c = '<' then
      let pos := s.indexOfAt '>' (t.offset + 1)
      if pos > 0 then
        pure (.ofUri (QUrl.fromEncoded
          (QString.toLatin1 (s.midAt (t.offset + 1) (pos - t.offset - 1))) .tolerantMode), t.moveTo (pos + 1))
      else pure (.empty, t)
    else
      if ← startsBlank s t.offset c then
        let pos := indexOfSpaceAt s (t.offset + 2)
        if pos > 0 then
          pure (.ofIdentifier (s.midAt (t.offset + 2) (pos - t.offset - 1)), t.moveTo pos)
        else pure (.empty, t)
      else if c = '"' then
        let (literalEndPos, hasLangTag) ← findLiteralEnd fuel s t.offset
        if literalEndPos > 0 then
          let text := s.midAt (t.offset + 1) (literalEndPos - t.offset - 1)
          let value ← decodeLiteral fuel text
          suffixNode s { t with decoded := text :: t.decoded } literalEndPos hasLangTag value
        else pure (.empty, t)
      else pure (.empty, t)
  else pure (.empty, t)

/-- A loop that skips white space. -/
def skipSpace (s : QString) : Nat → Trace → Except Fault Trace
  | 0, _ => throw .endless
  | fuel + 1, t => do
    if t.offset < s.length then
      if isSpace (← charAt s t.offset) then skipSpace s fuel (t.moveTo (t.offset + 1)) else pure t
    else pure t

/-- `ParserError( Locator( row, column ), message )` -/
def errorAt (row : Nat) (column : Int) (message : QString) : Error :=
  .ofLocator ⟨Int32.ofNat row, Int32.ofInt column, -1, []⟩ message ErrorCode.errorParsingFailed.code

/-- The context of `parseLine`, unless the dot comes first. -/
def parseContext (fuel : Nat) (line : QString) (row : Nat) (t : Trace) :
    Except Fault (Except Error Node × Trace) := do
  if (← charAt line t.offset) ≠ '.' then
    let (context, t) ← parseNode fuel line t
    if !context.isResource then
      pure (.error (errorAt row (t.offset + 1) "Context has to be a resource node".toList), t)
    else pure (.ok context, t)
  else pure (.ok .empty, t)

/-- The final dot of `parseLine`. -/
def parseDot (line : QString) (row : Nat) (offset : Int) : Except Fault (Except Error Unit) := do
  if offset ≥ line.length then pure (.error (errorAt row offset "Unexpected end of line".toList))
  else if (← charAt line offset) ≠ '.' then
    pure (.error (errorAt row (offset + 1) ("Expected '.' instead of ".toList ++ line.midAt offset 1)))
  else pure (.ok ())

def parseLine (fuel : Nat) (line : QString) (row : Nat) :
    Except Fault (Except Error Statement × Trace) := do
  let (subject, t) ← parseNode fuel line .start
  if !(subject.isResource || subject.isBlank) then
    pure (.error (errorAt row (t.offset + 1)
      "Subject has to be a resource or blank node".toList), t)
  else
    let (predicate, t) ← parseNode fuel line (← skipSpace line fuel t)
    if !predicate.isResource then
      pure (.error (errorAt row (t.offset + 1) "Predicate has to be a resource node".toList), t)
    else
      let (object, t) ← parseNode fuel line (← skipSpace line fuel t)
      if object.isEmpty then
        pure (.error (errorAt row (t.offset + 1) "Need to have a valid object node".toList), t)
      else
        let t ← skipSpace line fuel t
        if t.offset ≥ line.length then
          pure (.error (errorAt row t.offset "Unexpected end of line".toList), t)
        else
          match ← parseContext fuel line row t with
          | (.error e, t) => pure (.error e, t)
          | (.ok context, t) =>
            let t ← skipSpace line fuel t
            match ← parseDot line row t.offset with
            | .error e => pure (.error e, t)
            | .ok () => pure (.ok ⟨subject, predicate, object, context⟩, t)

end Qt

/-! ### Reading -/

section Reading

variable {s : QString} {c : Char} {i start : Nat}

theorem charAt_eq (h : s[i]? = some c) : charAt s (i : Int) = .ok c := by
  rw [charAt, if_neg (by omega), Int.toNat_natCast, h]
  rfl

theorem indexOfAt_of_some (h : s.indexOf c start = some i) : s.indexOfAt c (start : Int) = i := by
  rw [indexOfAt, if_neg (by omega), Int.toNat_natCast, h]

theorem indexOfAt_of_none (h : s.indexOf c start = none) : s.indexOfAt c (start : Int) = -1 := by
  rw [indexOfAt, if_neg (by omega), Int.toNat_natCast, h]

theorem indexOfSpaceAt_of_some (h : indexOfSpace s start = some i) :
    indexOfSpaceAt s (start : Int) = i := by
  rw [indexOfSpaceAt, if_neg (by omega), Int.toNat_natCast, h]

theorem indexOfSpaceAt_of_none (h : indexOfSpace s start = none) :
    indexOfSpaceAt s (start : Int) = -1 := by
  rw [indexOfSpaceAt, if_neg (by omega), Int.toNat_natCast, h]

theorem midAt_eq (position count : Nat) : s.midAt (position : Int) (count : Int) = s.mid position count := by
  rw [midAt, if_neg (by omega), if_neg (by omega), Int.toNat_natCast, Int.toNat_natCast, mid]

/-- What is found stands at or behind the start, inside the text. -/
theorem bounds_of_findIdx {p : Char → Bool} (h : ((s.drop start).findIdx? p).map (· + start) = some i) :
    start ≤ i ∧ i < s.length ∧ ∃ c, s[i]? = some c ∧ p c = true := by
  obtain ⟨k, hFind, rfl⟩ := Option.map_eq_some_iff.mp h
  obtain ⟨hLength, hHere, -⟩ := List.findIdx?_eq_some_iff_getElem.mp hFind
  rw [List.length_drop] at hLength
  refine ⟨by omega, by omega, (s.drop start)[k], ?_, hHere⟩
  rw [Nat.add_comm k, ← List.getElem?_drop]
  exact List.getElem?_eq_getElem _

theorem bounds_of_indexOf (h : s.indexOf c start = some i) :
    start ≤ i ∧ i < s.length ∧ s[i]? = some c := by
  obtain ⟨hStart, hInside, d, hHere, hd⟩ := bounds_of_findIdx h
  rw [beq_iff_eq] at hd
  exact ⟨hStart, hInside, hd ▸ hHere⟩

theorem countBackslashes_eq {pos : Nat} (h : pos ≤ s.length) (bsc : Nat) :
    countBackslashes s pos bsc =
      .ok (bsc + ((s.take pos).reverse.takeWhile (· == '\\')).length) := by
  induction pos generalizing bsc with
  | zero => rfl
  | succ pos ih =>
    have hHere : s[pos]? = some s[pos] := List.getElem?_eq_getElem h
    rw [countBackslashes, charAt_eq hHere, List.take_add_one, hHere]
    simp only [bind, Except.bind, Option.toList_some, List.reverse_append, List.reverse_singleton,
      List.singleton_append, List.takeWhile_cons]
    by_cases hBackslash : s[pos] = '\\'
    · rw [if_pos hBackslash, ih (by omega), if_pos (by simp [hBackslash]), List.length_cons]
      congr 1
      omega
    · rw [if_neg hBackslash, if_neg (by simp [hBackslash])]
      rfl

theorem isEscaped_eq {pos : Nat} (h : pos ≤ s.length) :
    isEscaped s (pos : Int) = .ok (NQuadParser.isEscaped s pos) := by
  rw [isEscaped, Int.toNat_natCast, countBackslashes_eq h, Nat.zero_add]
  rfl

/-- Before the text, where the search ends that finds no quote, nothing is escaped. -/
theorem isEscaped_neg : isEscaped s (-1) = .ok false := rfl

/-- The loop of `findLiteralEnd` ends, and finds what the list of characters has. -/
theorem quoteFrom_eq {n fuel : Nat} (hLength : s.length ≤ start + 1 + n) (hFuel : n < fuel) :
    quoteFrom s fuel (start : Int) = .ok (match NQuadParser.quoteFrom s n (start + 1) with
      | some pos => (pos : Int)
      | none => -1) := by
  induction n generalizing start fuel with
  | zero =>
    have hNone : s.indexOf '"' (start + 1) = none := by
      rw [QString.indexOf, List.drop_eq_nil_of_le (by omega)]
      rfl
    obtain ⟨fuel, rfl⟩ := Nat.exists_eq_succ_of_ne_zero (Nat.ne_of_gt hFuel)
    rw [quoteFrom, NQuadParser.quoteFrom, ← Nat.cast_succ, indexOfAt_of_none hNone, isEscaped_neg]
    simp only [bind, Except.bind]
    split <;> rfl
  | succ n ih =>
    obtain ⟨fuel, rfl⟩ := Nat.exists_eq_succ_of_ne_zero (Nat.ne_of_gt (Nat.zero_lt_of_lt hFuel))
    rw [quoteFrom, NQuadParser.quoteFrom, ← Nat.cast_succ]
    cases hFind : s.indexOf '"' (start + 1) with
    | none =>
      rw [indexOfAt_of_none hFind, isEscaped_neg]
      simp only [bind, Except.bind]
      split <;> rfl
    | some pos =>
      obtain ⟨hStart, hInside, -⟩ := bounds_of_indexOf hFind
      rw [indexOfAt_of_some hFind, isEscaped_eq (by omega), if_pos (by omega)]
      simp only [bind, Except.bind]
      cases NQuadParser.isEscaped s pos with
      | true => exact ih (by omega) (by omega)
      | false => rfl

/-- The quote that is found is behind the offset and not escaped. -/
theorem quoteFrom_bounds {n pos : Nat} (h : NQuadParser.quoteFrom s n start = some pos) :
    start ≤ pos ∧ pos < s.length ∧ NQuadParser.isEscaped s pos = false := by
  induction n generalizing start with
  | zero => cases h
  | succ n ih =>
    rw [NQuadParser.quoteFrom] at h
    cases hFind : s.indexOf '"' start with
    | none =>
      rw [hFind] at h
      cases h
    | some p =>
      obtain ⟨hStart, hInside, -⟩ := bounds_of_indexOf hFind
      rw [hFind] at h
      cases hEscaped : NQuadParser.isEscaped s p with
      | true =>
        simp only [hEscaped, if_true] at h
        obtain ⟨hNext, hRest⟩ := ih h
        exact ⟨by omega, hRest⟩
      | false =>
        simp only [hEscaped, Bool.false_eq_true, if_false, Option.some.injEq] at h
        subst h
        exact ⟨hStart, hInside, hEscaped⟩

/-- Where no literal ends, the position is -1, whatever the first character of the line is. -/
theorem findLiteralEnd_of_none {fuel : Nat} (hStart : start < s.length) (hFuel : s.length < fuel)
    (h : NQuadParser.findLiteralEnd s start = none) :
    ∃ lang, findLiteralEnd fuel s (start : Int) = .ok (-1, lang) := by
  have hQuote := @quoteFrom_eq s start s.length fuel (by omega) hFuel
  rw [findLiteralEnd, hQuote]
  rw [NQuadParser.findLiteralEnd] at h
  simp only [bind, Except.bind]
  cases hFound : NQuadParser.quoteFrom s s.length (start + 1) with
  | none =>
    have hFirst : s[0]? = some s[0] := List.getElem?_eq_getElem (by omega)
    simp only [Int.reduceNeg, Int.reduceAdd]
    rw [if_pos (by omega), show (0 : Int) = ((0 : Nat) : Int) from rfl, charAt_eq hFirst]
    by_cases hAt : s[0] = '@'
    · exact ⟨true, by simp only [hAt, if_true]; rfl⟩
    · refine ⟨false, ?_⟩
      simp only [if_neg hAt]
      split <;> rfl
  | some pos =>
    rw [hFound] at h
    simp only [Option.bind_eq_bind, Option.bind_some] at h ⊢
    by_cases hInside : pos + 1 < s.length
    · have hNext : s[pos + 1]? = some s[pos + 1] := List.getElem?_eq_getElem hInside
      rw [hNext, Option.bind_some] at h
      by_cases hAt : s[pos + 1] = '@'
      · simp [hAt] at h
      · rw [if_neg hAt] at h
        split at h
        · cases h
        · rename_i hNot
          rw [if_pos (by omega), ← Nat.cast_succ, charAt_eq hNext]
          refine ⟨false, ?_⟩
          have hNot' : ¬ ((pos : Int) + 3 < s.length ∧
              (s.midAt ((pos + 1 : Nat) : Int) 3 = ['^', '^', '<'] ∨ isSpace s[pos + 1] = true)) := by
            rw [show (3 : Int) = ((3 : Nat) : Int) from rfl, midAt_eq]
            rintro ⟨hLength, hMid⟩
            exact hNot ⟨by omega, hMid⟩
          simp only [if_neg hAt, if_neg hNot']
          rfl
    · exact ⟨false, by rw [if_neg (by omega)]; rfl⟩

theorem findLiteralEnd_of_some {fuel pos : Nat} {lang : Bool} (hFuel : s.length < fuel)
    (h : NQuadParser.findLiteralEnd s start = some (pos, lang)) :
    findLiteralEnd fuel s (start : Int) = .ok ((pos : Int), lang) ∧
      NQuadParser.quoteFrom s s.length (start + 1) = some pos ∧
      (lang = true → s[pos + 1]? = some '@') := by
  have hQuote := @quoteFrom_eq s start s.length fuel (by omega) hFuel
  rw [NQuadParser.findLiteralEnd] at h
  rw [findLiteralEnd, hQuote]
  simp only [bind, Except.bind]
  obtain ⟨p, hFound, hRest⟩ := Option.bind_eq_some_iff.mp h
  obtain ⟨c, hNext, hRest⟩ := Option.bind_eq_some_iff.mp hRest
  have hInside : p + 1 < s.length := (List.getElem?_eq_some_iff.mp hNext).1
  simp only [hFound]
  rw [if_pos (by omega), ← Nat.cast_succ, charAt_eq hNext]
  by_cases hAt : c = '@'
  · rw [if_pos hAt, Option.some.injEq, Prod.mk.injEq] at hRest
    obtain ⟨rfl, rfl⟩ := hRest
    refine ⟨?_, rfl, fun _ => hAt ▸ hNext⟩
    simp only [hAt, if_true]
    rfl
  · rw [if_neg hAt] at hRest
    split at hRest
    · rename_i hType
      obtain ⟨rfl, rfl⟩ := Prod.mk.inj (Option.some.inj hRest)
      have hType' : (p : Int) + 3 < s.length ∧
          (s.midAt ((p + 1 : Nat) : Int) 3 = ['^', '^', '<'] ∨ isSpace c = true) := by
        rw [show (3 : Int) = ((3 : Nat) : Int) from rfl, midAt_eq]
        exact ⟨by omega, hType.2⟩
      refine ⟨?_, rfl, (by intros; contradiction)⟩
      simp only [if_neg hAt, if_pos hType']
      rfl
    · cases hRest

theorem hasType_eq (s : QString) (pos : Nat) :
    hasType s (pos : Int) = .ok (s[pos + 1]?.any fun c => !isSpace c) := by
  rw [hasType]
  by_cases hNext : pos + 1 < s.length
  · have hHere : s[pos + 1]? = some s[pos + 1] := List.getElem?_eq_getElem hNext
    rw [if_pos (by omega), ← Nat.cast_succ, charAt_eq hHere, hHere]
    rfl
  · rw [if_neg (by omega), List.getElem?_eq_none (by omega)]
    rfl

theorem startsBlank_eq (s : QString) (start : Nat) (c : Char) :
    startsBlank s (start : Int) c =
      .ok (decide (c = '_' ∧ start + 2 < s.length ∧ s[start + 1]? = some ':')) := by
  rw [startsBlank]
  by_cases hMark : c = '_' ∧ start + 2 < s.length
  · have hNext : s[start + 1]? = some s[start + 1] := List.getElem?_eq_getElem (by omega)
    rw [if_pos ⟨hMark.1, by omega⟩, ← Nat.cast_succ, charAt_eq hNext, hNext]
    simp [hMark, bind, Except.bind, pure, Except.pure, Bool.beq_eq_decide_eq]
  · rw [if_neg (fun hBoth => hMark ⟨hBoth.1, by omega⟩),
      decide_eq_false fun hAll => hMark ⟨hAll.1, hAll.2.1⟩]
    rfl

end Reading

/-! ### Decoding -/

/-- A turn of the loop that finds an escape. -/
theorem decodeTurn_eq {before clean rest : QString} {c : Char} (hClean : '\\' ∉ clean) :
    decodeTurn (before ++ (clean ++ '\\' :: c :: rest)) before.length =
      .ok (match unescapeLetter c with
        | some d => (before ++ clean ++ [d] ++ rest, ((before ++ clean ++ [d]).length : Int))
        | none =>
          (before ++ clean ++ ['\\'] ++ c :: rest, ((before ++ clean ++ ['\\']).length : Int))) := by
  have hFind : (before ++ (clean ++ '\\' :: c :: rest)).indexOf '\\' before.length =
      some (before.length + clean.length) := indexOf_of_drop List.drop_left hClean
  have hNext : (before ++ (clean ++ '\\' :: c :: rest))[before.length + clean.length + 1]? = some c := by
    rw [List.getElem?_append_right (by omega), List.getElem?_append_right (by omega),
      show before.length + clean.length + 1 - before.length - clean.length = 1 by omega]
    rfl
  have hInside : before.length + clean.length + 1 < (before ++ (clean ++ '\\' :: c :: rest)).length :=
    (List.getElem?_eq_some_iff.mp hNext).1
  have hReplace : ∀ count after, replaceAt (before ++ (clean ++ '\\' :: c :: rest))
      (before.length + clean.length) count after =
        before ++ clean ++ after ++ ('\\' :: c :: rest).drop count := by
    intro count after
    rw [replaceAt, ← List.append_assoc, ← List.length_append, List.take_left, List.drop_append]
    simp
  rw [decodeTurn, indexOfAt_of_some hFind]
  simp only [bind, Except.bind]
  rw [if_pos ⟨by omega, by omega⟩, ← Nat.cast_succ, charAt_eq hNext, Int.toNat_natCast]
  unfold decodeEscape
  by_cases h₁ : c = '\\'
  · subst h₁
    simp only [if_true, hReplace]
    simp [unescapeLetter, unescapeHash, pure, Except.pure, Nat.add_assoc]
  by_cases h₂ : c = 'n'
  · subst h₂
    simp only [if_neg h₁, if_true, hReplace]
    simp [unescapeLetter, unescapeHash, pure, Except.pure, Nat.add_assoc, List.lookup]
  by_cases h₃ : c = 'r'
  · subst h₃
    simp only [if_neg h₁, if_neg h₂, if_true, hReplace]
    simp [unescapeLetter, unescapeHash, pure, Except.pure, Nat.add_assoc, List.lookup]
  by_cases h₄ : c = '"'
  · subst h₄
    simp only [if_neg h₁, if_neg h₂, if_neg h₃, if_true, hReplace]
    simp [unescapeLetter, unescapeHash, pure, Except.pure, Nat.add_assoc, List.lookup]
  · simp only [if_neg h₁, if_neg h₂, if_neg h₃, if_neg h₄]
    simp [unescapeLetter, unescapeHash, pure, Except.pure, Nat.add_assoc, List.lookup, h₁, h₂, h₃, h₄,
      beq_eq_false_iff_ne.mpr]

/-- A turn of the loop that finds no backslash is the last. -/
theorem decodeTurn_last {before rest : QString} (h : '\\' ∉ rest) :
    decodeTurn (before ++ rest) before.length = .ok (before ++ rest, -1) := by
  have hFind : (before ++ rest).indexOf '\\' before.length = none := by
    rw [QString.indexOf, List.drop_left, Option.map_eq_none_iff, List.findIdx?_eq_none_iff]
    intro c hc
    rw [beq_eq_false_iff_ne]
    rintro rfl
    exact h hc
  rw [decodeTurn, indexOfAt_of_none hFind]
  simp only [ne_eq, not_true_eq_false, false_and, if_false]
  rfl

/-- The loop gets through every text that does not end inside an escape. -/
theorem decodeFrom_eq {before rest : QString} (h : Escape.dangling unescapeLetter rest = false) :
    Progresses (before ++ rest) before.length ∧ ∀ fuel, rest.length + 1 < fuel →
      decodeFrom fuel (before ++ rest) before.length =
        .ok (before ++ Escape.unescape unescapeLetter rest) := by
  induction hLength : rest.length using Nat.strongRecOn generalizing before rest with
  | _ n ih =>
    by_cases hMem : '\\' ∈ rest
    · obtain ⟨clean, tail, rfl, hClean⟩ := List.eq_append_cons_of_mem hMem
      rw [Escape.dangling_append hClean] at h
      rw [Escape.unescape_append hClean]
      cases tail with
      | nil => cases h
      | cons c tail =>
        have hSearches : Searches (before ++ (clean ++ '\\' :: c :: tail)) before.length := by
          refine ⟨by omega, ?_⟩
          simp only [List.length_append, List.length_cons]
          omega
        have hTurn := @decodeTurn_eq before clean tail c hClean
        -- Whichever letter it is, one more character is behind the position, and fewer are ahead.
        obtain ⟨d, rest, hState, hLess, hRest, hText⟩ : ∃ d rest,
            (match unescapeLetter c with
              | some d => (before ++ clean ++ [d] ++ tail, ((before ++ clean ++ [d]).length : Int))
              | none => (before ++ clean ++ ['\\'] ++ c :: tail,
                ((before ++ clean ++ ['\\']).length : Int))) =
              (before ++ clean ++ [d] ++ rest, ((before ++ clean ++ [d]).length : Int)) ∧
            rest.length < (clean ++ '\\' :: c :: tail).length ∧
            Escape.dangling unescapeLetter rest = false ∧
            Escape.unescape unescapeLetter ('\\' :: c :: tail) =
              d :: Escape.unescape unescapeLetter rest := by
          cases hLetter : unescapeLetter c with
          | some d =>
            refine ⟨d, tail, rfl, by simp; omega, ?_, Escape.unescape_letter hLetter tail⟩
            simpa [Escape.dangling, hLetter] using h
          | none =>
            refine ⟨'\\', c :: tail, rfl, by simp; omega, ?_, Escape.unescape_unknown hLetter tail⟩
            simpa [Escape.dangling, hLetter] using h
        rw [hState] at hTurn
        obtain ⟨hProgress, hDecode⟩ := @ih _ (hLength ▸ hLess) (before ++ clean ++ [d]) rest hRest rfl
        refine ⟨.turn hSearches hTurn (.inr ?_) hProgress, fun fuel hFuel => ?_⟩
        · simp only [List.length_append, List.length_cons, List.length_nil] at hLess ⊢
          omega
        · obtain ⟨fuel, rfl⟩ := Nat.exists_eq_succ_of_ne_zero (Nat.ne_of_gt (Nat.zero_lt_of_lt hFuel))
          rw [decodeFrom, if_pos hSearches, hTurn, hText]
          simp only [bind, Except.bind]
          rw [hDecode fuel (by omega)]
          simp
    · have hText : Escape.unescape unescapeLetter rest = rest := by
        have := @Escape.unescape_append unescapeLetter rest hMem []
        rwa [List.append_nil, Escape.unescape, List.append_nil] at this
      rw [hText]
      by_cases hSearches : Searches (before ++ rest) before.length
      · refine ⟨.turn hSearches (decodeTurn_last hMem) (.inl rfl) (.stop fun h => ?_), fun fuel hFuel => ?_⟩
        · exact absurd h.1 (by decide)
        · obtain ⟨fuel, rfl⟩ : ∃ k, fuel = k + 2 := ⟨fuel - 2, by omega⟩
          rw [decodeFrom, if_pos hSearches, decodeTurn_last hMem]
          rfl
      · refine ⟨.stop hSearches, fun fuel hFuel => ?_⟩
        obtain ⟨fuel, rfl⟩ := Nat.exists_eq_succ_of_ne_zero (Nat.ne_of_gt (Nat.zero_lt_of_lt hFuel))
        rw [decodeFrom, if_neg hSearches]
        rfl

/-- The text between two quotes, the second of which is not escaped, can be decoded. -/
theorem decodeLiteral_eq {s : QString} {start pos fuel : Nat} (hQuote : s[start]? = some '"')
    (hPos : start + 1 ≤ pos) (hInside : pos < s.length)
    (hEscaped : NQuadParser.isEscaped s pos = false) (hFuel : s.length < fuel) :
    Progresses (s.mid (start + 1) (pos - start - 1)) 0 ∧
      ∃ value, decodeLiteral fuel (s.mid (start + 1) (pos - start - 1)) = .ok value ∧
        NQuadParser.decodeLiteral (s.mid (start + 1) (pos - start - 1)) = .ok value := by
  obtain ⟨text, after, hDrop, hLength⟩ : ∃ text after, s.drop (start + 1) = text ++ after ∧
      text.length = pos - start - 1 := by
    refine ⟨(s.drop (start + 1)).take (pos - start - 1), (s.drop (start + 1)).drop (pos - start - 1),
      (List.take_append_drop _ _).symm, ?_⟩
    rw [List.length_take, List.length_drop]
    omega
  have hMid : s.mid (start + 1) (pos - start - 1) = text := hLength ▸ mid_of_drop hDrop
  have hOpening : Escape.oddTail false (s.take (start + 1)) = false := by
    rw [List.take_add_one, hQuote, Option.toList_some, Escape.oddTail_concat]
    rfl
  have hTail : Escape.oddTail false text = false := by
    have := isEscaped_of_drop hDrop
    rwa [hOpening, hLength, show start + 1 + (pos - start - 1) = pos by omega, hEscaped, eq_comm] at this
  have hDangling : Escape.dangling unescapeLetter text = false := by
    rw [Escape.dangling_eq_oddTail (by decide), hTail]
  obtain ⟨hProgress, hDecode⟩ := @decodeFrom_eq [] text hDangling
  rw [hMid]
  refine ⟨hProgress, _, hDecode fuel ?_, ?_⟩
  · omega
  · rw [NQuadParser.decodeLiteral, hDangling]
    rfl

/-- The end of a literal that was written is found at its closing quote, wherever it stands in a line and
whatever follows its mark, and its text is decoded to the one that was escaped. -/
theorem literal_codec (v before rest : QString) (lang : Bool) :
    (∀ fuel, (before ++ '"' :: (NQuadSerializer.escaped v ++ '"' :: continuation lang rest)).length < fuel →
      findLiteralEnd fuel (before ++ '"' :: (NQuadSerializer.escaped v ++ '"' :: continuation lang rest))
        before.length = .ok ((before.length + 1 + (NQuadSerializer.escaped v).length : Nat), lang)) ∧
    ∀ fuel, (NQuadSerializer.escaped v).length + 1 < fuel →
      decodeLiteral fuel (NQuadSerializer.escaped v) = .ok v := by
  have hSpells := spells_escaped v
  constructor
  · intro fuel hFuel
    exact (findLiteralEnd_of_some hFuel (hSpells.findLiteralEnd List.drop_left)).1
  · intro fuel hFuel
    have hDecode := hSpells.decode
    rw [NQuadParser.decodeLiteral] at hDecode
    split at hDecode
    · cases hDecode
    · rename_i hDangling
      have hRun := (@decodeFrom_eq [] _ (Bool.eq_false_iff.mpr hDangling)).2 fuel hFuel
      rw [Except.ok.inj hDecode] at hRun
      exact hRun

/-! ### Following the offset -/

/-- What holds of an offset at every point: it is inside the line or at its end and never was behind
where it is, and every text that was decoded could be. -/
structure Trace.Good (s : QString) (t : Trace) : Prop where
  nonneg : ∀ offset ∈ t.offset :: t.past, 0 ≤ offset
  bound : t.offset ≤ s.length
  ascending : (t.offset :: t.past).Pairwise (· ≥ ·)
  decoded : ∀ text ∈ t.decoded, Progresses text 0

namespace Trace.Good

variable {s : QString} {t : Trace}

theorem start : Trace.start.Good s :=
  ⟨by simp [Trace.start], Int.natCast_nonneg _, List.pairwise_singleton _ _, nofun⟩

theorem moveTo (h : t.Good s) {offset : Nat} (hForward : t.offset ≤ offset) (hBound : offset ≤ s.length) :
    (t.moveTo offset).Good s := by
  refine ⟨fun o ho => ?_, by simpa [Trace.moveTo] using hBound, ?_, h.decoded⟩
  · rcases List.mem_cons.mp ho with rfl | ho
    · exact Int.natCast_nonneg offset
    · exact h.nonneg o ho
  refine List.pairwise_cons.mpr ⟨fun o ho => ?_, h.ascending⟩
  rcases List.mem_cons.mp ho with rfl | ho
  · exact hForward
  · exact Int.le_trans ((List.pairwise_cons.mp h.ascending).1 o ho) hForward

theorem decode (h : t.Good s) {text : QString} (hText : Progresses text 0) :
    Good s { t with decoded := text :: t.decoded } := by
  refine ⟨h.nonneg, h.bound, h.ascending, fun u hu => ?_⟩
  rcases List.mem_cons.mp hu with rfl | hu
  · exact hText
  · exact h.decoded u hu

end Trace.Good

section Nodes

variable [Qt] {s : QString} {t : Trace} {start fuel : Nat}

/-- The result is the node that the list of characters gives, with a good offset that stands where the
other does. -/
def Follows (s : QString) (result : Except Fault (Node × Trace)) (node : Node) (offset : Nat) : Prop :=
  ∃ t, result = .ok (node, t) ∧ t.offset = offset ∧ t.Good s

theorem Follows.stay (h : t.Good s) (hOffset : t.offset = start) :
    Follows s (pure (.empty, t)) .empty start :=
  ⟨t, rfl, hOffset, h⟩

theorem Follows.move (h : t.Good s) (hOffset : t.offset = start) {node : Node} {offset : Nat}
    (hForward : start ≤ offset) (hBound : offset ≤ s.length) :
    Follows s (pure (node, t.moveTo offset)) node offset :=
  ⟨t.moveTo offset, rfl, rfl, h.moveTo (by omega) hBound⟩

theorem suffixNode_follows {pos : Nat} {lang : Bool} (h : t.Good s) (hOffset : t.offset = start)
    (hPos : start < pos) (hInside : pos < s.length) (hAt : lang = true → s[pos + 1]? = some '@')
    (value : QString) :
    Follows s (suffixNode s t pos lang value) (NQuadParser.suffixNode s start pos lang value).1
      (NQuadParser.suffixNode s start pos lang value).2 := by
  cases lang with
  | true =>
    simp only [suffixNode, NQuadParser.suffixNode, if_true]
    cases hEnd : indexOfSpace s (pos + 1) with
    | none =>
      rw [← Nat.cast_succ, indexOfSpaceAt_of_none hEnd, if_neg (by omega)]
      exact .stay h hOffset
    | some langEnd =>
      obtain ⟨hStart, hBound, c, hHere, hSpace⟩ := bounds_of_findIdx hEnd
      -- The tag begins with the at sign, which is no space.
      have hTag : langEnd ≠ pos + 1 := by
        rintro rfl
        rw [hAt rfl, Option.some.injEq] at hHere
        rw [← hHere] at hSpace
        revert hSpace
        decide
      rw [← Nat.cast_succ, indexOfSpaceAt_of_some hEnd, if_pos (by omega),
        show (langEnd : Int) - pos - 2 = ((langEnd - pos - 2 : Nat) : Int) by omega,
        show (pos : Int) + 2 = ((pos + 2 : Nat) : Int) by omega, midAt_eq]
      exact .move h hOffset (by omega) (by omega)
  | false =>
    simp only [suffixNode, NQuadParser.suffixNode, Bool.false_eq_true, if_false]
    rw [hasType_eq]
    simp only [bind, Except.bind]
    cases s[pos + 1]?.any fun c => !isSpace c with
    | true =>
      simp only [if_true]
      cases hEnd : s.indexOf '>' (pos + 4) with
      | none =>
        rw [show (pos : Int) + 4 = ((pos + 4 : Nat) : Int) by omega, indexOfAt_of_none hEnd,
          if_neg (by omega)]
        exact .stay h hOffset
      | some typeEnd =>
        obtain ⟨hStart, hBound, -⟩ := bounds_of_indexOf hEnd
        rw [show (pos : Int) + 4 = ((pos + 4 : Nat) : Int) by omega, indexOfAt_of_some hEnd,
          if_pos (by omega), show (typeEnd : Int) - pos - 4 = ((typeEnd - pos - 4 : Nat) : Int) by omega,
          midAt_eq, ← Nat.cast_succ]
        exact .move h hOffset (by omega) (by omega)
    | false =>
      simp only [Bool.false_eq_true, if_false]
      rw [← Nat.cast_succ]
      exact .move h hOffset (by omega) (by omega)

theorem parseNode_follows (h : t.Good s) (hOffset : t.offset = start) (hFuel : s.length < fuel) :
    ∃ node offset, NQuadParser.parseNode s start = .ok (node, offset) ∧
      Follows s (parseNode fuel s t) node offset := by
  obtain ⟨offset, past, decoded⟩ := t
  obtain rfl : offset = start := hOffset
  rw [NQuadParser.parseNode, parseNode]
  dsimp only
  by_cases hInside : start < s.length
  · have hHere : s[start]? = some s[start] := List.getElem?_eq_getElem hInside
    generalize s[start] = c at hHere
    rw [if_pos (by omega), charAt_eq hHere, hHere]
    simp only [bind, Except.bind]
    by_cases hResource : c = '<'
    · simp only [if_pos hResource]
      cases hEnd : s.indexOf '>' (start + 1) with
      | none =>
        rw [← Nat.cast_succ, indexOfAt_of_none hEnd, if_neg (by omega)]
        exact ⟨_, _, rfl, .stay h rfl⟩
      | some pos =>
        obtain ⟨hStart, hBound, -⟩ := bounds_of_indexOf hEnd
        rw [← Nat.cast_succ, indexOfAt_of_some hEnd, if_pos (by omega),
          show (pos : Int) - start - 1 = ((pos - start - 1 : Nat) : Int) by omega, midAt_eq,
          ← Nat.cast_succ]
        exact ⟨_, _, rfl, .move h rfl (by omega) (by omega)⟩
    simp only [if_neg hResource]
    rw [startsBlank_eq]
    simp only [decide_eq_true_eq]
    by_cases hMark : c = '_' ∧ start + 2 < s.length ∧ s[start + 1]? = some ':'
    · simp only [if_pos hMark]
      cases hEnd : indexOfSpace s (start + 2) with
      | none =>
        rw [show (start : Int) + 2 = ((start + 2 : Nat) : Int) by omega, indexOfSpaceAt_of_none hEnd,
          if_neg (by omega)]
        exact ⟨_, _, rfl, .stay h rfl⟩
      | some pos =>
        obtain ⟨hStart, hBound, -⟩ := bounds_of_findIdx hEnd
        rw [show (start : Int) + 2 = ((start + 2 : Nat) : Int) by omega, indexOfSpaceAt_of_some hEnd,
          if_pos (by omega), show (pos : Int) - start - 1 = ((pos - start - 1 : Nat) : Int) by omega,
          midAt_eq]
        exact ⟨_, _, rfl, .move h rfl (by omega) (by omega)⟩
    simp only [if_neg hMark]
    by_cases hLiteral : c = '"'
    · simp only [if_pos hLiteral]
      cases hEnd : NQuadParser.findLiteralEnd s start with
      | none =>
        obtain ⟨lang, hFind⟩ := findLiteralEnd_of_none hInside hFuel hEnd
        rw [hFind]
        exact ⟨_, _, rfl, .stay h rfl⟩
      | some found =>
        obtain ⟨pos, lang⟩ := found
        obtain ⟨hFind, hQuote, hAt⟩ := findLiteralEnd_of_some hFuel hEnd
        obtain ⟨hStart, hBound, hEscaped⟩ := quoteFrom_bounds hQuote
        obtain ⟨hProgress, value, hDecode, hValue⟩ :=
          decodeLiteral_eq (hLiteral ▸ hHere) hStart hBound hEscaped hFuel
        rw [hFind]
        simp only
        rw [if_pos (by omega), ← Nat.cast_succ,
          show (pos : Int) - start - 1 = ((pos - start - 1 : Nat) : Int) by omega, midAt_eq, hDecode,
          parseLiteral, hValue]
        refine ⟨_, _, rfl, ?_⟩
        exact suffixNode_follows (h.decode hProgress) rfl (by omega) hBound hAt value
    · simp only [if_neg hLiteral]
      exact ⟨_, _, rfl, .stay h rfl⟩
  · rw [if_neg (by omega), List.getElem?_eq_none (by omega)]
    exact ⟨_, _, rfl, .stay h rfl⟩

omit [Qt] in
/-- The loops that skip white space. -/
theorem skipSpace_eq (h : t.Good s) (hOffset : t.offset = start) (hFuel : s.length < start + fuel) :
    ∃ t', skipSpace s fuel t = .ok t' ∧ t'.offset = NQuadParser.skipSpace s start ∧ t'.Good s := by
  induction fuel generalizing t start with
  | zero =>
    have := h.bound
    omega
  | succ fuel ih =>
    rw [skipSpace, hOffset]
    by_cases hInside : start < s.length
    · have hHere : s[start]? = some s[start] := List.getElem?_eq_getElem hInside
      rw [if_pos (by omega), charAt_eq hHere]
      simp only [bind, Except.bind]
      have hDrop : s.drop start = s[start] :: s.drop (start + 1) := List.drop_eq_getElem_cons hInside
      by_cases hSpace : isSpace s[start] = true
      · rw [if_pos hSpace, ← Nat.cast_succ]
        obtain ⟨t', hSkip, hEnd, hGood⟩ :=
          ih (h.moveTo (show t.offset ≤ ((start + 1 : Nat) : Int) by omega) (by omega)) rfl (by omega)
        refine ⟨t', hSkip, ?_, hGood⟩
        rw [hEnd, NQuadParser.skipSpace, NQuadParser.skipSpace, hDrop, List.takeWhile_cons, if_pos hSpace,
          List.length_cons]
        omega
      · rw [if_neg hSpace]
        refine ⟨t, rfl, ?_, h⟩
        rw [hOffset, NQuadParser.skipSpace, hDrop, List.takeWhile_cons, if_neg hSpace]
        rfl
    · rw [if_neg (by omega)]
      refine ⟨t, rfl, ?_, h⟩
      rw [hOffset, NQuadParser.skipSpace, List.drop_eq_nil_of_le (by omega)]
      rfl

end Nodes

/-! ### Lines -/

theorem failAt_eq (row column : Nat) (message : QString) :
    failAt row column message = .error (errorAt row column message) := by
  rw [failAt, errorAt, Int32.ofInt_eq_ofNat]

section Lines

variable [Qt] {line : QString} {t : Trace} {start fuel : Nat}

theorem parseContext_eq (h : t.Good line) (hOffset : t.offset = start) (hInside : start < line.length)
    (hFuel : line.length < fuel) (row : Nat) :
    ∃ r t', parseContext fuel line row t = .ok (r, t') ∧ t'.Good line ∧
      NQuadParser.parseContext line row start =
        (r.map fun context => (context, t'.offset.toNat)).mapError Failure.error := by
  have hHere : (line)[start]? = some (line)[start] := List.getElem?_eq_getElem hInside
  rw [parseContext, NQuadParser.parseContext, hOffset, charAt_eq hHere, hHere]
  simp only [bind, Except.bind, Option.some.injEq]
  by_cases hDot : (line)[start] = '.'
  · simp only [hDot, ne_eq, not_true_eq_false, if_false, if_true]
    refine ⟨_, _, rfl, h, ?_⟩
    rw [hOffset, Int.toNat_natCast]
    rfl
  · simp only [ne_eq, hDot, not_false_eq_true, if_true, if_false]
    obtain ⟨node, offset, hNode, t', hParse, hBehind, hGood⟩ := parseNode_follows h hOffset hFuel
    rw [hNode, hParse]
    dsimp only
    cases hResource : node.isResource with
    | true =>
      refine ⟨_, _, rfl, hGood, ?_⟩
      rw [hBehind, Int.toNat_natCast]
      rfl
    | false =>
      refine ⟨_, _, rfl, hGood, ?_⟩
      rw [hBehind, ← Nat.cast_succ]
      exact congrArg Except.error (failAt_eq row (offset + 1) _)

omit [Qt] in
theorem parseDot_eq (line : QString) (row start : Nat) :
    ∃ r, parseDot line row start = .ok r ∧
      NQuadParser.parseDot line row start = r.mapError Failure.error := by
  rw [parseDot, NQuadParser.parseDot]
  by_cases hInside : start < line.length
  · have hHere : (line)[start]? = some (line)[start] := List.getElem?_eq_getElem hInside
    rw [if_neg (by omega), if_neg (by omega), charAt_eq hHere, hHere]
    simp only [bind, Except.bind, Option.some.injEq]
    by_cases hDot : (line)[start] = '.'
    · simp only [hDot, ne_eq, not_true_eq_false, if_false, if_true]
      exact ⟨_, rfl, rfl⟩
    · simp only [ne_eq, hDot, not_false_eq_true, if_true, if_false]
      refine ⟨_, rfl, ?_⟩
      rw [show (1 : Int) = ((1 : Nat) : Int) from rfl, midAt_eq, ← Nat.cast_add]
      exact congrArg Except.error (failAt_eq row (start + 1) _)
  · rw [if_pos (by omega), if_pos (by omega)]
    exact ⟨_, rfl, congrArg Except.error (failAt_eq row start _)⟩

/-- The line is parsed without a fault, to what the list of characters gives. -/
theorem parseLine_eq (hFuel : line.length < fuel) (row : Nat) :
    ∃ r t, parseLine fuel line row = .ok (r, t) ∧ t.Good line ∧
      NQuadParser.parseLine line row = r.mapError Failure.error := by
  rw [parseLine, NQuadParser.parseLine]
  obtain ⟨subject, offS, hSubject, tS, hParseS, hOffS, hGoodS⟩ :=
    @parseNode_follows _ line .start 0 fuel .start rfl hFuel
  rw [hSubject, hParseS]
  simp only [bind, Except.bind]
  by_cases hIsSubject : (subject.isResource || subject.isBlank) = true
  case neg =>
    have hNot : (!(subject.isResource || subject.isBlank)) = true := by
      rw [Bool.not_eq_true] at hIsSubject
      rw [hIsSubject]
      rfl
    rw [if_pos hNot, if_pos hNot]
    refine ⟨_, _, rfl, hGoodS, ?_⟩
    rw [hOffS, ← Nat.cast_succ]
    exact congrArg Except.error (failAt_eq row (offS + 1) _)
  rw [hIsSubject, if_neg (by decide), if_neg (by decide)]
  obtain ⟨tS', hSkipS, hOffS', hGoodS'⟩ := skipSpace_eq hGoodS hOffS (Nat.lt_add_left _ hFuel)
  obtain ⟨predicate, offP, hPredicate, tP, hParseP, hOffP, hGoodP⟩ :=
    parseNode_follows hGoodS' hOffS' hFuel
  rw [hSkipS]
  dsimp only
  rw [hParseP, hPredicate]
  dsimp only
  by_cases hIsPredicate : predicate.isResource = true
  case neg =>
    rw [if_pos (by simpa using hIsPredicate), if_pos (by simpa using hIsPredicate)]
    refine ⟨_, _, rfl, hGoodP, ?_⟩
    rw [hOffP, ← Nat.cast_succ]
    exact congrArg Except.error (failAt_eq row (offP + 1) _)
  rw [if_neg (by simpa using hIsPredicate), if_neg (by simpa using hIsPredicate)]
  obtain ⟨tP', hSkipP, hOffP', hGoodP'⟩ := skipSpace_eq hGoodP hOffP (Nat.lt_add_left _ hFuel)
  obtain ⟨object, offO, hObject, tO, hParseO, hOffO, hGoodO⟩ := parseNode_follows hGoodP' hOffP' hFuel
  rw [hSkipP]
  dsimp only
  rw [hParseO, hObject]
  dsimp only
  by_cases hNone : object.isEmpty = true
  case pos =>
    rw [if_pos hNone, if_pos hNone]
    refine ⟨_, _, rfl, hGoodO, ?_⟩
    rw [hOffO, ← Nat.cast_succ]
    exact congrArg Except.error (failAt_eq row (offO + 1) _)
  rw [if_neg hNone, if_neg hNone]
  obtain ⟨tO', hSkipO, hOffO', hGoodO'⟩ := skipSpace_eq hGoodO hOffO (Nat.lt_add_left _ hFuel)
  rw [hSkipO]
  dsimp only
  rw [hOffO']
  generalize NQuadParser.skipSpace line offO = start at hOffO' ⊢
  by_cases hInside : start < line.length
  case neg =>
    rw [if_pos (by omega), if_pos (by omega)]
    exact ⟨_, _, rfl, hGoodO', congrArg Except.error (failAt_eq row start _)⟩
  rw [if_neg (by omega), if_neg (by omega)]
  obtain ⟨rC, tC, hContext, hGoodC, hParseC⟩ := parseContext_eq hGoodO' hOffO' hInside hFuel row
  rw [hContext, hParseC]
  dsimp only
  cases rC with
  | error e => exact ⟨_, _, rfl, hGoodC, rfl⟩
  | ok context =>
    have hOffC : tC.offset = tC.offset.toNat := (Int.toNat_of_nonneg (hGoodC.nonneg _ List.mem_cons_self)).symm
    obtain ⟨tC', hSkipC, hOffC', hGoodC'⟩ := skipSpace_eq hGoodC hOffC (Nat.lt_add_left _ hFuel)
    obtain ⟨rD, hDot, hParseD⟩ := parseDot_eq line row (NQuadParser.skipSpace line tC.offset.toNat)
    dsimp only [Except.map, Except.mapError]
    rw [hSkipC]
    dsimp only
    rw [hOffC', hDot, hParseD]
    cases rD with
    | error e => exact ⟨_, _, rfl, hGoodC', rfl⟩
    | ok _ => exact ⟨_, _, rfl, hGoodC', rfl⟩

/-- Every line is parsed to its end: no index is out of bounds, the offset stays in the line and never
decreases, and every text that is decoded lets the decoder progress to its end. -/
theorem parseLine_safe (line : QString) (row : Nat) :
    ∃ n, ∀ fuel, n ≤ fuel → ∃ r t, parseLine fuel line row = .ok (r, t) ∧
      NQuadParser.parseLine line row = r.mapError Failure.error ∧
      (t.offset :: t.past).Pairwise (· ≥ ·) ∧
      (∀ offset ∈ t.offset :: t.past, 0 ≤ offset ∧ offset ≤ line.length) ∧
      ∀ text ∈ t.decoded, Progresses text 0 := by
  refine ⟨line.length + 1, fun fuel hFuel => ?_⟩
  obtain ⟨r, t, hParse, hGood, hResult⟩ := @parseLine_eq _ line fuel hFuel row
  refine ⟨r, t, hParse, hResult, hGood.ascending, fun offset hOffset => ?_, hGood.decoded⟩
  refine ⟨hGood.nonneg offset hOffset, ?_⟩
  rcases List.mem_cons.mp hOffset with rfl | hPast
  · exact hGood.bound
  · exact Int.le_trans ((List.pairwise_cons.mp hGood.ascending).1 offset hPast) hGood.bound

end Lines

end NQuadParser.Offsets

end Soprano
