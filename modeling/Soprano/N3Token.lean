import Mathlib.Data.List.TakeDrop
import Soprano.Error
import Soprano.N3NodeParser
import Soprano.Qt.Arg

/-! `N3NodeParser::parseNode` on a text that begins with a bare token: the conversions that it tries one after
the other, and the error that it leaves. -/

namespace Soprano

namespace N3NodeParser

section Qt

variable [Qt]

/-! ### The functions of the code -/

/-- The node after the conversion to a Boolean. -/
def booleanStep (token : QString) (node : Node) : Node :=
  if Qt.toLower token = "false".toList then .ofLiteral (.ofVariant (.bool false))
  else if Qt.toLower token = "true".toList then .ofLiteral (.ofVariant (.bool true))
  else node

/-- The node after the conversion to an `int`. -/
def intStep (token : QString) (node : Node) : Node :=
  match QString.toInt token with
  | some val => .ofLiteral (.ofVariant (.int val))
  | none => node

/-- The node after the conversion to a `double`, which replaces it either way. -/
def doubleStep (token : QString) (_node : Node) : Node :=
  match Qt.toDouble token with
  | some dVal => .ofLiteral (.ofVariant (.double dVal))
  | none => .ofLiteral (.createPlainLiteral token .empty)

/-- `Error::ParserError( Error::Locator( 0, position ), message )` -/
def parserError (position : Int32) (message : QString) : Error :=
  .ofLocator ⟨0, position, -1, []⟩ message ErrorCode.errorParsingFailed.code

def unknownNamespace (bname : QString) : QString :=
  QString.arg "Unknown namespace '%1'.".toList bname

def gotMessage (c : Char) : QString :=
  QString.arg "Got '%1'. Expected one of '<', '\"', '_', 'a'.".toList [c]

/-- The node of a prefixed name, and the error. -/
def prefixedStep (prefixes : List (QString × QUrl)) (position : Int32) (token : QString) : Node × Error :=
  match prefixedUri token with
  | some (bname, name) =>
    let ns := (prefixes.lookup bname).getD QUrl.empty
    if ns.isEmpty then (.empty, parserError position (unknownNamespace bname))
    else (.ofUri (Qt.urlOfString (Qt.urlToString ns ++ name)), .none)
  | none => (.empty, .none)

/-- The branch of `parseNode` for a token that begins with none of the marks. -/
def tokenBranch (prefixes : List (QString × QUrl)) (flags : ParserFlags) (position : Int32) (token : QString) :
    Node × Error :=
  if token = ['a'] then (.ofUri Vocabulary.RDF.type, .none)
  else if !flags.strictLiteralTypes then
    (doubleStep token (intStep token (booleanStep token .empty)), .none)
  else if !flags.ignorePrefixes then prefixedStep prefixes position token
  else (.empty, .none)

/-- The end of `parseNode`: a node that is not valid is an error. -/
def checked (position : Int32) (c : Char) (result : Node × Error) : Node × Error :=
  if result.1.isValid then result else (result.1, parserError position (gotMessage c))

def parseToken (prefixes : List (QString × QUrl)) (flags : ParserFlags) (position : Int32) (c : Char)
    (str : QString) : Node × Error :=
  checked position c (tokenBranch prefixes flags position (c :: str))

/-- `parseNode` of a text whose first word begins with none of the marks: the node, the error and the rest of
the stream. -/
def parseBare (prefixes : List (QString × QUrl)) (flags : ParserFlags) (s : QString) : (Node × Error) × QString :=
  match s.dropWhile isSpace with
  | [] => ((.empty, .none), [])
  | c :: rest =>
    let (_, str, rest) := scanStream none false rest
    (parseToken prefixes flags (Int32.ofNat (s.length - rest.length)) c str, rest)

/-- The characters that begin a resource, a blank node and a literal. -/
def marks : List Char := ['<', '_', '"']

theorem fst_prefixedStep (prefixes : List (QString × QUrl)) (position : Int32) (token : QString) :
    (prefixedStep prefixes position token).1 =
      match prefixedUri token with
      | some (bname, name) =>
        let ns := (prefixes.lookup bname).getD QUrl.empty
        if ns.isEmpty then .empty else .ofUri (Qt.urlOfString (Qt.urlToString ns ++ name))
      | none => .empty := by
  unfold prefixedStep
  split
  · dsimp only
    split <;> rfl
  · rfl

theorem fst_checked (position : Int32) (c : Char) (result : Node × Error) :
    (checked position c result).1 = result.1 := by
  unfold checked
  split <;> rfl

/-- Whatever the first conversions give is replaced. -/
theorem fst_tokenBranch (prefixes : List (QString × QUrl)) (flags : ParserFlags) (position : Int32)
    (token : QString) : (tokenBranch prefixes flags position token).1 = tokenNode prefixes flags token := by
  unfold tokenBranch tokenNode
  split
  · rfl
  · split
    · rfl
    · split
      · exact fst_prefixedStep prefixes position _
      · rfl

theorem fst_parseToken (prefixes : List (QString × QUrl)) (flags : ParserFlags) (position : Int32) (c : Char)
    (str : QString) : (parseToken prefixes flags position c str).1 = tokenNode prefixes flags (c :: str) :=
  (fst_checked _ _ _).trans (fst_tokenBranch _ _ _ _)

/-- The node of `parseBare` is the one that `parseNode` gives. -/
theorem parseNode_bare (prefixes : List (QString × QUrl)) (flags : ParserFlags) (depth : Nat) {s : QString}
    {c : Char} (hFirst : (s.dropWhile isSpace).head? = some c) (hMark : c ∉ marks) :
    parseNode prefixes flags (depth + 1) s = ((parseBare prefixes flags s).1.1, (parseBare prefixes flags s).2) := by
  obtain ⟨rest, hRest⟩ := List.head?_eq_some_iff.mp hFirst
  simp only [marks, List.mem_cons, List.not_mem_nil, or_false, not_or] at hMark
  obtain ⟨hResource, hBlank, hLiteral⟩ := hMark
  rw [parseNode, parseBare, hRest]
  simp only [if_neg hResource, if_neg hBlank, if_neg hLiteral, fst_parseToken]

/-! ### What is claimed of a token -/

/-- A token without white space that begins with none of the marks. -/
structure Bare (token : QString) : Prop where
  noSpace : NoSpace token
  first : ∃ c str, token = c :: str ∧ c ∉ marks

/-- What a token stands for where literals may be written without quotes. -/
def meaning (token : QString) : Node :=
  if token = ['a'] then .ofUri Vocabulary.RDF.type
  else if Qt.toLower token = "true".toList then .ofLiteral (.ofVariant (.bool true))
  else if Qt.toLower token = "false".toList then .ofLiteral (.ofVariant (.bool false))
  else
    match QString.toInt token, Qt.toDouble token with
    | some i, _ => .ofLiteral (.ofVariant (.int i))
    | none, some d => .ofLiteral (.ofVariant (.double d))
    | none, none => .ofLiteral (.createPlainLiteral token .empty)

/-- The token stands between white space, or at an end of the text. -/
structure Delimited (before rest : QString) : Prop where
  before : before.all isSpace = true
  rest : rest.head?.all isSpace = true

/-- A token is parsed as what it stands for: as a literal where literals may be written without quotes, and
else as a resource if it is a name whose prefix is known, and as an error if the prefix is not. -/
structure Understood (prefixes : List (QString × QUrl)) (token : QString) : Prop where
  literal : ∀ {flags : ParserFlags} {before rest : QString} (depth : Nat), flags.strictLiteralTypes = false →
    Delimited before rest → (parseNode prefixes flags (depth + 1) (before ++ token ++ rest)).1 = meaning token
  known : ∀ {flags : ParserFlags} {before rest bname name : QString} {ns : QUrl} (depth : Nat),
    flags.strictLiteralTypes = true → flags.ignorePrefixes = false → Delimited before rest →
    prefixedUri token = some (bname, name) → prefixes.lookup bname = some ns →
    (parseNode prefixes flags (depth + 1) (before ++ token ++ rest)).1 =
      .ofUri (Qt.urlOfString (Qt.urlToString ns ++ name))
  unknown : ∀ {flags : ParserFlags} {before rest bname name : QString} (depth : Nat),
    flags.strictLiteralTypes = true → flags.ignorePrefixes = false → Delimited before rest →
    prefixedUri token = some (bname, name) → prefixes.lookup bname = none →
    (parseNode prefixes flags (depth + 1) (before ++ token ++ rest)).1 = .empty ∧
      (parseBare prefixes flags (before ++ token ++ rest)).1.2.isParserError = true

/-! ### What is read of a token -/

/-- The text that is read of a token, which ends before a null character that is not escaped. -/
def readText : QString → QString
  | [] => []
  | c :: str => c :: (scanStream none false str).2.1

omit [Qt] in
theorem scanStream_append {str rest : QString} (escaped : Bool) (hSpace : NoSpace str)
    (hRest : rest.head?.all isSpace = true) :
    (scanStream none escaped (str ++ rest)).2.1 = (scanStream none escaped str).2.1 := by
  induction str generalizing escaped with
  | nil =>
    cases rest with
    | nil => rfl
    | cons c rest =>
      have hc : isSpace c = true := hRest
      simp [scanStream, hc]
  | cons c str ih =>
    have hTail : NoSpace str := fun d hd => hSpace d (List.mem_cons_of_mem _ hd)
    have hStep : ∀ s : QString, (scanStream none escaped (c :: s)).2.1 =
        if c = '\x00' ∧ escaped = false then []
        else c :: (scanStream none (Escape.parity escaped c) s).2.1 := by
      intro s
      rw [scanStream, hSpace c List.mem_cons_self]
      by_cases hEnd : c = '\x00' ∧ escaped = false
      · simp [hEnd.1, hEnd.2]
      · have hSkip : ((none : Option Char).isNone && false || c == (none : Option Char).getD '\x00' && !escaped) =
            false := by simpa using hEnd
        rw [if_neg hEnd, hSkip]
        rfl
    rw [List.cons_append, hStep, hStep, ih _ hTail]

omit [Qt] in
theorem Bare.split {token before rest : QString} (hBare : Bare token) (h : Delimited before rest) :
    ∃ c str, token = c :: str ∧ c ∉ marks ∧ (before ++ token ++ rest).dropWhile isSpace = c :: (str ++ rest) ∧
      (scanStream none false (str ++ rest)).2.1 = (scanStream none false str).2.1 := by
  obtain ⟨c, str, rfl, hMark⟩ := hBare.first
  have hTail : NoSpace str := fun d hd => hBare.noSpace d (List.mem_cons_of_mem _ hd)
  refine ⟨c, str, rfl, hMark, ?_, scanStream_append false hTail h.rest⟩
  rw [List.append_assoc, List.dropWhile_append_of_pos (List.all_eq_true.mp h.before)]
  simp [hBare.noSpace c]

theorem parseNode_token (prefixes : List (QString × QUrl)) (flags : ParserFlags) {token before rest : QString}
    (depth : Nat) (hBare : Bare token) (h : Delimited before rest) :
    (parseNode prefixes flags (depth + 1) (before ++ token ++ rest)).1 =
      tokenNode prefixes flags (readText token) := by
  obtain ⟨c, str, rfl, hMark, hDrop, hScan⟩ := hBare.split h
  have hFirst : ((before ++ c :: str ++ rest).dropWhile isSpace).head? = some c := by rw [hDrop]; rfl
  rw [parseNode_bare prefixes flags depth hFirst hMark, parseBare, hDrop]
  simp only [fst_parseToken, hScan, readText]

/-- A token that gives no node is an error. -/
theorem isParserError_checked {position : Int32} {c : Char} {result : Node × Error}
    (h : result.1.isValid = false) : (checked position c result).2.isParserError = true := by
  rw [checked, h, if_neg Bool.false_ne_true]
  rfl

theorem isParserError_parseBare (prefixes : List (QString × QUrl)) (flags : ParserFlags)
    {token before rest : QString} (hBare : Bare token) (h : Delimited before rest)
    (hNode : (tokenNode prefixes flags (readText token)).isValid = false) :
    (parseBare prefixes flags (before ++ token ++ rest)).1.2.isParserError = true := by
  obtain ⟨c, str, rfl, hMark, hDrop, hScan⟩ := hBare.split h
  rw [parseBare, hDrop]
  refine isParserError_checked ?_
  rw [fst_tokenBranch, hScan]
  exact hNode

/-! ### When a token is parsed as what it stands for -/

/-- A token is not one that the code mistakes: where literals may be written without quotes it is no Boolean and
no number of 32 bits, and is read whole, or as the same number; and the prefixes that are known have valid
namespaces. -/
structure Plain (prefixes : List (QString × QUrl)) (token : QString) : Prop where
  literal : token ≠ ['a'] →
    Qt.toLower token ≠ "true".toList ∧ Qt.toLower token ≠ "false".toList ∧ QString.toInt token = none ∧
      (readText token = token ∨ readText token ≠ ['a'] ∧
        ∃ d, Qt.toDouble token = some d ∧ Qt.toDouble (readText token) = some d)
  known : ∀ {bname name : QString} {ns : QUrl}, prefixedUri token = some (bname, name) →
    prefixes.lookup bname = some ns →
    ns.isEmpty = false ∨ (Qt.urlOfString (Qt.urlToString ns ++ name)).isEmpty = true

/-- The node of a token where literals may be written without quotes. -/
theorem tokenNode_eq (prefixes : List (QString × QUrl)) {flags : ParserFlags}
    (hFlags : flags.strictLiteralTypes = false) (token : QString) :
    tokenNode prefixes flags token =
      if token = ['a'] then .ofUri Vocabulary.RDF.type
      else match Qt.toDouble token with
        | some d => .ofLiteral (.ofVariant (.double d))
        | none => .ofLiteral (.createPlainLiteral token .empty) := by
  rw [tokenNode, hFlags]
  rfl

/-- The value of the literal of a node, which tells the nodes of tokens apart. -/
def value (node : Node) : QVariant := node.toLiteral.variant

@[simp] theorem value_bool (b : Bool) : value (.ofLiteral (.ofVariant (.bool b))) = .bool b := rfl

@[simp] theorem value_int (i : Int32) : value (.ofLiteral (.ofVariant (.int i))) = .int i := rfl

@[simp] theorem value_double (d : Double) : value (.ofLiteral (.ofVariant (.double d))) = .double d := rfl

@[simp] theorem value_plain (s : QString) : value (.ofLiteral (.createPlainLiteral s .empty)) = .string s := rfl

@[simp] theorem value_type : value (.ofUri Vocabulary.RDF.type) = .invalid := rfl

/-- The node of a token, as far as the conversions of the code decide. -/
def converted (token : QString) : Node :=
  if token = ['a'] then .ofUri Vocabulary.RDF.type
  else match Qt.toDouble token with
    | some d => .ofLiteral (.ofVariant (.double d))
    | none => .ofLiteral (.createPlainLiteral token .empty)

theorem value_converted_ne (token : QString) (b : Bool) (i : Int32) :
    value (converted token) ≠ .bool b ∧ value (converted token) ≠ .int i := by
  unfold converted
  split
  · exact ⟨nofun, nofun⟩
  · split
    · exact ⟨nofun, nofun⟩
    · exact ⟨nofun, nofun⟩

theorem converted_eq_double_iff {token : QString} {d : Double} :
    converted token = .ofLiteral (.ofVariant (.double d)) ↔ token ≠ ['a'] ∧ Qt.toDouble token = some d := by
  unfold converted
  constructor
  · intro h
    have hValue := congrArg value h
    split at hValue
    next => cases hValue
    next hType =>
      split at hValue
      next hDouble =>
        rw [value_double, value_double, QVariant.double.injEq] at hValue
        exact ⟨hType, hDouble.trans (congrArg some hValue)⟩
      next => cases hValue
  · rintro ⟨hType, hDouble⟩
    rw [if_neg hType, hDouble]

theorem converted_eq_plain_iff {token text : QString} (hText : text ≠ ['a']) (hDouble : Qt.toDouble text = none) :
    converted token = .ofLiteral (.createPlainLiteral text .empty) ↔ token = text := by
  unfold converted
  constructor
  · intro h
    have hValue := congrArg value h
    split at hValue
    next => cases hValue
    next =>
      split at hValue
      next => cases hValue
      next =>
        rw [value_plain, value_plain, QVariant.string.injEq] at hValue
        exact hValue
  · rintro rfl
    rw [if_neg hText, hDouble]

/-- The part of a token that is read is converted to what the token stands for. -/
theorem converted_eq_meaning_iff (token : QString) :
    converted (readText token) = meaning token ↔
      (token ≠ ['a'] → Qt.toLower token ≠ "true".toList ∧ Qt.toLower token ≠ "false".toList ∧
        QString.toInt token = none ∧ (readText token = token ∨ readText token ≠ ['a'] ∧
          ∃ d, Qt.toDouble token = some d ∧ Qt.toDouble (readText token) = some d)) := by
  by_cases hType : token = ['a']
  · subst hType
    exact iff_of_true rfl (absurd rfl)
  rw [forall_prop_of_true hType, meaning, if_neg hType]
  obtain ⟨hBool, hInt⟩ : (∀ b, converted (readText token) ≠ .ofLiteral (.ofVariant (.bool b))) ∧
      ∀ i, converted (readText token) ≠ .ofLiteral (.ofVariant (.int i)) :=
    ⟨fun b h => (value_converted_ne (readText token) b 0).1 (congrArg value h),
      fun i h => (value_converted_ne (readText token) true i).2 (congrArg value h)⟩
  by_cases hTrue : Qt.toLower token = "true".toList
  · rw [if_pos hTrue]
    exact iff_of_false (hBool true) fun h => h.1 hTrue
  by_cases hFalse : Qt.toLower token = "false".toList
  · rw [if_neg hTrue, if_pos hFalse]
    exact iff_of_false (hBool false) fun h => h.2.1 hFalse
  rw [if_neg hTrue, if_neg hFalse]
  cases hNumber : QString.toInt token with
  | some i => exact iff_of_false (hInt i) nofun
  | none =>
    simp only [ne_eq, hTrue, hFalse, not_false_eq_true, true_and]
    cases hDouble : Qt.toDouble token with
    | some d =>
      rw [converted_eq_double_iff]
      constructor
      · rintro ⟨hRead, hSame⟩
        exact .inr ⟨hRead, d, rfl, hSame⟩
      · rintro (hWhole | ⟨hRead, d', hEq, hSame⟩)
        · rw [hWhole]
          exact ⟨hType, hDouble⟩
        · exact ⟨hRead, hSame.trans hEq.symm⟩
    | none =>
      rw [converted_eq_plain_iff hType hDouble]
      simp

theorem prefixedUri_eq_some {token bname name : QString} (h : prefixedUri token = some (bname, name)) :
    token = bname ++ ':' :: name ∧ (∀ c ∈ bname, Qt.isWordChar c = true) ∧ ∀ c ∈ name, Qt.isWordChar c = true := by
  unfold prefixedUri at h
  split at h
  next head colon rest hSpan =>
    split at h
    next hParts =>
      obtain ⟨rfl, rfl⟩ := Prod.mk.inj (Option.some.inj h)
      rw [List.span_eq_takeWhile_dropWhile, Prod.mk.injEq] at hSpan
      obtain ⟨hHead, hRest⟩ := hSpan
      refine ⟨?_, ?_, List.all_eq_true.mp hParts.2.2.2⟩
      · rw [← hParts.1, ← hHead, ← hRest, List.takeWhile_append_dropWhile]
      · rw [← hHead]
        exact fun c hc => List.mem_takeWhile_imp hc
    next => cases h
  next => cases h

omit [Qt] in
theorem scanStream_whole {str : QString} (escaped : Bool) (hSpace : NoSpace str) (hNull : '\x00' ∉ str) :
    (scanStream none escaped str).2.1 = str := by
  induction str generalizing escaped with
  | nil => rfl
  | cons c str ih =>
    rw [List.mem_cons, not_or] at hNull
    have hTail : NoSpace str := fun d hd => hSpace d (List.mem_cons_of_mem _ hd)
    have hSkip : ((none : Option Char).isNone && isSpace c ||
        c == (none : Option Char).getD '\x00' && !escaped) = false := by
      simp [hSpace c List.mem_cons_self, Ne.symm hNull.1]
    rw [scanStream, hSkip]
    exact congrArg (c :: ·) (ih _ hTail hNull.2)

/-- A prefixed name is read whole. -/
theorem readText_of_prefixedUri {token bname name : QString} (hBare : Bare token)
    (hNull : Qt.isWordChar '\x00' = false) (h : prefixedUri token = some (bname, name)) :
    readText token = token := by
  obtain ⟨hToken, hHead, hName⟩ := prefixedUri_eq_some h
  have hNot : '\x00' ∉ token := by
    rw [hToken]
    intro hMem
    rcases List.mem_append.mp hMem with hMem | hMem
    · rw [hHead _ hMem] at hNull
      cases hNull
    · rcases List.mem_cons.mp hMem with hMem | hMem
      · cases hMem
      · rw [hName _ hMem] at hNull
        cases hNull
  obtain ⟨c, str, rfl, -⟩ := hBare.first
  have hTail : NoSpace str := fun d hd => hBare.noSpace d (List.mem_cons_of_mem _ hd)
  exact congrArg (c :: ·) (scanStream_whole false hTail fun hMem => hNot (List.mem_cons_of_mem _ hMem))

/-- The node of a prefixed name where literals are quoted. -/
theorem tokenNode_prefixed (prefixes : List (QString × QUrl)) {flags : ParserFlags} {token bname name : QString}
    (hStrict : flags.strictLiteralTypes = true) (hPrefixes : flags.ignorePrefixes = false)
    (h : prefixedUri token = some (bname, name)) :
    tokenNode prefixes flags token =
      let ns := (prefixes.lookup bname).getD QUrl.empty
      if ns.isEmpty then .empty else .ofUri (Qt.urlOfString (Qt.urlToString ns ++ name)) := by
  have hType : token ≠ ['a'] := by
    rintro rfl
    have hColon := congrArg (':' ∈ ·) (prefixedUri_eq_some h).1
    simp at hColon
  rw [tokenNode, if_neg hType, hStrict, hPrefixes, h]
  rfl

/-- A known prefix is taken for an unknown one if its namespace is not valid. -/
theorem known_eq_iff (ns uri : QUrl) :
    (let ns := (some ns).getD QUrl.empty
      if ns.isEmpty then Node.empty else .ofUri uri) = .ofUri uri ↔ ns.isEmpty = false ∨ uri.isEmpty = true := by
  cases hNs : ns.isEmpty with
  | false => simp [hNs]
  | true =>
    cases hUri : uri.isEmpty with
    | true => simp [hNs, Node.ofUri, hUri]
    | false => simp [hNs, Node.ofUri, hUri]

/-- Literals are quoted, and prefixed names are resources. -/
def strictFlags : ParserFlags := ⟨true, false, false⟩

/-- A token is parsed as what it stands for if and only if it is none of those that the code mistakes. -/
theorem parseNode_token_iff (prefixes : List (QString × QUrl)) (token : QString) (hBare : Bare token)
    (hNull : Qt.isWordChar '\x00' = false) : Understood prefixes token ↔ Plain prefixes token := by
  have hAlone : Delimited [] [] := ⟨rfl, rfl⟩
  constructor
  · intro h
    refine ⟨(converted_eq_meaning_iff token).mp ?_, fun {bname name ns} hName hKnown => ?_⟩
    · have hNode : (parseNode prefixes noFlags 1 ([] ++ token ++ [])).1 = meaning token := h.literal 0 rfl hAlone
      rw [← hNode, parseNode_token prefixes noFlags 0 hBare hAlone]
      exact (tokenNode_eq prefixes rfl _).symm
    · have hNode : (parseNode prefixes strictFlags 1 ([] ++ token ++ [])).1 = _ :=
        h.known 0 rfl rfl hAlone hName hKnown
      rw [parseNode_token prefixes strictFlags 0 hBare hAlone, readText_of_prefixedUri hBare hNull hName,
        tokenNode_prefixed prefixes rfl rfl hName, hKnown] at hNode
      exact (known_eq_iff ns _).mp hNode
  · intro h
    refine ⟨fun {flags before rest} depth hFlags hDelimited => ?_,
      fun {flags before rest bname name ns} depth hStrict hPrefixes hDelimited hName hKnown => ?_,
      fun {flags before rest bname name} depth hStrict hPrefixes hDelimited hName hUnknown => ?_⟩
    · rw [parseNode_token prefixes flags depth hBare hDelimited, tokenNode_eq prefixes hFlags]
      exact (converted_eq_meaning_iff token).mpr h.literal
    · rw [parseNode_token prefixes flags depth hBare hDelimited, readText_of_prefixedUri hBare hNull hName,
        tokenNode_prefixed prefixes hStrict hPrefixes hName, hKnown]
      exact (known_eq_iff ns _).mpr (h.known hName hKnown)
    · have hNode : tokenNode prefixes flags (readText token) = .empty := by
        rw [readText_of_prefixedUri hBare hNull hName, tokenNode_prefixed prefixes hStrict hPrefixes hName, hUnknown]
        rfl
      refine ⟨(parseNode_token prefixes flags depth hBare hDelimited).trans hNode, ?_⟩
      exact isParserError_parseBare prefixes flags hBare hDelimited (by rw [hNode]; rfl)

end Qt

section Example

local instance bareTokenQt : Qt := asciiQt

theorem parseNode_token_iff_example : Understood [("x".toList, Vocabulary.RDF.rdfNamespace)] "x:type".toList := by
  have hBare : Bare "x:type".toList := ⟨by decide, 'x', ":type".toList, rfl, by decide⟩
  refine (parseNode_token_iff _ _ hBare rfl).mpr
    ⟨fun _ => ⟨by decide, by decide, by decide, .inl (by decide)⟩, fun {bname name ns} hName hKnown => .inl ?_⟩
  have hPrefix : prefixedUri "x:type".toList = some ("x".toList, "type".toList) := by decide
  obtain ⟨rfl, rfl⟩ := Prod.mk.inj (Option.some.inj (hPrefix.symm.trans hName))
  obtain rfl := Option.some.inj ((rfl : _ = some Vocabulary.RDF.rdfNamespace).symm.trans hKnown)
  rfl

/-- The literal of a Boolean is replaced by a plain one. -/
theorem not_understood :
    ¬ ∀ (prefixes : List (QString × QUrl)) (token : QString), Bare token → Qt.isWordChar '\x00' = false →
      Understood prefixes token := by
  intro h
  have hBare : Bare "true".toList := ⟨by decide, 't', "rue".toList, rfl, by decide⟩
  have hNode : (parseNode [] noFlags 1 ([] ++ "true".toList ++ [])).1 = meaning "true".toList :=
    (h [] _ hBare rfl).literal 0 rfl ⟨rfl, rfl⟩
  revert hNode
  decide

end Example

end N3NodeParser

end Soprano
