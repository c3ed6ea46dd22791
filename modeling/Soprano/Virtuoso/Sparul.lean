import Mathlib.Data.Finset.Insert
import Mathlib.Data.Finset.Erase
import Soprano.Library.Codec
import Soprano.Library.Escape
import Soprano.Virtuoso.VirtuosoModel

/-! The requests about one quad, as SPARQL and SPARUL define them, and a server that evaluates them. -/

namespace Soprano

namespace Virtuoso

open Codec ODBC

/-- A term of a store. -/
inductive Term where
  | iri (text : QString)
  | plain (text : QString)
  | lang (text tag : QString)
  | typed (text type : QString)
deriving DecidableEq

/-- The four parts of a quad. -/
structure Quad (α : Type) where
  graph : α
  subject : α
  predicate : α
  object : α
deriving DecidableEq

/-- A term of a request: it is written out, or it is bound to the next parameter. -/
inductive TermText where
  | term (t : Term)
  | parameter
deriving DecidableEq

namespace Sparul

/-! ### The grammar -/

/-- The characters of `IRIREF`. -/
def isIriChar (c : Char) : Bool :=
  0x20 < c.toNat && !(['<', '>', '"', '{', '}', '|', '^', '\x60', '\\'].contains c)

/-- The letters of `ECHAR`, with what they stand for. -/
def unescapeHash : List (Char × Char) :=
  [('t', '\t'), ('b', '\x08'), ('n', '\n'), ('r', '\r'), ('f', '\x0c'), ('\\', '\\'), ('"', '"'),
    ('\x27', '\x27')]

def unescapeLetter (c : Char) : Option Char := unescapeHash.lookup c

/-- `LANGTAG`, behind its sign. -/
def isLangTag (tag : QString) : Bool :=
  match tag.splitOn '-' with
  | [] => false
  | first :: rest =>
    !first.isEmpty && first.all Char.isAlpha && rest.all fun t => !t.isEmpty && t.all Char.isAlphanum

/-- An IRI, behind its bracket. -/
def readIri : Reader Char QString := do
  let text ← through '>'
  require (text.all isIriChar)
  pure text

/-- `STRING_LITERAL2`, behind its quote. -/
def readQuoted : Reader Char QString := fun input =>
  match Escape.scan '"' false input with
  | some (text, rest) =>
    (if text.all fun c => c != '\n' && c != '\r' then some (Escape.unescape unescapeLetter text) else none,
      rest)
  | none => (none, [])

/-- What stands behind the quotes of a literal, from the symbol `c` on. -/
def readSuffix (text : QString) (c : Char) : Reader Char Term :=
  if c = ' ' then pure (.plain text)
  else if c = '@' then do
    let tag ← through ' '
    require (isLangTag tag)
    pure (.lang text tag)
  else do
    require (c = '^')
    word ['^', '<']
    let type ← readIri
    expect ' '
    pure (.typed text type)

/-- A literal and the space behind it, behind its quote. -/
def readLiteral : Reader Char Term := do
  let text ← readQuoted
  let c ← symbol
  readSuffix text c

/-- A term that starts with the symbol `c`, and the space behind it. -/
def readTermFrom (c : Char) : Reader Char TermText :=
  if c = '<' then do
    let text ← readIri
    expect ' '
    pure (.term (.iri text))
  else if c = '"' then do
    let t ← readLiteral
    pure (.term t)
  else if c = '\x60' then do
    word (batchParams ++ ['\x60', ' '])
    pure .parameter
  else do
    require (c = 'b')
    word (batchParams.tail ++ [' '])
    pure .parameter

def readTerm : Reader Char TermText := do
  let c ← symbol
  readTermFrom c

/-- A graph and the triple that is in it. -/
def readQuad (opening : QString) : Reader Char (Quad TermText) := do
  let graph ← readTerm
  word opening
  let subject ← readTerm
  let predicate ← readTerm
  let object ← readTerm
  word ". \x7d".toList
  pure ⟨graph, subject, predicate, object⟩

/-- The requests about a quad. -/
inductive Verb where
  | insert
  | delete
  | ask
  | select
deriving DecidableEq

/-- What stands before the graph. -/
def Verb.head : Verb → QString
  | insert => "sparql insert into graph ".toList
  | delete => "sparql delete from graph ".toList
  | ask => "sparql ask from ".toList
  | select => "sparql select * from ".toList

/-- What stands between the graph and the triple. -/
def Verb.opening : Verb → QString
  | insert | delete => "\x7b ".toList
  | ask | select => "where \x7b ".toList

def readRequest (v : Verb) : Reader Char (Quad TermText) := do
  word v.head
  readQuad v.opening

def parseAs (request : QString) (v : Verb) : Option (Verb × Quad TermText) :=
  match readRequest v request with
  | (some quad, []) => some (v, quad)
  | _ => none

def parse (request : QString) : Option (Verb × Quad TermText) :=
  [Verb.insert, .delete, .ask, .select].findSome? (parseAs request)

/-! ### What is read -/

/-- The term that a text stands for. -/
def readText (text : QString) : Option TermText :=
  match readTerm (text ++ [' ']) with
  | (some t, []) => some t
  | _ => none

theorem local_readIri : Local readIri :=
  (Local.through _).bind fun _ => (Local.require _).bind fun _ => Local.pure _

theorem local_readQuoted : Local readQuoted := by
  intro input text rest h
  unfold readQuoted at h
  split at h
  · rename_i raw behind hScan
    obtain ⟨rfl, hAppend⟩ := Escape.scan_append hScan
    split at h
    · rename_i hLines
      cases h
      refine ⟨raw ++ ['"'], by simp, fun rest => ?_⟩
      rw [readQuoted, List.append_assoc, List.singleton_append, hAppend]
      simp only [hLines, if_true]
    · cases h
  · cases h

theorem local_readSuffix (text : QString) (c : Char) : Local (readSuffix text c) := by
  refine .ite (.pure _) (.ite ?_ ?_)
  · exact (Local.through _).bind fun _ => (Local.require _).bind fun _ => .pure _
  · exact (Local.require _).bind fun _ => (Local.word _).bind fun _ => local_readIri.bind fun _ =>
      (Local.expect _).bind fun _ => .pure _

theorem local_readTerm : Local readTerm := by
  refine Local.symbol.bind fun c => .ite ?_ (.ite ?_ (.ite ?_ ?_))
  · exact local_readIri.bind fun _ => (Local.expect _).bind fun _ => .pure _
  · exact (local_readQuoted.bind fun text => Local.symbol.bind fun c =>
      local_readSuffix text c).bind fun _ => .pure _
  · exact (Local.word _).bind fun _ => .pure _
  · exact (Local.require _).bind fun _ => (Local.word _).bind fun _ => .pure _

/-- A text stands for a term if it is read as the term, whatever follows its space. -/
theorem readText_eq_some {text : QString} {t : TermText} :
    readText text = some t ↔ Reads readTerm (text ++ [' ']) t := by
  unfold readText
  constructor
  · intro h
    split at h
    · rename_i hRun
      cases h
      exact local_readTerm.reads hRun
    · cases h
  · intro h
    rw [h.run]

theorem reads_iri {u : QString} (h : u.all isIriChar = true) :
    Reads readIri (u ++ ['>']) u := by
  have hClose : '>' ∉ u := fun hMem => absurd (List.all_eq_true.mp h _ hMem) (by decide)
  have hRead := (Reads.through hClose).bind (f := fun text => do
    require (text.all isIriChar)
    pure text) (Reads.bind_require h (Reads.pure u))
  rwa [List.append_nil] at hRead

theorem reads_iriTerm {u : QString} (h : u.all isIriChar = true) :
    Reads readTerm ('<' :: (u ++ ['>', ' '])) (.term (.iri u)) := by
  have hFrom : Reads (readTermFrom '<') (u ++ ['>'] ++ [' ']) (.term (.iri u)) :=
    (reads_iri h).bind (Reads.expect ' ').bind_pure
  have hRead := (Reads.symbol '<').bind hFrom
  rwa [List.append_assoc] at hRead

theorem reads_quotedParameter :
    Reads readTerm (quotedBatchParams ++ [' ']) .parameter := by
  have hFrom : Reads (readTermFrom '\x60') (batchParams ++ ['\x60', ' ']) .parameter :=
    (Reads.word _).bind_pure
  have hRead := (Reads.symbol '\x60').bind hFrom
  exact hRead

theorem reads_parameter : Reads readTerm (batchParams ++ [' ']) .parameter := by
  have hFrom : Reads (readTermFrom 'b') (batchParams.tail ++ [' ']) .parameter :=
    Reads.bind_require rfl (Reads.word _).bind_pure
  exact (Reads.symbol 'b').bind hFrom

theorem unescapeLetter_of_escapeLetter {c letter : Char} (h : escapeLetter c = some letter) :
    unescapeLetter letter = some c := by
  have hAll : ∀ e ∈ escapeHash, unescapeLetter e.2 = some e.1 := by decide
  obtain ⟨l₁, l₂, hSplit, -⟩ := List.lookup_eq_some_iff.mp h
  exact hAll (c, letter) (by simp [hSplit])

theorem notMem_escape {c : Char} (h : escapeLetter c ≠ none) (hLetter : unescapeLetter c = none)
    (text : QString) : c ∉ Escape.escape escapeLetter text := by
  refine Escape.notMem_escape h (fun d hd => ?_) ?_ text
  · rw [unescapeLetter_of_escapeLetter hd] at hLetter
    cases hLetter
  · rintro rfl
    cases hLetter

theorem escapeLetter_backslash : escapeLetter '\\' = some '\\' := rfl

theorem reads_quoted (text : QString) :
    Reads readQuoted (Escape.escape escapeLetter text ++ ['"']) text := by
  intro rest
  have hText := Escape.unescape_escape_of_known escapeLetter_backslash
    (fun _ _ => unescapeLetter_of_escapeLetter) text
  have hLines : (Escape.escape escapeLetter text).all (fun c => c != '\n' && c != '\r') = true := by
    refine List.all_eq_true.mpr fun c hc => ?_
    have hLf : '\n' ∉ Escape.escape escapeLetter text := notMem_escape (by decide) rfl text
    have hCr : '\r' ∉ Escape.escape escapeLetter text := notMem_escape (by decide) rfl text
    have hNeLf : c ≠ '\n' := fun hEq => hLf (hEq ▸ hc)
    have hNeCr : c ≠ '\r' := fun hEq => hCr (hEq ▸ hc)
    simp [hNeLf, hNeCr]
  rw [readQuoted, List.append_assoc, List.singleton_append,
    Escape.scan_escape escapeLetter_backslash (by decide) (by decide)]
  simp only [hLines, if_true, hText]

/-- What a term is read to is decided behind the quotes. -/
theorem reads_literal {text suffix : QString} {c : Char} {t : Term}
    (h : Reads (readSuffix text c) suffix t) :
    Reads readTerm ('"' :: (Escape.escape escapeLetter text ++ '"' :: c :: suffix)) (.term t) := by
  have hLiteral : Reads readLiteral
      (Escape.escape escapeLetter text ++ ['"'] ++ ([c] ++ suffix)) t :=
    (reads_quoted text).bind ((Reads.symbol c).bind h)
  have hFrom : Reads (readTermFrom '"')
      (Escape.escape escapeLetter text ++ ['"'] ++ ([c] ++ suffix)) (.term t) := hLiteral.bind_pure
  have hRead : Reads readTerm _ _ := (Reads.symbol '"').bind hFrom
  simpa using hRead

theorem reads_plain (text : QString) :
    Reads readTerm ('"' :: (Escape.escape escapeLetter text ++ ['"', ' '])) (.term (.plain text)) :=
  reads_literal (c := ' ') (Reads.pure _)

theorem reads_typed (text : QString) {type : QString} (h : type.all isIriChar = true) :
    Reads readTerm ('"' :: (Escape.escape escapeLetter text ++ (Node.typedSuffix type ++ [' '])))
      (.term (.typed text type)) := by
  have hType : Reads (readSuffix text '^') (['^', '<'] ++ (type ++ ['>'] ++ [' '])) (.typed text type) :=
    Reads.bind_require rfl ((Reads.word _).bind ((reads_iri h).bind (Reads.expect ' ').bind_pure))
  have hRead := reads_literal hType
  simpa [Node.typedSuffix] using hRead

theorem notMem_intercalate {c d : Char} (hNe : d ≠ c) {parts : List QString}
    (h : ∀ part ∈ parts, d ∉ part) : d ∉ [c].intercalate parts := by
  induction parts with
  | nil => exact List.not_mem_nil
  | cons part parts ih =>
    have hPart := h part (by simp)
    have hParts := ih fun p hp => h p (by simp [hp])
    cases parts with
    | nil => simpa [List.intercalate_singleton] using hPart
    | cons next parts =>
      rw [List.intercalate_cons_cons]
      simp [hPart, hNe, hParts]

/-- A language tag has no characters but its letters, digits and dashes. -/
theorem notMem_of_isLangTag {tag : QString} (h : isLangTag tag = true) {c : Char} (hDash : c ≠ '-')
    (hLetter : c.isAlphanum = false) : c ∉ tag := by
  have hTag : ['-'].intercalate (tag.splitOn '-') = tag := List.intercalate_splitOn '-'
  rw [← hTag]
  refine notMem_intercalate hDash fun part hPart hMem => ?_
  unfold isLangTag at h
  cases hParts : tag.splitOn '-' with
  | nil => simp [hParts] at hPart
  | cons first rest =>
    simp only [hParts, Bool.and_eq_true] at h
    rcases List.mem_cons.mp (hParts ▸ hPart) with rfl | hPart
    · have hAlpha := List.all_eq_true.mp h.1.2 _ hMem
      rw [Char.isAlphanum, hAlpha] at hLetter
      cases hLetter
    · have hAll := List.all_eq_true.mp h.2 part hPart
      rw [Bool.and_eq_true] at hAll
      rw [List.all_eq_true.mp hAll.2 _ hMem] at hLetter
      cases hLetter

theorem reads_lang (text : QString) {tag : QString} (h : isLangTag tag = true) :
    Reads readTerm ('"' :: (Escape.escape escapeLetter text ++ '"' :: '@' :: (tag ++ [' '])))
      (.term (.lang text tag)) := by
  have hTag : Reads (readSuffix text '@') (tag ++ [' '] ++ []) (.lang text tag) :=
    (Reads.through (notMem_of_isLangTag h (by decide) rfl)).bind (Reads.bind_require h (Reads.pure _))
  rw [List.append_nil] at hTag
  exact reads_literal hTag

/-- An IRI is read up to its bracket, and has only characters of IRIs. -/
theorem of_readIri {input rest : QString} {u : QString} (h : readIri input = (some u, rest)) :
    u.all isIriChar = true ∧ input = u ++ '>' :: rest := by
  obtain ⟨text, middle, hThrough, hPure⟩ := exists_of_bind h
  obtain ⟨⟨⟩, middle', hRequire, hText⟩ := exists_of_bind hPure
  cases hText
  unfold require at hRequire
  split at hRequire
  · rename_i hAll
    cases hRequire
    exact ⟨hAll, (Reads.of_through hThrough).1⟩
  · cases hRequire

/-- A text in brackets stands for an IRI, or for nothing if it has a character that IRIs do not have. -/
theorem readText_iri_iff {u : QString} {t : TermText} :
    readText ('<' :: (u ++ ['>'])) = some t ↔ u.all isIriChar = true ∧ t = .term (.iri u) := by
  rw [readText_eq_some]
  constructor
  · intro h
    obtain ⟨w, middle, hIri, hEnd⟩ : ∃ w middle, readIri (u ++ ['>'] ++ [' ']) = (some w, middle) ∧
        (expect ' ' >>= fun _ => (pure (.term (.iri w)) : Reader Char TermText)) middle =
          (some t, []) :=
      exists_of_bind (r := readIri) h.run
    obtain ⟨⟨⟩, rest, hExpect, hPure⟩ := exists_of_bind hEnd
    cases hPure
    obtain ⟨hAll, hSplit⟩ := of_readIri hIri
    rw [Reads.eq_of_expect hExpect] at hSplit
    obtain rfl : u = w := by simpa using hSplit
    exact ⟨hAll, rfl⟩
  · rintro ⟨h, rfl⟩
    simpa using reads_iriTerm h

/-- A literal with a sign behind its quotes stands for nothing but a literal with that language. -/
theorem readText_lang {text tag : QString} {t : TermText}
    (h : readText ('"' :: (Escape.escape escapeLetter text ++ '"' :: '@' :: tag)) = some t) :
    t = .term (.lang text tag) := by
  have hQuoted := reads_quoted text ('@' :: (tag ++ [' ']))
  rw [List.append_assoc, List.singleton_append] at hQuoted
  rw [readText_eq_some, List.cons_append, List.append_assoc] at h
  obtain ⟨literal, middle, hLiteral, hPure⟩ := exists_of_bind (r := readLiteral) h.run
  cases hPure
  obtain ⟨text', rest, hText, hSuffix⟩ := exists_of_bind hLiteral
  rw [show '"' :: '@' :: tag ++ [' '] = '"' :: '@' :: (tag ++ [' ']) from rfl, hQuoted] at hText
  cases hText
  obtain ⟨tag', middle', hThrough, hTag⟩ := exists_of_bind (r := through ' ') hSuffix
  obtain ⟨⟨⟩, _, hRequire, hEnd⟩ := exists_of_bind hTag
  cases hEnd
  have hMiddle : middle' = [] := by
    unfold require at hRequire
    split at hRequire
    · exact (Prod.mk.inj hRequire).2
    · cases hRequire
  obtain ⟨hSplit, -⟩ := Reads.of_through hThrough
  rw [hMiddle] at hSplit
  rw [List.append_cancel_right hSplit]

/-- The request about a quad whose terms are written so. -/
def Verb.request (v : Verb) (texts : Quad QString) : QString :=
  v.head ++ (texts.graph ++ [' '] ++ (v.opening ++ (texts.subject ++ [' '] ++
    (texts.predicate ++ [' '] ++ (texts.object ++ [' '] ++ ". \x7d".toList)))))

/-- The terms of a request that the texts stand for. -/
def readTexts (texts : Quad QString) : Option (Quad TermText) := do
  let graph ← readText texts.graph
  let subject ← readText texts.subject
  let predicate ← readText texts.predicate
  let object ← readText texts.object
  some ⟨graph, subject, predicate, object⟩

theorem readTexts_eq_some {texts : Quad QString} {quad : Quad TermText} :
    readTexts texts = some quad ↔ readText texts.graph = some quad.graph ∧
      readText texts.subject = some quad.subject ∧ readText texts.predicate = some quad.predicate ∧
      readText texts.object = some quad.object := by
  cases quad
  simp [readTexts, Option.bind_eq_some_iff]

theorem reads_quad {texts : Quad QString} {quad : Quad TermText} (opening : QString)
    (h : readTexts texts = some quad) :
    Reads (readQuad opening) (texts.graph ++ [' '] ++ (opening ++ (texts.subject ++ [' '] ++
      (texts.predicate ++ [' '] ++ (texts.object ++ [' '] ++ ". \x7d".toList))))) quad := by
  obtain ⟨hGraph, hSubject, hPredicate, hObject⟩ := readTexts_eq_some.mp h
  rw [readText_eq_some] at hGraph hSubject hPredicate hObject
  exact hGraph.bind ((Reads.word _).bind (hSubject.bind (hPredicate.bind (hObject.bind
    (Reads.word _).bind_pure))))

theorem parseAs_request {texts : Quad QString} {quad : Quad TermText} (v : Verb)
    (h : readTexts texts = some quad) : parseAs (v.request texts) v = some (v, quad) := by
  have hRead : Reads (readRequest v) _ quad := (Reads.word v.head).bind (reads_quad v.opening h)
  rw [parseAs, Verb.request, hRead.run]

theorem Verb.head_injective {v v' : Verb} {rest rest' : QString}
    (h : v.head ++ rest = v'.head ++ rest') : v = v' := by
  have hLength : ∀ v : Verb, 8 ≤ v.head.length := by
    intro v
    cases v <;> decide
  have hTake := congrArg (List.take 8) h
  rw [List.take_append_of_le_length (hLength v), List.take_append_of_le_length (hLength v')] at hTake
  revert hTake
  cases v <;> cases v' <;> decide

/-- A request is not read as another one. -/
theorem parseAs_request_of_ne {v v' : Verb} (h : v ≠ v') (texts : Quad QString) :
    parseAs (v.request texts) v' = none := by
  unfold parseAs
  split
  · rename_i hRun
    obtain ⟨⟨⟩, middle, hWord, -⟩ := exists_of_bind hRun
    exact absurd (Verb.head_injective (Reads.eq_of_word hWord)) h
  · rfl

theorem parse_request {texts : Quad QString} {quad : Quad TermText} (v : Verb)
    (h : readTexts texts = some quad) : parse (v.request texts) = some (v, quad) := by
  have hOwn := parseAs_request v h
  cases v <;> simp [parse, hOwn, parseAs_request_of_ne]

/-! ### Parameters -/

section Qt

variable [Qt]

omit [Qt] in
theorem ne_zero_of_mem_utf8EncodeChar {c : Char} (h : c ≠ '\x00') :
    ∀ b ∈ String.utf8EncodeChar c, b ≠ 0 := by
  have hZero : ∀ n, UInt8.ofNat n = 0 → n % 256 = 0 := fun n hn => by
    simpa using congrArg UInt8.toNat hn
  have hVal : c.val.toNat ≠ 0 := fun hEq => h (Char.ext (UInt32.toNat_inj.mp hEq))
  intro b hb hNull
  subst hNull
  unfold String.utf8EncodeChar at hb
  simp only at hb
  split at hb
  · have := hZero _ (List.mem_singleton.mp hb).symm
    omega
  · have hMod : ∀ n, 0x80 ≤ n % 256 → (0 : UInt8) ≠ UInt8.ofNat n := fun n hn hEq => by
      have := hZero n hEq.symm
      omega
    split at hb
    · simp only [List.mem_cons, List.not_mem_nil, or_false] at hb
      rcases hb with hb | hb <;> exact hMod _ (by omega) hb
    · split at hb
      · simp only [List.mem_cons, List.not_mem_nil, or_false] at hb
        rcases hb with hb | hb | hb <;> exact hMod _ (by omega) hb
      · simp only [List.mem_cons, List.not_mem_nil, or_false] at hb
        rcases hb with hb | hb | hb | hb <;> exact hMod _ (by omega) hb

omit [Qt] in
/-- A C string ends at the first null character of its text. -/
theorem cString_toUtf8 (text : QString) :
    cString text.toUtf8 = QString.toUtf8 (text.takeWhile (· ≠ '\x00')) := by
  induction text with
  | nil => rfl
  | cons c text ih =>
    by_cases hc : c = '\x00'
    · subst hc
      rfl
    · rw [List.takeWhile_cons_of_pos (by simpa using hc)]
      simp only [QString.toUtf8, List.flatMap_cons] at ih ⊢
      rw [← ih]
      exact List.takeWhile_append_of_pos fun b hb => by
        simpa using ne_zero_of_mem_utf8EncodeChar hc b hb

omit [Qt] in
theorem cString_toEncoded (u : QUrl) : cString u.toEncoded = u.toEncoded := by
  refine List.takeWhile_eq_self_iff.mpr fun b hb => ?_
  obtain ⟨c, hc, rfl⟩ := List.mem_map.mp hb
  have hUrl := u.isUrlChar_of_mem hc
  simp only [isUrlChar, Bool.and_eq_true, decide_eq_true_eq] at hUrl
  rw [if_pos (by omega)]
  simp only [ne_eq, decide_eq_true_eq]
  intro hZero
  have := congrArg UInt8.toNat hZero
  rw [UInt8.toNat_ofNat'] at this
  simp at this
  omega

/-- `__rdf_long_from_batch_params`, of strings that end at their first null byte. -/
def parameterTerm (p : Parameter) : Option Term :=
  let text := QString.fromUtf8 (cString p.value)
  if p.mode = 1 then some (.iri (.fromLatin1 (cString p.value)))
  else if p.mode = 3 then some (.plain text)
  else if p.mode = 4 then some (.typed text (.fromLatin1 (cString p.dtOrLang)))
  else if p.mode = 5 then some (.lang text (.fromUtf8 (cString p.dtOrLang)))
  else none

/-- The text that is left of a C string. -/
def cut (text : QString) : QString := text.takeWhile (· ≠ '\x00')

theorem parameterTerm_resource (uri : QUrl) (h : uri.isEmpty = false) :
    (parameter (.resource uri h)).bind parameterTerm = some (.iri uri.encoded) := by
  simp [parameter, parameterTerm, cString_toEncoded]

theorem parameterTerm_plain (text : QString) (lang : LanguageTag) :
    (parameter (.literal (.plain text lang) rfl)).bind parameterTerm =
      some (if lang.isValid then .lang (cut text) (cut lang.toString) else .plain (cut text)) := by
  have hNoType : QUrl.empty.isEmpty = true := rfl
  simp only [parameter, LiteralValue.dataTypeUri, LiteralValue.language, LiteralValue.toString,
    hNoType, Bool.not_true, Bool.false_eq_true, if_false]
  by_cases hLang : lang.isValid = true
  · simp [hLang, parameterTerm, cString_toUtf8, cut]
  · simp [hLang, parameterTerm, cString_toUtf8, cut]

theorem parameterTerm_typed {v : QVariant} {dtUri : QUrl} (h : StoredAs v dtUri)
    (hValid : (LiteralValue.typed v dtUri h).isValid = true) :
    (parameter (.literal (.typed v dtUri h) hValid)).bind parameterTerm =
      some (.typed (cut (LiteralValue.text v)) dtUri.encoded) := by
  simp [parameter, LiteralValue.dataTypeUri, LiteralValue.toString, h.2, parameterTerm, cString_toUtf8,
    cString_toEncoded, cut]

/-- The term, and the parameters that are left. -/
def fillTerm (params : List Parameter) : TermText → Option (Term × List Parameter)
  | .term t => some (t, params)
  | .parameter =>
    match params with
    | [] => none
    | p :: params => (parameterTerm p).map (·, params)

/-- The quad, if it takes all of the parameters. -/
def fill (quad : Quad TermText) (params : List Parameter) : Option (Quad Term) := do
  let (graph, params) ← fillTerm params quad.graph
  let (subject, params) ← fillTerm params quad.subject
  let (predicate, params) ← fillTerm params quad.predicate
  let (object, params) ← fillTerm params quad.object
  if params.isEmpty then some ⟨graph, subject, predicate, object⟩ else none

/-- The quad that the texts stand for. -/
def denotes (texts : Quad QString) (params : List Parameter) : Option (Quad Term) :=
  (readTexts texts).bind (fill · params)

/-- The meaning of a request. -/
def meaning (request : QString) (params : List Parameter) : Option (Verb × Quad Term) :=
  (parse request).bind fun (v, quad) => (fill quad params).map (v, ·)

/-- The text stands for a term, and leaves parameters. -/
def Fills (params : List Parameter) (text : QString) (t : Term) (rest : List Parameter) : Prop :=
  ∃ term, readText text = some term ∧ fillTerm params term = some (t, rest)

theorem denotes_eq_some {texts : Quad QString} {params : List Parameter} {quad : Quad Term} :
    denotes texts params = some quad ↔ ∃ p₁ p₂ p₃, Fills params texts.graph quad.graph p₁ ∧
      Fills p₁ texts.subject quad.subject p₂ ∧ Fills p₂ texts.predicate quad.predicate p₃ ∧
      Fills p₃ texts.object quad.object [] := by
  constructor
  · intro h
    obtain ⟨terms, hTexts, hFill⟩ := Option.bind_eq_some_iff.mp h
    obtain ⟨hGraph, hSubject, hPredicate, hObject⟩ := readTexts_eq_some.mp hTexts
    simp only [fill, bind, Option.bind_eq_some_iff, Prod.exists] at hFill
    obtain ⟨graph, p₁, hGraph', subject, p₂, hSubject', predicate, p₃, hPredicate', object, p₄,
      hObject', hQuad⟩ := hFill
    obtain ⟨hEmpty, hEq⟩ := Option.ite_none_right_eq_some.mp hQuad
    cases hEq
    obtain rfl := List.isEmpty_iff.mp hEmpty
    exact ⟨p₁, p₂, p₃, ⟨_, hGraph, hGraph'⟩, ⟨_, hSubject, hSubject'⟩, ⟨_, hPredicate, hPredicate'⟩,
      ⟨_, hObject, hObject'⟩⟩
  · rintro ⟨p₁, p₂, p₃, ⟨graph, hGraph, hGraph'⟩, ⟨subject, hSubject, hSubject'⟩,
      ⟨predicate, hPredicate, hPredicate'⟩, ⟨object, hObject, hObject'⟩⟩
    rw [denotes, show readTexts texts = some ⟨graph, subject, predicate, object⟩ from
      readTexts_eq_some.mpr ⟨hGraph, hSubject, hPredicate, hObject⟩]
    simp [fill, hGraph', hSubject', hPredicate', hObject']

theorem fills_nil {text : QString} {t : Term} {rest : List Parameter} :
    Fills [] text t rest ↔ readText text = some (.term t) ∧ rest = [] := by
  constructor
  · rintro ⟨term, hText, hFill⟩
    cases term with
    | term t' =>
      cases hFill
      exact ⟨hText, rfl⟩
    | parameter => cases hFill
  · rintro ⟨hText, rfl⟩
    exact ⟨_, hText, rfl⟩

/-- Without parameters, all terms are written out. -/
theorem denotes_nil {texts : Quad QString} {quad : Quad Term} :
    denotes texts [] = some quad ↔ readText texts.graph = some (.term quad.graph) ∧
      readText texts.subject = some (.term quad.subject) ∧
      readText texts.predicate = some (.term quad.predicate) ∧
      readText texts.object = some (.term quad.object) := by
  rw [denotes_eq_some]
  constructor
  · rintro ⟨p₁, p₂, p₃, hGraph, hSubject, hPredicate, hObject⟩
    obtain ⟨hGraphText, rfl⟩ := fills_nil.mp hGraph
    obtain ⟨hSubjectText, rfl⟩ := fills_nil.mp hSubject
    obtain ⟨hPredicateText, rfl⟩ := fills_nil.mp hPredicate
    exact ⟨hGraphText, hSubjectText, hPredicateText, (fills_nil.mp hObject).1⟩
  · rintro ⟨hGraph, hSubject, hPredicate, hObject⟩
    exact ⟨[], [], [], fills_nil.mpr ⟨hGraph, rfl⟩, fills_nil.mpr ⟨hSubject, rfl⟩,
      fills_nil.mpr ⟨hPredicate, rfl⟩, fills_nil.mpr ⟨hObject, rfl⟩⟩

theorem meaning_request {texts : Quad QString} {params : List Parameter} {quad : Quad Term} (v : Verb)
    (h : denotes texts params = some quad) : meaning (v.request texts) params = some (v, quad) := by
  obtain ⟨terms, hTexts, hFill⟩ := Option.bind_eq_some_iff.mp h
  rw [meaning, parse_request v hTexts, Option.bind_some]
  simp only [hFill, Option.map_some]

/-! ### Servers -/

/-- The quads behind a request. -/
def Verb.effect (v : Verb) (quad : Quad Term) (quads : Finset (Quad Term)) : Finset (Quad Term) :=
  match v with
  | insert => Insert.insert quad quads
  | delete => quads.erase quad
  | ask | select => quads

/-- The result of a request, if the quad is found or not. -/
def Verb.Answers (found : Bool) (result : ResultSet) : Verb → Prop
  | insert | delete => True
  | ask => result.columns.map Column.name = ["__ASK_RETVAL".toList] ∧
      if found then ∃ cell cells rows, result.rows = .ok (cell :: cells) :: rows ∧
        cell.getData.1.toLiteral.toInt ≠ 0
      else result.rows = []
  | select => result.columns = [] ∧ result.rows = if found then [.ok []] else []

/-- The server behind the driver evaluates requests about quads as SPARQL and SPARUL define them. -/
structure Evaluates {S : Type} (driver : Driver S) (quads : S → Finset (Quad Term)) : Prop where
  connect : ∀ name state, ∃ state', driver.connect name state = (.ok (), state')
  allocHandle : ∀ state, ∃ state', driver.allocHandle state = (.ok (), state') ∧
    quads state' = quads state
  execDirect : ∀ {request params v quad} state, meaning request params = some (v, quad) →
    ∃ result state', driver.execDirect params request.toUtf8 state = (.ok result, state') ∧
      quads state' = v.effect quad (quads state) ∧ v.Answers (decide (quad ∈ quads state)) result

/-- A result that answers a request. -/
def answer (v : Verb) (found : Bool) : ResultSet :=
  match v with
  | .insert | .delete => ⟨[], [], []⟩
  | .ask =>
    ⟨[⟨"__ASK_RETVAL".toList, 4⟩], if found then
      [.ok [⟨.ok (QString.toUtf8 ['1']), .ok (), .ok 189, .ok 0, none, .error [], .error []⟩]] else [], []⟩
  | .select => ⟨[], if found then [.ok []] else [], []⟩

/-- A server that has nothing but the quads. -/
def quadServer : Driver (Finset (Quad Term)) where
  connect _ quads := (.ok (), quads)
  allocHandle quads := (.ok (), quads)
  execDirect params request quads :=
    match meaning (QString.fromUtf8 request) params with
    | some (v, quad) => (.ok (answer v (decide (quad ∈ quads))), v.effect quad quads)
    | none => (.error [], quads)

theorem answers_answer (v : Verb) (found : Bool) : v.Answers found (answer v found) := by
  cases v with
  | insert | delete => trivial
  | ask =>
    refine ⟨rfl, ?_⟩
    cases found with
    | false => rfl
    | true =>
      have hText : QString.fromUtf8 (cString (QString.toUtf8 ['1'])) = ['1'] :=
        QString.fromUtf8_toUtf8 ['1']
      have hInt : LiteralValue.parse ['1'] .int = some (.int 1) := by
        rw [LiteralValue.parse, show QString.toInt ['1'] = some 1 by decide]
        rfl
      refine ⟨_, _, _, rfl, ?_⟩
      show (Node.ofLiteral (.fromStringAs (.fromUtf8 (cString (QString.toUtf8 ['1']))) .int)).toLiteral.toInt ≠ 0
      rw [hText, LiteralValue.fromStringAs, hInt]
      show (1 : Int32) ≠ 0
      decide
  | select => exact ⟨rfl, rfl⟩

theorem evaluates_quadServer : Evaluates quadServer id := by
  refine ⟨fun _ _ => ⟨_, rfl⟩, fun state => ⟨state, rfl, rfl⟩, fun {request params v quad} state h => ?_⟩
  have hRun : quadServer.execDirect params request.toUtf8 state =
      (.ok (answer v (decide (quad ∈ state))), v.effect quad state) := by
    simp only [quadServer, QString.fromUtf8_toUtf8, h]
  exact ⟨_, _, hRun, rfl, answers_answer v _⟩

end Qt

end Sparul

end Virtuoso

end Soprano
