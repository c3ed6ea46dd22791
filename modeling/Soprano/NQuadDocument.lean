import Soprano.NQuadParser

/-! The documents of the N-Quads format, with every way to write a term that `NQuadParser` has a branch
for, and which of their lines the parser reads as the statements that they stand for. -/

namespace Soprano

namespace NQuadDocument

open QString NQuadParser

/-- White space inside a line. -/
def Blanks := { w : QString // ∀ c ∈ w, isSpace c = true ∧ c ≠ '\n' }

/-- A text between the quotes of a literal and what it stands for: quotes, backslashes and line feeds
are escaped, and any other character may be where there is a letter for it. -/
inductive Spelled : QString → QString → Prop
  | nil : Spelled [] []
  | plain {c : Char} {body val : QString} : c ≠ '"' → c ≠ '\\' → c ≠ '\n' → Spelled body val →
      Spelled (c :: body) (c :: val)
  | escape {letter c : Char} {body val : QString} : unescapeLetter letter = some c →
      Spelled body val → Spelled ('\\' :: letter :: body) (c :: val)

/-- A word without white space: the name of a blank node, or a language. -/
def Word := { s : QString // s ≠ [] ∧ NoSpace s }

section Qt

variable [Qt]

/-- The text between angle brackets, of a resource that `QUrl` can read. -/
structure Iri where
  text : QString
  closed : '>' ∉ text
  line : '\n' ∉ text
  known : (urlOf text).isEmpty = false

def Iri.node (iri : Iri) : Node := .resource (urlOf iri.text) iri.known

/-- A term, with the node that it stands for. -/
inductive Term
  | resource (iri : Iri)
  | blank (name : Word)
  | plain (body val : QString) (h : Spelled body val)
  | lang (body val : QString) (h : Spelled body val) (tag : Word)
  | typed (body val : QString) (h : Spelled body val) (type : Iri)
      (valid : (LiteralValue.fromString val (urlOf type.text)).isValid = true)

namespace Term

def node : Term → Node
  | resource iri => iri.node
  | blank name => .ofIdentifier name.1
  | plain _ val _ => .ofLiteral (.createPlainLiteral val .empty)
  | lang _ val _ tag => .ofLiteral (.createPlainLiteral val (.ofString tag.1))
  | typed _ val _ type _ => .ofLiteral (.fromString val (urlOf type.text))

def text : Term → QString
  | resource iri => '<' :: (iri.text ++ ['>'])
  | blank name => '_' :: ':' :: name.1
  | plain body _ _ => '"' :: (body ++ ['"'])
  | lang body _ _ tag => '"' :: (body ++ '"' :: '@' :: tag.1)
  | typed body _ _ type _ => '"' :: (body ++ '"' :: '^' :: '^' :: '<' :: (type.text ++ ['>']))

def isSubject : Term → Bool
  | resource _ | blank _ => true
  | _ => false

def isPlain : Term → Bool
  | plain .. => true
  | _ => false

end Term

/-- `subject ws+ predicate ws+ object (ws+ context)? ws* '.'`, with white space around it. -/
structure StatementLine where
  indent : Blanks
  subject : Term
  isSubject : subject.isSubject = true
  behindSubject : Blanks
  predicate : Iri
  behindPredicate : Blanks
  object : Term
  behindObject : Blanks
  context : Option (Iri × Blanks)
  trailing : Blanks
  separated : behindSubject.1 ≠ [] ∧ behindPredicate.1 ≠ [] ∧ (context.isSome → behindObject.1 ≠ [])

/-- A context with the white space behind it, and the dot. -/
def contextText : Option (Iri × Blanks) → QString
  | none => ['.']
  | some (iri, behind) => (Term.resource iri).text ++ (behind.1 ++ ['.'])

def contextNode (context : Option (Iri × Blanks)) : Node :=
  (context.map fun c => c.1.node).getD .empty

namespace StatementLine

/-- The statement that the line stands for. -/
def statement (l : StatementLine) : Statement :=
  ⟨l.subject.node, l.predicate.node, l.object.node, contextNode l.context⟩

/-- The line without the white space around it. -/
def core (l : StatementLine) : QString :=
  l.subject.text ++ (l.behindSubject.1 ++ ((Term.resource l.predicate).text ++ (l.behindPredicate.1 ++
    (l.object.text ++ (l.behindObject.1 ++ contextText l.context)))))

end StatementLine

inductive Line
  | statement (l : StatementLine)
  | comment (indent : Blanks) (text : QString) (h : '\n' ∉ text)
  | blank (w : Blanks)

namespace Line

def text : Line → QString
  | statement l => l.indent.1 ++ (l.core ++ l.trailing.1)
  | comment indent text _ => indent.1 ++ '#' :: text
  | blank w => w.1

def statements : Line → List Statement
  | statement l => [l.statement]
  | comment .. | blank _ => []

end Line

def documentText (document : List Line) : QString := document.flatMap fun l => l.text ++ ['\n']

/-- The object is written so that it is read as it stands: the parser takes the character behind a blank
node into its name, ends a language at white space only, and does not see a plain literal that fewer
than two characters and the dot follow. -/
def Term.Read (behind : Blanks) (context : Option (Iri × Blanks)) : Term → Prop
  | resource _ | typed .. => True
  | blank _ => False
  | lang .. => behind.1 ≠ []
  | plain .. => context.isSome = true ∨ 2 ≤ behind.1.length

/-- The lines that are read as they stand. -/
def Line.Read : Line → Prop
  | statement l => (∃ iri, l.subject = .resource iri) ∧ l.object.Read l.behindObject l.context
  | comment indent _ _ => indent.1 = []
  | blank _ => False

/-! ### Terms -/

omit [Qt] in
theorem spells_of_spelled {body val : QString} (h : Spelled body val) : Spells body val := by
  obtain ⟨hGuarded, hEnds, hText⟩ : Escape.guarded '"' false body = true ∧
      Escape.oddTail false body = false ∧ Escape.unescape unescapeLetter body = val := by
    induction h with
    | nil => exact ⟨rfl, rfl, rfl⟩
    | plain hQuote hBackslash _ _ ih =>
      obtain ⟨hGuarded, hEnds, hText⟩ := ih
      refine ⟨?_, ?_, ?_⟩
      · simpa [Escape.guarded, hQuote, Escape.parity, hBackslash] using hGuarded
      · simpa [Escape.parity, hBackslash] using hEnds
      · rw [Escape.unescape_cons hBackslash, hText]
    | @escape letter c body val hLetter _ ih =>
      obtain ⟨hGuarded, hEnds, hText⟩ := ih
      refine ⟨?_, ?_, ?_⟩
      · simpa [Escape.guarded, Escape.parity] using hGuarded
      · simpa [Escape.parity] using hEnds
      · rw [Escape.unescape_letter hLetter, hText]
  refine ⟨hGuarded, hEnds, ?_⟩
  rw [decodeLiteral, Escape.dangling_eq_oddTail (by decide), hEnds, hText]
  rfl

omit [Qt] in
theorem notMem_of_spelled {body val : QString} (h : Spelled body val) : '\n' ∉ body := by
  induction h with
  | nil => exact List.not_mem_nil
  | plain _ _ hLine _ ih => exact List.not_mem_cons_of_ne_of_not_mem (Ne.symm hLine) ih
  | @escape letter c body val hLetter _ ih =>
    have hNot : letter ≠ '\n' := by
      rintro rfl
      rw [show unescapeLetter '\n' = none by decide] at hLetter
      cases hLetter
    refine List.not_mem_cons_of_ne_of_not_mem (by decide) ?_
    exact List.not_mem_cons_of_ne_of_not_mem (Ne.symm hNot) ih

omit [Qt] in
theorem indexOfSpace_eq_none {s : QString} {start : Nat} (h : NoSpace (s.drop start)) :
    indexOfSpace s start = none := by
  rw [indexOfSpace, Option.map_eq_none_iff, List.findIdx?_eq_none_iff]
  exact h

omit [Qt] in
theorem noSpace_append {s t : QString} (hs : NoSpace s) (ht : NoSpace t) : NoSpace (s ++ t) :=
  List.forall_mem_append.mpr ⟨hs, ht⟩

/-- A plain literal needs white space and two more characters behind it. -/
theorem parseNode_plain {s body val after : QString} {c : Char} {offset : Nat} (hBody : Spells body val)
    (h : s.drop offset = '"' :: (body ++ '"' :: c :: after)) (hAt : c ≠ '@') (hCaret : c ≠ '^') :
    parseNode s offset = .ok (if isSpace c = true ∧ 2 ≤ after.length then
      (.ofLiteral (.createPlainLiteral val .empty), offset + (body.length + 2)) else (.empty, offset)) := by
  have hNext := @drop_of_drop s ['"'] _ _ h
  have hHere : s.drop (offset + 1 + body.length + 1) = c :: after :=
    @drop_of_drop s ['"'] _ _ (drop_of_drop hNext)
  have hLength := length_of_drop hHere
  have hMid : s.mid (offset + 1 + body.length + 1) 3 ≠ ['^', '^', '<'] := by
    rw [mid, hHere, List.take_succ_cons]
    exact fun hEq => hCaret (List.cons.inj hEq).1
  have hEnd : findLiteralEnd s offset = if isSpace c = true ∧ 2 ≤ after.length then
      some (offset + 1 + body.length, false) else none := by
    rw [findLiteralEnd, hBody.quoteFrom h]
    simp only [Option.bind_eq_bind, Option.bind_some, getElem?_of_drop hHere, if_neg hAt, hMid, false_or]
    by_cases hBoth : isSpace c = true ∧ 2 ≤ after.length
    · rw [if_pos ⟨by omega, hBoth.1⟩, if_pos hBoth]
    · rw [if_neg (fun hInside => hBoth ⟨hInside.2, by omega⟩), if_neg hBoth]
  by_cases hBoth : isSpace c = true ∧ 2 ≤ after.length
  · rw [if_pos hBoth] at hEnd
    rw [parseNode_literal hBody h hEnd, suffixNode, if_neg (by rintro ⟨⟩), getElem?_of_drop hHere, if_pos hBoth,
      if_neg (by simp [hBoth.1])]
    rw [show offset + 1 + body.length + 1 = offset + (body.length + 2) by omega]
  · rw [if_neg hBoth] at hEnd
    rw [if_neg hBoth, parseNode, getElem?_of_drop h]
    simp only [hEnd]
    rfl

/-- A language goes up to white space. -/
theorem parseNode_lang_unended {s body val after : QString} {offset : Nat} (hBody : Spells body val)
    (h : s.drop offset = '"' :: (body ++ '"' :: '@' :: after)) (hAfter : NoSpace after) :
    parseNode s offset = .ok (.empty, offset) := by
  have hNext := @drop_of_drop s ['"'] _ _ h
  have hHere : s.drop (offset + 1 + body.length + 1) = '@' :: after :=
    @drop_of_drop s ['"'] _ _ (drop_of_drop hNext)
  have hEnd : findLiteralEnd s offset = some (offset + 1 + body.length, true) := by
    rw [findLiteralEnd, hBody.quoteFrom h]
    simp [getElem?_of_drop hHere]
  have hNone : indexOfSpace s (offset + 1 + body.length + 1) = none := by
    apply indexOfSpace_eq_none
    rw [hHere]
    exact List.forall_mem_cons.mpr ⟨rfl, hAfter⟩
  rw [parseNode_literal hBody h hEnd, suffixNode, if_pos rfl, hNone]

/-- So does the name of a blank node. -/
theorem parseNode_blank_unended {s after : QString} {offset : Nat}
    (h : s.drop offset = '_' :: ':' :: after) (hAfter : NoSpace after) :
    parseNode s offset = .ok (.empty, offset) := by
  have hNone : indexOfSpace s (offset + 2) = none := by
    apply indexOfSpace_eq_none
    rw [show s.drop (offset + 2) = after from @drop_of_drop s ['_', ':'] _ _ h]
    exact hAfter
  rw [parseNode, getElem?_of_drop h]
  simp only [hNone, if_neg (show '_' ≠ '<' by decide), if_neg (show '_' ≠ '"' by decide)]
  split <;> rfl

/-- The node that is read where `t` is written, before white space and what follows it. -/
def Term.found (w rest : QString) : Term → Option Node
  | blank name => w.head?.map fun c => .ofIdentifier (name.1 ++ [c])
  | lang body val h tag => if w = [] then none else some (lang body val h tag).node
  | plain body val h =>
    if w ≠ [] ∧ 2 ≤ (w.tail ++ rest).length then some (plain body val h).node else none
  | t => some t.node

theorem parseNode_term {s w rest : QString} {offset : Nat} (t : Term)
    (hSpace : ∀ c ∈ w, isSpace c = true) (hEnd : w = [] → rest = ['.'])
    (h : s.drop offset = t.text ++ (w ++ rest)) :
    parseNode s offset = .ok (match t.found w rest with
      | some n => (n, offset + t.text.length)
      | none => (.empty, offset)) := by
  cases t with
  | resource iri =>
    rw [Term.text] at h
    rw [parseNode_resource iri.closed (by simpa using h), Node.ofUri, dif_pos iri.known]
    simp [Term.found, Term.node, Iri.node, Term.text]
  | typed body val hSpelled type valid =>
    rw [Term.text] at h
    rw [parseNode_type (spells_of_spelled hSpelled) type.closed (by simpa using h)]
    simp only [Term.found, Term.node, Term.text, List.length_cons, List.length_append, List.length_nil]
    rw [show offset + (body.length + (type.text.length + 6)) =
      offset + (body.length + (type.text.length + (0 + 1) + 1 + 1 + 1 + 1) + 1) by omega]
  | plain body val hSpelled =>
    have hBody := spells_of_spelled hSpelled
    have hTextLength : (Term.plain body val hSpelled).text.length = body.length + 2 := by
      simp [Term.text]
    rw [hTextLength, Term.found]
    rw [Term.text] at h
    cases w with
    | nil =>
      obtain rfl := hEnd rfl
      have h : s.drop offset = '"' :: (body ++ '"' :: '.' :: []) := by simpa using h
      rw [parseNode_plain hBody h (by decide) (by decide)]
      rfl
    | cons c w =>
      have hc : isSpace c = true := hSpace c List.mem_cons_self
      have hNe : c ≠ '@' ∧ c ≠ '^' := by
        constructor <;> (rintro rfl; revert hc; decide)
      have h : s.drop offset = '"' :: (body ++ '"' :: c :: (w ++ rest)) := by simpa using h
      rw [parseNode_plain hBody h hNe.1 hNe.2]
      simp only [hc, true_and, List.tail_cons, ne_eq, reduceCtorEq, not_false_eq_true]
      by_cases hLong : 2 ≤ (w ++ rest).length
      · rw [if_pos hLong, if_pos hLong]
        rfl
      · rw [if_neg hLong, if_neg hLong]
  | lang body val hSpelled tag =>
    have hBody := spells_of_spelled hSpelled
    rw [Term.text] at h
    cases w with
    | nil =>
      obtain rfl := hEnd rfl
      have h : s.drop offset = '"' :: (body ++ '"' :: '@' :: (tag.1 ++ ['.'])) := by simpa using h
      rw [parseNode_lang_unended hBody h (noSpace_append tag.2.2 (by decide))]
      rfl
    | cons c w =>
      have hc : isSpace c = true := hSpace c List.mem_cons_self
      have h : s.drop offset = '"' :: (body ++ '"' :: '@' :: (tag.1 ++ c :: (w ++ rest))) := by
        simpa using h
      rw [parseNode_lang hBody h tag.2.2 hc]
      simp only [Term.found, Term.node, Term.text, reduceCtorEq, if_false, List.length_cons,
        List.length_append]
      rw [show offset + (body.length + (tag.1.length + 3)) =
        offset + (body.length + (tag.1.length + 1 + 1) + 1) by omega]
      rfl
  | blank name =>
    rw [Term.text] at h
    cases w with
    | nil =>
      obtain rfl := hEnd rfl
      have h : s.drop offset = '_' :: ':' :: (name.1 ++ ['.']) := by simpa using h
      rw [parseNode_blank_unended h (noSpace_append name.2.2 (by decide))]
      rfl
    | cons c w =>
      have hc : isSpace c = true := hSpace c List.mem_cons_self
      rw [parseNode_blank (by simpa using h) name.2.2 hc]
      rfl

/-- A term is written from a bracket, a quote or an underscore on. -/
theorem head_text (t : Term) (after : QString) :
    ∃ c, (t.text ++ after).head? = some c ∧ isSpace c = false ∧ c ≠ '.' ∧ c ≠ '#' := by
  cases t with
  | resource => exact ⟨'<', rfl, rfl, by decide, by decide⟩
  | blank => exact ⟨'_', rfl, rfl, by decide, by decide⟩
  | plain | lang | typed => exact ⟨'"', rfl, rfl, by decide, by decide⟩

theorem isSpace_head_text (t : Term) (after : QString) :
    ∀ c, (t.text ++ after).head? = some c → isSpace c = false := by
  obtain ⟨c, hc, hSpace, -⟩ := head_text t after
  intro d hd
  rw [hc, Option.some.injEq] at hd
  exact hd ▸ hSpace

/-- White space behind a term is skipped. -/
theorem skipSpace_behind {s w rest : QString} {offset : Nat} {t : Term}
    (h : s.drop offset = t.text ++ (w ++ rest)) (hw : ∀ c ∈ w, isSpace c = true)
    (hRest : ∀ c, rest.head? = some c → isSpace c = false) :
    s.drop (skipSpace s (offset + t.text.length)) = rest :=
  drop_skipSpace (drop_of_drop h) hw hRest

omit [Qt] in
theorem Blanks.space (w : Blanks) : ∀ c ∈ w.1, isSpace c = true := fun c hc => (w.2 c hc).1

/-- A node that is found is not empty. -/
theorem isEmpty_of_found {t : Term} {w rest : QString} {n : Node} (h : t.found w rest = some n) :
    n.isEmpty = false := by
  cases t with
  | resource iri => exact Option.some.inj h ▸ rfl
  | typed body val hSpelled type valid =>
    obtain rfl := Option.some.inj h
    rw [Term.node, Node.ofLiteral, dif_pos valid]
    rfl
  | plain body val hSpelled =>
    rw [Term.found] at h
    split at h
    · exact Option.some.inj h ▸ rfl
    · cases h
  | lang body val hSpelled tag =>
    rw [Term.found] at h
    split at h
    · cases h
    · exact Option.some.inj h ▸ rfl
  | blank name =>
    obtain ⟨c, -, rfl⟩ := Option.map_eq_some_iff.mp h
    simp [Node.ofIdentifier, Node.isEmpty, Node.type]

theorem found_subject {t : Term} (h : t.isSubject = true) {w : QString} (hw : w ≠ []) (rest : QString) :
    ∃ n, t.found w rest = some n ∧ t.found w [] = some n ∧ (n.isResource || n.isBlank) = true := by
  cases t with
  | resource iri => exact ⟨_, rfl, rfl, rfl⟩
  | blank name =>
    obtain ⟨c, w, rfl⟩ := List.exists_cons_of_ne_nil hw
    refine ⟨_, rfl, rfl, ?_⟩
    simp [Node.ofIdentifier, Node.isBlank, Node.type]
  | _ => cases h

theorem found_resource (iri : Iri) (w rest : QString) :
    (Term.resource iri).found w rest = some iri.node := rfl

/-- What is read of a line. -/
def StatementLine.found (l : StatementLine) : Option Statement := do
  let subject ← l.subject.found l.behindSubject.1 []
  let object ← l.object.found l.behindObject.1 (contextText l.context)
  pure ⟨subject, l.predicate.node, object, contextNode l.context⟩

theorem isSpace_head_contextText (context : Option (Iri × Blanks)) :
    ∀ c, (contextText context).head? = some c → isSpace c = false := by
  cases context with
  | none =>
    intro c hc
    cases hc
    rfl
  | some context => exact isSpace_head_text (.resource context.1) _

theorem parseContext_contextText {s : QString} {offset : Nat} {context : Option (Iri × Blanks)}
    (h : s.drop offset = contextText context) (row : Nat) :
    offset < s.length ∧ ∃ behind, parseContext s row offset = .ok (contextNode context, behind) ∧
      parseDot s row (skipSpace s behind) = .ok () := by
  cases context with
  | none =>
    obtain ⟨hSkip, hInside, hDot⟩ := parseDot_of_drop h row
    refine ⟨hInside, offset, ?_, by rw [hSkip]; exact hDot⟩
    rw [parseContext, if_pos (getElem?_of_drop h)]
    rfl
  | some context =>
    obtain ⟨iri, w⟩ := context
    have hHere : s[offset]? = some '<' := getElem?_of_drop h
    have hNode := parseNode_term (.resource iri) w.space (fun _ => rfl) h
    have hDrop := skipSpace_behind h w.space (by simp [isSpace])
    refine ⟨(List.getElem?_eq_some_iff.mp hHere).1, _, ?_, (parseDot_of_drop hDrop row).2.2⟩
    rw [parseContext, if_neg (by rw [hHere]; decide), hNode]
    rfl

theorem parseLine_core (l : StatementLine) (row : Nat) :
    match l.found with
    | some s => parseLine l.core row = .ok s
    | none => ∃ e, parseLine l.core row = .error e := by
  obtain ⟨hBehindS, hBehindP, hContext⟩ := l.separated
  have hStart : l.core.drop 0 = l.subject.text ++ (l.behindSubject.1 ++
      ((Term.resource l.predicate).text ++ (l.behindPredicate.1 ++
        (l.object.text ++ (l.behindObject.1 ++ contextText l.context))))) := rfl
  obtain ⟨subject, hFoundS, hSubject, hIsSubject⟩ := found_subject l.isSubject hBehindS
    ((Term.resource l.predicate).text ++ (l.behindPredicate.1 ++
      (l.object.text ++ (l.behindObject.1 ++ contextText l.context))))
  have hParseS := parseNode_term l.subject l.behindSubject.space (fun h => absurd h hBehindS) hStart
  rw [hFoundS] at hParseS
  have hDropP := skipSpace_behind hStart l.behindSubject.space (isSpace_head_text _ _)
  have hParseP := parseNode_term _ l.behindPredicate.space (fun h => absurd h hBehindP) hDropP
  have hDropO := skipSpace_behind hDropP l.behindPredicate.space (isSpace_head_text _ _)
  have hEndO : l.behindObject.1 = [] → contextText l.context = ['.'] := by
    intro hNone
    cases hAt : l.context with
    | none => rfl
    | some context => exact absurd hNone (hContext (by simp [hAt]))
  have hParseO := parseNode_term l.object l.behindObject.space hEndO hDropO
  have hDropC := skipSpace_behind hDropO l.behindObject.space (isSpace_head_contextText l.context)
  obtain ⟨hInside, behind, hParseC, hDot⟩ := parseContext_contextText hDropC row
  rw [parseLine, StatementLine.found, hParseS, hSubject]
  simp only [bind, Except.bind, Option.bind, hIsSubject, Bool.not_true, Bool.false_eq_true, if_false]
  rw [hParseP]
  simp only [found_resource, show l.predicate.node.isResource = true from rfl, Bool.not_true,
    Bool.false_eq_true, if_false]
  rw [hParseO]
  cases hFound : l.object.found l.behindObject.1 (contextText l.context) with
  | none => exact ⟨_, rfl⟩
  | some object =>
    simp only [isEmpty_of_found hFound, Bool.false_eq_true, if_false, if_neg (Nat.not_le.mpr hInside),
      hParseC, hDot]
    rfl

/-! ### Lines -/

omit [Qt] in
theorem trimmed_pad {w core w' : QString} (hw : ∀ c ∈ w, isSpace c = true)
    (hw' : ∀ c ∈ w', isSpace c = true) (hHead : ∀ c, core.head? = some c → isSpace c = false)
    (hLast : ∀ c, core.getLast? = some c → isSpace c = false) (hCore : core ≠ []) :
    trimmed (w ++ (core ++ w')) = core := by
  obtain ⟨c, rest, rfl⟩ := List.exists_cons_of_ne_nil hCore
  have hFront : (w ++ (c :: rest ++ w')).dropWhile isSpace = c :: rest ++ w' := by
    rw [List.dropWhile_append_of_pos hw, List.cons_append, List.dropWhile_cons_of_neg]
    simp [hHead c rfl]
  have hBack : (w'.reverse ++ (c :: rest).reverse).dropWhile isSpace = (c :: rest).reverse := by
    rw [List.dropWhile_append_of_pos (by simpa using hw')]
    have hLast' : ∀ d, (c :: rest).reverse.head? = some d → isSpace d = false := by
      intro d hd
      rw [List.head?_reverse] at hd
      exact hLast d hd
    cases hAt : (c :: rest).reverse with
    | nil => rfl
    | cons d before => rw [List.dropWhile_cons_of_neg (by simp [hLast' d (by rw [hAt]; rfl)])]
  rw [trimmed, hFront, List.reverse_append, hBack, List.reverse_reverse]

theorem core_trimmed (l : StatementLine) : trimmed (Line.statement l).text = l.core := by
  obtain ⟨c, hc, hSpace, -⟩ := head_text l.subject (l.behindSubject.1 ++
    ((Term.resource l.predicate).text ++ (l.behindPredicate.1 ++
      (l.object.text ++ (l.behindObject.1 ++ contextText l.context)))))
  have hHead : l.core.head? = some c := hc
  refine trimmed_pad l.indent.space l.trailing.space (fun d hd => ?_) (fun d hd => ?_) fun hNil => ?_
  · exact Option.some.inj (hHead.symm.trans hd) ▸ hSpace
  · have hDot : l.core.getLast? = some '.' := by
      cases hContext : l.context <;> simp [StatementLine.core, contextText, hContext]
    exact Option.some.inj (hDot.symm.trans hd) ▸ rfl
  · rw [hNil] at hHead
    cases hHead

omit [Qt] in
theorem head_ne_hash {w : Blanks} {rest : QString} (h : w.1 = [] → rest.head? ≠ some '#') :
    (w.1 ++ rest).head? ≠ some '#' := by
  obtain ⟨w, hw⟩ := w
  cases w with
  | nil => exact h rfl
  | cons c w =>
    intro hHash
    obtain rfl := Option.some.inj hHash
    have := (hw '#' List.mem_cons_self).1
    revert this
    decide

/-- A text that starts no term is no line. -/
theorem parseLine_error {s : QString} (h : parseNode s 0 = .ok (.empty, 0)) (row : Nat) :
    ∃ e, parseLine s row = .error e := by
  rw [parseLine, h]
  exact ⟨_, rfl⟩

/-- What is read of a line, if it is no error. -/
def Line.found : Line → Option (List Statement)
  | statement l => l.found.map fun s => [s]
  | comment indent _ _ => if indent.1 = [] then some [] else none
  | blank _ => none

theorem parseLines_cons (l : Line) (row : Nat) (rest : List QString) :
    match l.found with
    | some ss => parseLines row (l.text :: rest) = (parseLines (row + 1) rest).map (ss ++ ·)
    | none => ∃ e, parseLines row (l.text :: rest) = .error e := by
  cases l with
  | statement l =>
    have hHash : (Line.statement l).text.head? ≠ some '#' := by
      refine head_ne_hash fun _ => ?_
      obtain ⟨c, hc, -, -, hNe⟩ := head_text l.subject ((l.behindSubject.1 ++
        ((Term.resource l.predicate).text ++ (l.behindPredicate.1 ++
          (l.object.text ++ (l.behindObject.1 ++ contextText l.context))))) ++ l.trailing.1)
      rw [StatementLine.core, List.append_assoc, hc]
      exact fun hEq => hNe (Option.some.inj hEq)
    have hParse := parseLine_core l row
    rw [Line.found, parseLines, if_neg hHash, core_trimmed]
    cases hFound : l.found with
    | none =>
      rw [hFound] at hParse
      obtain ⟨e, hError⟩ := hParse
      rw [hError]
      exact ⟨_, rfl⟩
    | some s =>
      rw [hFound] at hParse
      dsimp only at hParse
      rw [hParse]
      dsimp only [Option.map_some]
      cases parseLines (row + 1) rest <;> rfl
  | comment indent text hLine =>
    rw [Line.found]
    by_cases hIndent : indent.1 = []
    · rw [if_pos hIndent]
      have hHash : (Line.comment indent text hLine).text.head? = some '#' := by
        rw [Line.text, hIndent]
        rfl
      dsimp only
      rw [parseLines, if_pos hHash]
      cases parseLines (row + 1) rest <;> rfl
    · rw [if_neg hIndent]
      have hHash : (Line.comment indent text hLine).text.head? ≠ some '#' :=
        head_ne_hash fun hNone => absurd hNone hIndent
      have hTrimmed : ∃ after, trimmed (Line.comment indent text hLine).text = '#' :: after := by
        rw [Line.text, trimmed, List.dropWhile_append_of_pos indent.space,
          List.dropWhile_cons_of_neg (by decide), List.reverse_cons]
        refine ⟨(text.reverse.dropWhile isSpace).reverse, ?_⟩
        rw [List.dropWhile_append]
        split
        · rename_i hEmpty
          rw [List.isEmpty_iff.mp hEmpty]
          rfl
        · rw [List.reverse_append]
          rfl
      obtain ⟨after, hTrimmed⟩ := hTrimmed
      obtain ⟨e, hError⟩ := @parseLine_error _ ('#' :: after) rfl row
      rw [parseLines, if_neg hHash, hTrimmed, hError]
      exact ⟨_, rfl⟩
  | blank w =>
    have hHash : (Line.blank w).text.head? ≠ some '#' := by
      have := @head_ne_hash w [] fun _ => (by rintro ⟨⟩)
      rwa [List.append_nil] at this
    have hTrimmed : trimmed (Line.blank w).text = [] := by
      have hDrop : w.1.dropWhile isSpace = [] := by
        rw [List.dropWhile_eq_nil_iff]
        exact w.space
      rw [Line.text, trimmed, hDrop]
      rfl
    obtain ⟨e, hError⟩ := @parseLine_error _ [] rfl row
    rw [Line.found, parseLines, if_neg hHash, hTrimmed, hError]
    exact ⟨_, rfl⟩

omit [Qt] in
theorem Blanks.notMem (w : Blanks) : '\n' ∉ w.1 := fun h => (w.2 _ h).2 rfl

theorem notMem_term (t : Term) : '\n' ∉ t.text := by
  cases t with
  | resource iri => simp [Term.text, iri.line]
  | blank name => simp [Term.text, notMem_of_noSpace name.2.2]
  | plain body val h => simp [Term.text, notMem_of_spelled h]
  | lang body val h tag => simp [Term.text, notMem_of_spelled h, notMem_of_noSpace tag.2.2]
  | typed body val h type valid => simp [Term.text, notMem_of_spelled h, type.line]

theorem notMem_text (l : Line) : '\n' ∉ l.text := by
  cases l with
  | statement l =>
    have hContext : '\n' ∉ contextText l.context := by
      cases l.context with
      | none => simp [contextText]
      | some context => simp [contextText, notMem_term, Blanks.notMem]
    simp [Line.text, StatementLine.core, notMem_term, Blanks.notMem, hContext]
  | comment indent text h => simp [Line.text, indent.notMem, h]
  | blank w => exact w.notMem

theorem lines_documentText (document : List Line) :
    lines (documentText document) = document.map Line.text := by
  induction document with
  | nil => rfl
  | cons l document ih =>
    rw [documentText, List.flatMap_cons, List.append_assoc, List.singleton_append,
      lines_append (notMem_text l), List.map_cons, ← ih]
    rfl

theorem length_of_found {l : Line} {ss : List Statement} (h : l.found = some ss) :
    ss.length = l.statements.length := by
  cases l with
  | statement l =>
    obtain ⟨s, -, rfl⟩ := Option.map_eq_some_iff.mp h
    rfl
  | comment indent text hLine =>
    rw [Line.found] at h
    split at h
    · exact Option.some.inj h ▸ rfl
    · cases h
  | blank w => cases h

/-- A document is read as it stands if each of its lines is. -/
theorem parseLines_iff (document : List Line) (row : Nat) :
    parseLines row (document.map Line.text) = .ok (document.flatMap Line.statements) ↔
      ∀ l ∈ document, l.found = some l.statements := by
  induction document generalizing row with
  | nil => exact ⟨fun _ => nofun, fun _ => rfl⟩
  | cons l document ih =>
    have hCons := parseLines_cons l row (document.map Line.text)
    rw [List.map_cons, List.flatMap_cons, List.forall_mem_cons, ← ih (row + 1)]
    cases hFound : l.found with
    | none =>
      rw [hFound] at hCons
      obtain ⟨e, hError⟩ := hCons
      rw [hError]
      exact ⟨nofun, nofun⟩
    | some ss =>
      rw [hFound] at hCons
      dsimp only at hCons
      rw [hCons, Option.some.injEq]
      constructor
      · intro hOk
        cases hRest : parseLines (row + 1) (document.map Line.text) with
        | error e =>
          rw [hRest] at hOk
          cases hOk
        | ok ts =>
          rw [hRest] at hOk
          obtain ⟨rfl, rfl⟩ := List.append_inj (Except.ok.inj hOk) (length_of_found hFound)
          exact ⟨rfl, rfl⟩
      · rintro ⟨rfl, hRest⟩
        rw [hRest]
        rfl

/-- The name of a blank node is never read as it is. -/
theorem found_blank_ne (name : Word) (w rest : QString) :
    (Term.blank name).found w rest ≠ some (Term.blank name).node := by
  intro hFound
  obtain ⟨c, -, hEq⟩ := Option.map_eq_some_iff.mp hFound
  rw [Term.node, Node.ofIdentifier, Node.ofIdentifier, dif_pos (by simp),
    dif_pos (by simpa using name.2.1)] at hEq
  have hLength := congrArg List.length (Node.blank.inj hEq)
  simp at hLength

theorem found_eq_node_iff (l : StatementLine) :
    l.object.found l.behindObject.1 (contextText l.context) = some l.object.node ↔
      l.object.Read l.behindObject l.context := by
  have hContext := l.separated.2.2
  cases hObject : l.object with
  | resource iri | typed body val h type valid => exact ⟨fun _ => trivial, fun _ => rfl⟩
  | blank name => exact ⟨fun hFound => absurd hFound (found_blank_ne name _ _), nofun⟩
  | lang body val h tag =>
    rw [Term.found, Term.Read]
    split
    · rename_i hNone
      exact ⟨nofun, fun hSome => absurd hNone hSome⟩
    · rename_i hSome
      exact ⟨fun _ => hSome, fun _ => rfl⟩
  | plain body val h =>
    rw [Term.found, Term.Read]
    have hIff : (l.behindObject.1 ≠ [] ∧ 2 ≤ (l.behindObject.1.tail ++ contextText l.context).length) ↔
        (l.context.isSome = true ∨ 2 ≤ l.behindObject.1.length) := by
      cases hAt : l.context with
      | none =>
        cases l.behindObject.1 with
        | nil => simp
        | cons c w => simp [contextText]
      | some context =>
        have hSome := hContext (by rw [hAt]; rfl)
        simp [hSome, contextText, Term.text]
        omega
    rw [← hIff]
    split
    · rename_i hBoth
      exact ⟨fun _ => hBoth, fun _ => rfl⟩
    · rename_i hNot
      exact ⟨nofun, fun hBoth => absurd hBoth hNot⟩

theorem found_subject_iff {t : Term} (h : t.isSubject = true) (w rest : QString) :
    t.found w rest = some t.node ↔ ∃ iri, t = .resource iri := by
  cases t with
  | resource iri => exact ⟨fun _ => ⟨iri, rfl⟩, fun _ => rfl⟩
  | blank name => exact ⟨fun hFound => absurd hFound (found_blank_ne name w rest), nofun⟩
  | _ => cases h

theorem Line.found_iff (l : Line) : l.found = some l.statements ↔ l.Read := by
  cases l with
  | statement l =>
    rw [Line.found, Line.statements, Line.Read, ← found_eq_node_iff, ← found_subject_iff l.isSubject,
      Option.map_eq_some_iff]
    simp only [List.cons.injEq, and_true, exists_eq_right]
    rw [StatementLine.found, StatementLine.statement]
    constructor
    · intro hFound
      obtain ⟨subject, hSubject, hRest⟩ := Option.bind_eq_some_iff.mp hFound
      obtain ⟨object, hObject, hRest⟩ := Option.bind_eq_some_iff.mp hRest
      obtain ⟨rfl, -, rfl, -⟩ := Statement.mk.inj (Option.some.inj hRest)
      exact ⟨hSubject, hObject⟩
    · rintro ⟨hSubject, hObject⟩
      rw [hSubject, hObject]
      rfl
  | comment indent text h =>
    rw [Line.found, Line.Read]
    split
    · rename_i hNone
      exact ⟨fun _ => hNone, fun _ => rfl⟩
    · rename_i hSome
      exact ⟨nofun, fun hNone => absurd hNone hSome⟩
  | blank w => exact ⟨nofun, nofun⟩

/-- The same line with another context. -/
def StatementLine.withContext (l : StatementLine) (h : l.behindObject.1 ≠ [])
    (context : Option (Iri × Blanks)) : StatementLine :=
  { l with context := context, separated := ⟨l.separated.1, l.separated.2.1, fun _ => h⟩ }

def withoutContext (s : Statement) : Statement := { s with context := .empty }

/-- A context changes nothing but whether a plain literal before it is found. -/
theorem found_withContext (l : StatementLine) (h : l.behindObject.1 ≠ []) (context : Iri × Blanks) :
    ∃ s, (l.withContext h (some context)).found = some s ∧ (l.withContext h none).found =
      if l.object.isPlain = true → 2 ≤ l.behindObject.1.length then some (withoutContext s) else none := by
  obtain ⟨subject, -, hSubject, -⟩ := found_subject l.isSubject l.separated.1 []
  obtain ⟨c, w, hBehind⟩ := List.exists_cons_of_ne_nil h
  have hObject : ∃ n, l.object.found l.behindObject.1 (contextText (some context)) = some n ∧
      l.object.found l.behindObject.1 (contextText none) =
        if l.object.isPlain = true → 2 ≤ l.behindObject.1.length then some n else none := by
    rw [hBehind]
    cases l.object with
    | plain body val hSpelled =>
      refine ⟨(Term.plain body val hSpelled).node, ?_, ?_⟩
      · rw [Term.found, if_pos]
        simp [contextText, Term.text]
        omega
      · simp [Term.found, contextText, Term.isPlain]
    | lang body val hSpelled tag =>
      exact ⟨(Term.lang body val hSpelled tag).node, rfl, by simp [Term.found, Term.isPlain]⟩
    | blank name => exact ⟨.ofIdentifier (name.1 ++ [c]), rfl, by simp [Term.found, Term.isPlain]⟩
    | resource iri => exact ⟨iri.node, rfl, by simp [Term.found, Term.isPlain, Term.node]⟩
    | typed body val hSpelled type valid =>
      exact ⟨(Term.typed body val hSpelled type valid).node, rfl, by simp [Term.found, Term.isPlain]⟩
  obtain ⟨object, hWith, hWithout⟩ := hObject
  refine ⟨⟨subject, l.predicate.node, object, context.1.node⟩, ?_, ?_⟩
  · simp only [StatementLine.found, StatementLine.withContext, hSubject, hWith]
    rfl
  · simp only [StatementLine.found, StatementLine.withContext, hSubject, hWithout]
    split <;> rfl

/-- A document is parsed to its statements exactly if each of its lines is read as it stands; and the
parser makes of a line what it makes of the same line with a context, but for the context, exactly if
its object is no plain literal or two characters of white space are behind it. -/
theorem nquads_read_iff (document : List Line) (l : StatementLine) (h : l.behindObject.1 ≠ [])
    (context : Iri × Blanks) (row : Nat) :
    (parseStream (documentText document) = .ok (document.flatMap Line.statements) ↔
      ∀ line ∈ document, line.Read) ∧
    (parseLine (l.withContext h none).core row =
        (parseLine (l.withContext h (some context)).core row).map withoutContext ↔
      (l.object.isPlain = true → 2 ≤ l.behindObject.1.length)) := by
  constructor
  · rw [parseStream, lines_documentText, parseLines_iff]
    exact forall₂_congr fun line _ => line.found_iff
  · obtain ⟨s, hWith, hWithout⟩ := found_withContext l h context
    have hParseWith := parseLine_core (l.withContext h (some context)) row
    have hParseWithout := parseLine_core (l.withContext h none) row
    rw [hWith] at hParseWith
    rw [hWithout] at hParseWithout
    dsimp only at hParseWith
    rw [hParseWith]
    by_cases hRead : l.object.isPlain = true → 2 ≤ l.behindObject.1.length
    · rw [if_pos hRead] at hParseWithout
      exact ⟨fun _ => hRead, fun _ => hParseWithout⟩
    · rw [if_neg hRead] at hParseWithout
      obtain ⟨e, hError⟩ := hParseWithout
      rw [hError]
      exact ⟨(by intros; contradiction), fun hAll => absurd hAll hRead⟩

end Qt

section Example

local instance nquadDocumentQt : Qt := asciiQt

/-- A comment and a literal with a language, before the dot. -/
theorem nquads_read_iff_lang :
    let iri : Iri := ⟨"a:s".toList, by decide, by decide +kernel, by decide +kernel⟩
    let space : Blanks := ⟨[' '], by simp [isSpace]⟩
    let none : Blanks := ⟨[], nofun⟩
    let object : Term := .lang ['x'] ['x'] (.plain (by decide) (by decide) (by decide) .nil)
      ⟨"en".toList, by decide⟩
    let l : StatementLine := ⟨none, .resource iri, rfl, space, iri, space, object, space, Option.none, none,
      by decide⟩
    parseStream "#\n<a:s> <a:s> \"x\"@en .\n".toList = .ok [l.statement] := by
  intro iri space none object l
  have hRead := (nquads_read_iff [.comment none [] (by decide), .statement l] l (by decide) (iri, space) 1).1
  refine hRead.mpr fun line hLine => ?_
  rcases List.mem_cons.mp hLine with rfl | hLine
  · rfl
  · obtain rfl := List.mem_singleton.mp hLine
    exact ⟨⟨iri, rfl⟩, List.cons_ne_nil _ _⟩

/-- A blank line, an indented comment and a plain literal before the dot end the document. -/
theorem nquads_rejected :
    let iri : Iri := ⟨"a:s".toList, by decide, by decide +kernel, by decide +kernel⟩
    let space : Blanks := ⟨[' '], by simp [isSpace]⟩
    let none : Blanks := ⟨[], nofun⟩
    let object : Term := .plain ['x'] ['x'] (.plain (by decide) (by decide) (by decide) .nil)
    let l : StatementLine := ⟨none, .resource iri, rfl, space, iri, space, object, space, Option.none, none,
      by decide⟩
    documentText [.statement l] = "<a:s> <a:s> \"x\" .\n".toList ∧
      (parseStream (documentText [.statement l])).isOk = false ∧
      (parseStream (documentText [.blank none])).isOk = false ∧
      (parseStream (documentText [.comment space [] (by decide)])).isOk = false := by
  decide

end Example

end NQuadDocument

end Soprano
