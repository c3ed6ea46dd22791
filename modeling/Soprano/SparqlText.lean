import Soprano.Inference.Sparql

/-! The tokens of a SPARQL query, by the terminals of SPARQL 1.0, and what a query says about prefixes. -/

namespace Soprano

namespace SparqlText

open Inference.Sparql (isForeignLetter isNameStart isNameChar)

/-! ### Tokens -/

/-- A token and its text.  The text of a prefixed name is a label, a colon and a local part. -/
inductive Token where
  | space (text : QString)
  | comment (text : QString)
  | iri (text : QString)
  | quoted (text : QString)
  | word (text : QString)
  | prefixed (label part : QString)
  | other (text : QString)
deriving DecidableEq

def Token.text : Token → QString
  | .space s | .comment s | .iri s | .quoted s | .word s | .other s => s
  | .prefixed label part => label ++ ':' :: part

/-- `WS` -/
def isWhite (c : Char) : Bool := [' ', '\t', '\r', '\n'].contains c

def isNewline (c : Char) : Bool := c == '\n' || c == '\r'

/-- The characters of `IRI_REF` -/
def isIriChar (c : Char) : Bool :=
  0x20 < c.toNat && !(['<', '>', '"', '\x7b', '\x7d', '|', '^', '\x60', '\\'].contains c)

/-- The length of what follows the bracket of `IRI_REF`. -/
def iriLength (s : QString) : Option Nat :=
  let n := (s.takeWhile isIriChar).length
  if s[n]? = some '>' then some (n + 1) else none

/-- `PN_CHARS` and the dot -/
def isLabelChar (c : Char) : Bool := isNameChar c || c == '-' || c == '.'

/-- `PN_PREFIX`, or nothing -/
def isLabel (s : QString) : Bool :=
  s.all isLabelChar && s.head?.all (fun c => c.isAlpha || isForeignLetter c) && s.getLast? != some '.'

/-- The length of the `PN_LOCAL` that a text begins with. -/
def partLength (s : QString) : Nat :=
  if s.head?.any isNameStart then ((s.takeWhile isLabelChar).reverse.dropWhile (· == '.')).length else 0

/-- The length of what follows the quote of `STRING_LITERAL1` and `STRING_LITERAL2`. -/
def shortLength (quote : Char) : QString → Option Nat
  | [] => none
  | '\\' :: _ :: s => (shortLength quote s).map (· + 2)
  | c :: s =>
      if c = quote then some 1
      else if isNewline c then none
      else (shortLength quote s).map (· + 1)

/-- The length of what follows the quotes of `STRING_LITERAL_LONG1` and `STRING_LITERAL_LONG2`. -/
def longLength (quote : Char) : QString → Option Nat
  | '\\' :: _ :: s => (longLength quote s).map (· + 2)
  | c :: d :: e :: s =>
      if c = quote ∧ d = quote ∧ e = quote then some 3 else (longLength quote (d :: e :: s)).map (· + 1)
  | _ => none

def quotedLength (quote : Char) (s : QString) : Option Nat :=
  match s with
  | c :: d :: rest =>
      if c = quote ∧ d = quote then ((longLength quote rest).map (· + 2)).or (some 1)
      else shortLength quote s
  | _ => shortLength quote s

def digits (s : QString) : Nat := (s.takeWhile Char.isDigit).length

/-- The length of the `EXPONENT` that a text begins with. -/
def exponentLength (s : QString) : Nat :=
  match s with
  | e :: sign :: rest =>
      if e = 'e' ∨ e = 'E' then
        if sign = '+' ∨ sign = '-' then if digits rest = 0 then 0 else 2 + digits rest
        else if digits (sign :: rest) = 0 then 0
        else 1 + digits (sign :: rest)
      else 0
  | _ => 0

/-- The length of what follows the first digit of a number. -/
def numberLength (s : QString) : Nat :=
  let whole := digits s
  let fraction := if s[whole]? = some '.' then 1 + digits (s.drop (whole + 1)) else 0
  whole + fraction + exponentLength (s.drop (whole + fraction))

/-- The kind of a token other than a prefixed name, and how long its text is behind the first
character. -/
def terminal (c : Char) (s : QString) : (QString → Token) × Nat :=
  if isWhite c then (.space, (s.takeWhile isWhite).length)
  else if c = '#' then (.comment, (s.takeWhile (!isNewline ·)).length)
  else if c = '<' then
    match iriLength s with
    | some n => (.iri, n)
    | none => (.other, 0)
  else if c = '"' ∨ c = '\'' then
    match quotedLength c s with
    | some n => (.quoted, n)
    | none => (.other, 0)
  else if c.isAlpha then (.word, (s.takeWhile fun d => d.isAlphanum || d == '_').length)
  else if c = '?' ∨ c = '$' then (.other, (s.takeWhile isNameChar).length)
  else if c = '@' then (.other, (s.takeWhile fun d => d.isAlphanum || d == '-').length)
  else if c = '_' ∧ s.head? = some ':' then (.other, 1 + partLength (s.drop 1))
  else if c.isDigit then (.other, numberLength s)
  else (.other, 0)

/-- The first token of a text, and what follows it. -/
def next (c : Char) (s : QString) : Token × QString :=
  let label := (c :: s).takeWhile isLabelChar
  match (c :: s).dropWhile isLabelChar with
  | ':' :: rest =>
      if isLabel label then
        (.prefixed label (rest.take (partLength rest)), rest.drop (partLength rest))
      else
        let (kind, n) := terminal c s
        (kind (c :: s.take n), s.drop n)
  | _ =>
      let (kind, n) := terminal c s
      (kind (c :: s.take n), s.drop n)

/-- The first tokens of a text. -/
def tokensFrom : Nat → QString → List Token
  | n + 1, c :: s => (next c s).1 :: tokensFrom n (next c s).2
  | _, _ => []

def tokens (s : QString) : List Token := tokensFrom s.length s

/-- The text of tokens that follow each other. -/
def textOf (ts : List Token) : QString := ts.flatMap Token.text

/-! ### Queries -/

/-- The words that begin a query form, in lower case. -/
def forms : List QString := ["select".toList, "describe".toList, "construct".toList, "ask".toList]

def lower (s : QString) : QString := s.map Char.toLower

/-- A query form keyword -/
def Token.isForm : Token → Bool
  | .word w => forms.contains (lower w)
  | _ => false

/-- What stands in front of the query form: the prologue, and what a backend reads itself. -/
def front (ts : List Token) : List Token := ts.takeWhile (!·.isForm)

/-- The query form and what follows it. -/
def body (ts : List Token) : List Token := ts.dropWhile (!·.isForm)

/-- A text with a query form. -/
def IsQuery (s : QString) : Prop := ∃ t ∈ tokens s, t.isForm = true

instance (s : QString) : Decidable (IsQuery s) := inferInstanceAs (Decidable (∃ t ∈ tokens s, _))

/-- A prefixed name with a label stands among the tokens. -/
def uses (ts : List Token) (label : QString) : Bool :=
  ts.any fun t =>
    match t with
    | .prefixed l _ => l == label
    | _ => false

def Token.isSeparator : Token → Bool
  | .space _ | .comment _ => true
  | _ => false

/-- The label of the declaration that tokens begin with. -/
def declaration : List Token → Option QString
  | .word w :: .prefixed label [] :: .iri _ :: _ => if lower w = "prefix".toList then some label else none
  | _ => none

/-- A declaration of a label stands among the tokens. -/
def declares (ts : List Token) (label : QString) : Bool :=
  (ts.filter (!·.isSeparator)).tails.any fun ts => declaration ts == some label

/-- The query uses a label, and does not declare it. -/
def needs (s : QString) (label : QString) : Bool :=
  uses (body (tokens s)) label && !declares (front (tokens s)) label

/-! ### The text of the tokens -/

theorem textOf_append (ts us : List Token) : textOf (ts ++ us) = textOf ts ++ textOf us :=
  List.flatMap_append

@[simp] theorem textOf_cons (t : Token) (ts : List Token) : textOf (t :: ts) = t.text ++ textOf ts := rfl

theorem terminal_text (c : Char) (s t : QString) : ((terminal c s).1 t).text = t := by
  unfold terminal
  repeat' split
  all_goals rfl

/-- The first token is a prefixed name, whose text begins with its label, or one that is not. -/
theorem next_cases (c : Char) (s : QString) :
    (∃ label rest, isLabel label = true ∧ label ++ ':' :: rest = c :: s ∧
      next c s = (.prefixed label (rest.take (partLength rest)), rest.drop (partLength rest))) ∨
    next c s = ((terminal c s).1 (c :: s.take (terminal c s).2), s.drop (terminal c s).2) := by
  have hSplit : (c :: s).takeWhile isLabelChar ++ (c :: s).dropWhile isLabelChar = c :: s :=
    List.takeWhile_append_dropWhile
  unfold next
  dsimp only
  split
  next rest hRest =>
    split
    next hLabel => exact .inl ⟨_, rest, hLabel, hRest ▸ hSplit, rfl⟩
    next => exact .inr rfl
  next => exact .inr rfl

/-- A token and what follows it are the text. -/
theorem next_text (c : Char) (s : QString) : (next c s).1.text ++ (next c s).2 = c :: s := by
  rcases next_cases c s with ⟨label, rest, -, hText, hNext⟩ | hNext
  · rw [hNext, Token.text, List.append_assoc, List.cons_append, List.take_append_drop, hText]
  · rw [hNext, terminal_text, List.cons_append, List.take_append_drop]

theorem next_length (c : Char) (s : QString) : (next c s).2.length ≤ s.length := by
  rcases next_cases c s with ⟨label, rest, -, hText, hNext⟩ | hNext
  · have hLength := congrArg List.length hText
    simp only [List.length_append, List.length_cons] at hLength
    rw [hNext, List.length_drop]
    omega
  · rw [hNext, List.length_drop]
    omega

theorem textOf_tokensFrom {n : Nat} {s : QString} (h : s.length ≤ n) : textOf (tokensFrom n s) = s := by
  induction n generalizing s with
  | zero =>
    obtain rfl := List.length_eq_zero_iff.mp (Nat.le_zero.mp h)
    rfl
  | succ n ih =>
    cases s with
    | nil => rfl
    | cons c s =>
      have hLength : (next c s).2.length ≤ n := (next_length c s).trans (Nat.le_of_succ_le_succ h)
      have hRest : textOf (tokensFrom n (next c s).2) = (next c s).2 := ih hLength
      rw [tokensFrom, textOf_cons, hRest, next_text]

/-- Nothing of a text is lost. -/
theorem textOf_tokens (s : QString) : textOf (tokens s) = s := textOf_tokensFrom le_rfl

theorem textOf_front_body (ts : List Token) : textOf (front ts) ++ textOf (body ts) = textOf ts := by
  rw [← textOf_append, front, body, List.takeWhile_append_dropWhile]

/-- The prologue and the query form are the text. -/
theorem front_append_body (s : QString) : textOf (front (tokens s)) ++ textOf (body (tokens s)) = s := by
  rw [textOf_front_body, textOf_tokens]

/-! ### Labels -/

theorem terminal_ne_prefixed (c : Char) (s t label part : QString) :
    (terminal c s).1 t ≠ .prefixed label part := by
  unfold terminal
  repeat' split
  all_goals exact nofun

theorem isLabel_of_mem_tokensFrom {n : Nat} {s label part : QString}
    (h : .prefixed label part ∈ tokensFrom n s) : isLabel label = true := by
  induction n generalizing s with
  | zero => cases h
  | succ n ih =>
    cases s with
    | nil => cases h
    | cons c s =>
      rcases List.mem_cons.mp h with hFirst | hRest
      · rcases next_cases c s with ⟨label', rest, hLabel, -, hNext⟩ | hNext
        · rw [hNext] at hFirst
          cases hFirst
          exact hLabel
        · rw [hNext] at hFirst
          exact absurd hFirst.symm (terminal_ne_prefixed _ _ _ _ _)
      · exact ih hRest

theorem notMem_of_isLabel {s : QString} (h : isLabel s = true) {c : Char} (hc : isLabelChar c = false) :
    c ∉ s := by
  simp only [isLabel, Bool.and_eq_true, List.all_eq_true] at h
  intro hMem
  rw [h.1.1 c hMem] at hc
  cases hc

theorem exists_of_uses {ts : List Token} {label : QString} (h : uses ts label = true) :
    ∃ part, .prefixed label part ∈ ts := by
  obtain ⟨t, ht, hLabel⟩ := List.any_eq_true.mp h
  cases t with
  | prefixed l part =>
    obtain rfl := beq_iff_eq.mp hLabel
    exact ⟨part, ht⟩
  | _ => cases hLabel

/-- A label that is used is one. -/
theorem isLabel_of_needs {s label : QString} (h : needs s label = true) : isLabel label = true := by
  obtain ⟨part, hPart⟩ := exists_of_uses (Bool.and_eq_true_iff.mp h).1
  exact isLabel_of_mem_tokensFrom ((List.dropWhile_sublist _).subset hPart)

/-- A label that is used stands in the text, with a colon behind it. -/
theorem isInfix_of_uses {ts : List Token} {label : QString} (h : uses ts label = true) :
    label ++ [':'] <:+: textOf ts := by
  obtain ⟨part, hPart⟩ := exists_of_uses h
  obtain ⟨us, vs, rfl⟩ := List.append_of_mem hPart
  refine ⟨textOf us, part ++ textOf vs, ?_⟩
  rw [textOf_append, textOf_cons, Token.text]
  simp

/-- The query form stands where the tokens say. -/
theorem exists_form {s : QString} (h : IsQuery s) :
    ∃ w ts, body (tokens s) = .word w :: ts ∧ lower w ∈ forms := by
  obtain ⟨t, ht, hForm⟩ := h
  have hNe : body (tokens s) ≠ [] := fun hNil => by
    have hNot := List.dropWhile_eq_nil_iff.mp hNil t ht
    rw [hForm] at hNot
    cases hNot
  obtain ⟨first, ts, hBody⟩ := List.exists_cons_of_ne_nil hNe
  have hFirst : first.isForm = true := by
    have hHead := List.head?_dropWhile_not (fun t : Token => !t.isForm) (tokens s)
    rw [← body, hBody] at hHead
    simpa using hHead
  cases first with
  | word w => exact ⟨w, ts, hBody, List.contains_iff_mem.mp hFirst⟩
  | _ => cases hFirst

end SparqlText

end Soprano
