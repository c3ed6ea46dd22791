import Mathlib.Data.List.Basic

/-! Backslash escapes.  A writer replaces each character of its table by a backslash and a letter.
A reader replaces a backslash and a letter of its own table, and keeps a backslash before any other
letter.  The two tables need not be inverse: `unescape_escape` says what is read in general.  The
rest of the file is about the end of an escaped text: where the first quote stands that no
backslash escapes. -/

namespace Escape

/-- The text of one character: a backslash and the letter of the table, or the character. -/
def unit (table : Char → Option Char) (c : Char) : List Char :=
  match table c with
  | some letter => ['\\', letter]
  | none => [c]

/-- The text with each character of the table escaped. -/
def escape (table : Char → Option Char) (text : List Char) : List Char := text.flatMap (unit table)

/-- The text with each escape whose letter is in the table replaced. -/
def unescape (table : Char → Option Char) : List Char → List Char
  | [] => []
  | [c] => [c]
  | c :: letter :: rest =>
    if c = '\\' then
      match table letter with
      | some d => d :: unescape table rest
      | none => '\\' :: unescape table (letter :: rest)
    else c :: unescape table (letter :: rest)

/-- Whether the reader is left with a single backslash at the end of the text. -/
def dangling (table : Char → Option Char) : List Char → Bool
  | [] => false
  | [c] => c == '\\'
  | c :: letter :: rest =>
    if c = '\\' then
      match table letter with
      | some _ => dangling table rest
      | none => dangling table (letter :: rest)
    else dangling table (letter :: rest)

@[simp] theorem escape_nil (table : Char → Option Char) : escape table [] = [] := rfl

@[simp] theorem escape_cons (table : Char → Option Char) (c : Char) (text : List Char) :
    escape table (c :: text) = unit table c ++ escape table text := rfl

theorem unescape_cons {table : Char → Option Char} {c : Char} (h : c ≠ '\\') (rest : List Char) :
    unescape table (c :: rest) = c :: unescape table rest := by
  cases rest <;> simp [unescape, h]

theorem unescape_letter {table : Char → Option Char} {letter d : Char} (h : table letter = some d)
    (rest : List Char) : unescape table ('\\' :: letter :: rest) = d :: unescape table rest := by
  simp [unescape, h]

theorem unescape_unknown {table : Char → Option Char} {letter : Char} (h : table letter = none)
    (rest : List Char) : unescape table ('\\' :: letter :: rest) =
      '\\' :: unescape table (letter :: rest) := by
  simp [unescape, h]

/-- A writer's table that escapes the backslash, read with a table that knows each of its letters
or does not list it at all. -/
structure Compatible (write read : Char → Option Char) : Prop where
  backslash : write '\\' = some '\\'
  known : ∀ c letter d, write c = some letter → read letter = some d → d = c
  letter : ∀ c letter, write c = some letter → read letter = none → letter ≠ '\\'

/-- What the reader makes of one written character: the character, unless the writer escapes it
with a letter that the reader does not know. -/
def received (write read : Char → Option Char) (c : Char) : List Char :=
  match write c with
  | some letter => if read letter = none then ['\\', letter] else [c]
  | none => [c]

theorem unescape_escape {write read : Char → Option Char} (h : Compatible write read)
    (text : List Char) :
    unescape read (escape write text) = text.flatMap (received write read) := by
  induction text with
  | nil => rfl
  | cons c text ih =>
    rw [escape_cons, List.flatMap_cons, ← ih]
    unfold unit received
    cases hc : write c with
    | none =>
      have hne : c ≠ '\\' := by rintro rfl; simp [h.backslash] at hc
      simpa using unescape_cons hne _
    | some letter =>
      cases hl : read letter with
      | none =>
        simpa [hl] using (unescape_unknown hl _).trans
          (congrArg _ (unescape_cons (h.letter c letter hc hl) _))
      | some d =>
        rw [h.known c letter d hc hl] at hl
        simpa [hl] using unescape_letter hl (escape write text)

theorem dangling_cons {table : Char → Option Char} {c : Char} (h : c ≠ '\\') (rest : List Char) :
    dangling table (c :: rest) = dangling table rest := by
  cases rest <;> simp [dangling, h]

/-- A written text leaves no single backslash at its end. -/
theorem dangling_escape {write read : Char → Option Char} (h : Compatible write read)
    (text : List Char) : dangling read (escape write text) = false := by
  induction text with
  | nil => rfl
  | cons c text ih =>
    rw [escape_cons]
    unfold unit
    cases hc : write c with
    | none =>
      have hne : c ≠ '\\' := by rintro rfl; simp [h.backslash] at hc
      simpa [dangling_cons hne] using ih
    | some letter =>
      cases hl : read letter with
      | some d => simpa [dangling, hl] using ih
      | none => simpa [dangling, hl, dangling_cons (h.letter c letter hc hl)] using ih

/-- The characters that come back as they were written. -/
def Survives (write read : Char → Option Char) (c : Char) : Prop :=
  ∀ letter, write c = some letter → read letter ≠ none

instance (write read : Char → Option Char) (c : Char) : Decidable (Survives write read c) :=
  match h : write c with
  | some letter =>
    if hr : read letter = none then .isFalse fun hs => hs letter h hr
    else .isTrue fun l hl => by rw [h] at hl; cases hl; exact hr
  | none => .isTrue fun l hl => by rw [h] at hl; cases hl

theorem received_of_survives {write read : Char → Option Char} {c : Char}
    (h : Survives write read c) : received write read c = [c] := by
  unfold received
  split
  · rename_i letter hc
    rw [if_neg (h letter hc)]
  · rfl

theorem length_received (write read : Char → Option Char) (c : Char) :
    1 ≤ (received write read c).length ∧
      (¬Survives write read c → (received write read c).length = 2) := by
  unfold received Survives
  split
  · split <;> simp_all
  · simp_all

/-- A text comes back unchanged exactly if each of its characters does. -/
theorem flatMap_received_eq_iff (write read : Char → Option Char) (text : List Char) :
    text.flatMap (received write read) = text ↔ ∀ c ∈ text, Survives write read c := by
  have hle : ∀ t : List Char, t.length ≤ (t.flatMap (received write read)).length := by
    intro t
    induction t with
    | nil => simp
    | cons c t ih =>
      have := (length_received write read c).1
      rw [List.flatMap_cons, List.length_append, List.length_cons]
      omega
  constructor
  · intro h c hc
    by_contra hs
    obtain ⟨s, t, rfl⟩ := List.append_of_mem hc
    have h2 := (length_received write read c).2 hs
    have := congrArg List.length h
    simp only [List.flatMap_append, List.flatMap_cons, List.length_append, List.length_cons]
      at this
    have := hle s
    have := hle t
    omega
  · intro h
    induction text with
    | nil => rfl
    | cons c text ih =>
      rw [List.flatMap_cons, received_of_survives (h c (by simp)),
        ih fun d hd => h d (by simp [hd])]
      rfl

/-- Reading back what was written gives the text exactly if each of its characters survives. -/
theorem unescape_escape_eq_iff {write read : Char → Option Char} (h : Compatible write read)
    (text : List Char) :
    unescape read (escape write text) = text ↔ ∀ c ∈ text, Survives write read c := by
  rw [unescape_escape h, flatMap_received_eq_iff]

/-- A reader that knows each letter of the writer reads back any text. -/
theorem Compatible.of_known {write read : Char → Option Char} (hBackslash : write '\\' = some '\\')
    (h : ∀ c letter, write c = some letter → read letter = some c) : Compatible write read where
  backslash := hBackslash
  known c letter d hWrite hRead := by
    rw [h c letter hWrite] at hRead
    exact (Option.some.inj hRead).symm
  letter c letter hWrite hRead := by
    rw [h c letter hWrite] at hRead
    cases hRead

theorem unescape_escape_of_known {write read : Char → Option Char}
    (hBackslash : write '\\' = some '\\')
    (h : ∀ c letter, write c = some letter → read letter = some c) (text : List Char) :
    unescape read (escape write text) = text := by
  rw [unescape_escape_eq_iff (.of_known hBackslash h)]
  intro c _ letter hWrite hNone
  rw [h c letter hWrite] at hNone
  cases hNone

/-- A character that is replaced, and that no letter is, does not occur in what is written. -/
theorem notMem_escape {table : Char → Option Char} {c : Char} (h : table c ≠ none)
    (hLetter : ∀ d, table d ≠ some c) (hne : c ≠ '\\') (text : List Char) :
    c ∉ escape table text := by
  intro hMem
  obtain ⟨d, -, hd⟩ := List.mem_flatMap.mp hMem
  unfold unit at hd
  cases hTable : table d with
  | none =>
    rw [hTable] at hd
    rw [List.mem_singleton.mp hd] at h
    exact h hTable
  | some letter =>
    rw [hTable] at hd
    rcases List.mem_cons.mp hd with hEq | hd
    · exact hne hEq
    · exact hLetter d (List.mem_singleton.mp hd ▸ hTable)

/-! ### Delimiters in an escaped text -/

/-- Whether the number of backslashes that end a text is odd, after the character `c` of it, given
`odd` before: the character that follows is then escaped. -/
def parity (odd : Bool) (c : Char) : Bool := if c = '\\' then !odd else false

/-- Whether an odd number of backslashes ends the text, counted on from `odd`. -/
def oddTail (odd : Bool) (text : List Char) : Bool := text.foldl parity odd

@[simp] theorem oddTail_nil (odd : Bool) : oddTail odd [] = odd := rfl

@[simp] theorem oddTail_cons (odd : Bool) (c : Char) (text : List Char) :
    oddTail odd (c :: text) = oddTail (parity odd c) text := rfl

theorem oddTail_append (odd : Bool) (s t : List Char) :
    oddTail odd (s ++ t) = oddTail (oddTail odd s) t := List.foldl_append

theorem oddTail_concat (odd : Bool) (s : List Char) (c : Char) :
    oddTail odd (s ++ [c]) = parity (oddTail odd s) c := oddTail_append odd s [c]

/-- Every delimiter in the text is escaped. -/
def guarded (delimiter : Char) : Bool → List Char → Bool
  | _, [] => true
  | odd, c :: text => (c != delimiter || odd) && guarded delimiter (parity odd c) text

theorem guarded_append {delimiter : Char} {odd : Bool} {s t : List Char} :
    guarded delimiter odd (s ++ t) =
      (guarded delimiter odd s && guarded delimiter (oddTail odd s) t) := by
  induction s generalizing odd with
  | nil => simp [guarded]
  | cons c s ih => simp [guarded, ih, Bool.and_assoc]

/-- Before each delimiter of a guarded text stands an odd number of backslashes. -/
theorem guarded_split {delimiter : Char} {odd : Bool} {before after : List Char}
    (h : guarded delimiter odd (before ++ delimiter :: after) = true) :
    oddTail odd before = true := by
  simp only [guarded_append, guarded, Bool.and_eq_true, Bool.or_eq_true, bne_self_eq_false] at h
  simpa using h.2.1

section Delimiter

variable {table : Char → Option Char} {delimiter : Char}

theorem oddTail_unit (h : table '\\' = some '\\') (c : Char) :
    oddTail false (unit table c) = false := by
  unfold unit
  cases hc : table c with
  | none =>
    have hne : c ≠ '\\' := by rintro rfl; simp [h] at hc
    simp [parity, hne]
  | some letter => simp [parity]

theorem oddTail_escape (h : table '\\' = some '\\') (text : List Char) :
    oddTail false (escape table text) = false := by
  induction text with
  | nil => rfl
  | cons c text ih => rw [escape_cons, oddTail_append, oddTail_unit h, ih]

/-- A delimiter that the writer escapes is guarded in what it writes. -/
theorem guarded_escape (h : table '\\' = some '\\') (hd : table delimiter ≠ none)
    (hne : delimiter ≠ '\\') (text : List Char) :
    guarded delimiter false (escape table text) = true := by
  induction text with
  | nil => rfl
  | cons c text ih =>
    rw [escape_cons, guarded_append, oddTail_unit h, ih, Bool.and_true]
    unfold unit
    cases hc : table c with
    | none =>
      have hcd : c ≠ delimiter := by rintro rfl; exact hd hc
      simp [guarded, hcd]
    | some letter => simp [guarded, parity, hne.symm]

end Delimiter

/-- A text without the delimiter is guarded. -/
theorem guarded_of_notMem {delimiter : Char} {odd : Bool} {text : List Char}
    (h : delimiter ∉ text) : guarded delimiter odd text = true := by
  induction text generalizing odd with
  | nil => rfl
  | cons c text ih =>
    simp only [List.mem_cons, not_or] at h
    simp [guarded, Ne.symm h.1, ih h.2]

/-- A text without a backslash escapes nothing behind it. -/
theorem oddTail_of_notMem {text : List Char} (h : '\\' ∉ text) : oddTail false text = false := by
  induction text with
  | nil => rfl
  | cons c text ih =>
    simp only [List.mem_cons, not_or] at h
    rw [oddTail_cons, parity, if_neg (Ne.symm h.1)]
    exact ih h.2

theorem unescape_append {table : Char → Option Char} {clean : List Char} (h : '\\' ∉ clean)
    (rest : List Char) : unescape table (clean ++ rest) = clean ++ unescape table rest := by
  induction clean with
  | nil => rfl
  | cons c clean ih =>
    rw [List.mem_cons, not_or] at h
    rw [List.cons_append, unescape_cons (Ne.symm h.1), ih h.2, List.cons_append]

theorem dangling_append {table : Char → Option Char} {clean : List Char} (h : '\\' ∉ clean)
    (rest : List Char) : dangling table (clean ++ rest) = dangling table rest := by
  induction clean with
  | nil => rfl
  | cons c clean ih =>
    rw [List.mem_cons, not_or] at h
    rw [List.cons_append, dangling_cons (Ne.symm h.1), ih h.2]

/-- A reader that knows an escaped backslash is left with a single one exactly if the number of
backslashes that end the text is odd. -/
theorem dangling_eq_oddTail {table : Char → Option Char} (h : table '\\' ≠ none) (text : List Char) :
    dangling table text = oddTail false text := by
  induction text using dangling.induct table with
  | case1 => rfl
  | case2 c =>
    by_cases hc : c = '\\'
    · rw [hc]
      rfl
    · simp [dangling, parity, hc]
  | case3 letter rest d hKnown ih =>
    simp only [dangling, if_true, hKnown, ih, oddTail_cons, parity]
    by_cases hLetter : letter = '\\' <;> simp [hLetter]
  | case4 letter rest hUnknown ih =>
    have hLetter : letter ≠ '\\' := by
      rintro rfl
      exact h hUnknown
    simp only [dangling, if_true, hUnknown, ih, oddTail_cons, parity, if_neg hLetter]
  | case5 c letter rest hc ih =>
    simp only [dangling, if_neg hc, ih, oddTail_cons, parity]

/-! ### Scanning for a delimiter -/

/-- The text before the first delimiter that is not escaped, and the text behind it. -/
def scan (delimiter : Char) : Bool → List Char → Option (List Char × List Char)
  | _, [] => none
  | odd, c :: text =>
    if c = delimiter ∧ odd = false then some ([], text)
    else (scan delimiter (parity odd c) text).map fun (before, after) => (c :: before, after)

/-- Scanning a guarded text that ends in no escape stops at the delimiter behind it. -/
theorem scan_guarded {d : Char} {odd : Bool} {body : List Char} (rest : List Char)
    (h : guarded d odd body = true) (hodd : oddTail odd body = false) :
    scan d odd (body ++ d :: rest) = some (body, rest) := by
  induction body generalizing odd with
  | nil =>
    obtain rfl : odd = false := hodd
    simp [scan]
  | cons c body ih =>
    simp only [guarded, Bool.and_eq_true, Bool.or_eq_true, bne_iff_ne, ne_eq] at h
    have hc : ¬(c = d ∧ odd = false) := by
      rintro ⟨rfl, rfl⟩
      simp at h
    rw [List.cons_append, scan, if_neg hc, ih h.2 hodd]
    rfl

/-- What was scanned ends at the delimiter, whatever is behind it. -/
theorem scan_append {d : Char} {odd : Bool} {text before after : List Char}
    (h : scan d odd text = some (before, after)) : text = before ++ d :: after ∧
      ∀ rest, scan d odd (before ++ d :: rest) = some (before, rest) := by
  induction text generalizing odd before with
  | nil => cases h
  | cons c text ih =>
    rw [scan] at h
    split at h
    · rename_i hEnd
      cases h
      rw [hEnd.1, hEnd.2]
      exact ⟨rfl, fun rest => by simp [scan]⟩
    · rename_i hGoesOn
      obtain ⟨⟨before', after'⟩, hScan, hEq⟩ := Option.map_eq_some_iff.mp h
      cases hEq
      obtain ⟨rfl, hRest⟩ := ih hScan
      refine ⟨rfl, fun rest => ?_⟩
      rw [List.cons_append, scan, if_neg hGoesOn, hRest]
      rfl

/-- Scanning for a delimiter in an escaped text that it ends. -/
theorem scan_escape {t : Char → Option Char} {d : Char} (h : t '\\' = some '\\')
    (hd : t d ≠ none) (hne : d ≠ '\\') (text rest : List Char) :
    scan d false (escape t text ++ d :: rest) = some (escape t text, rest) :=
  scan_guarded rest (guarded_escape h hd hne text) (oddTail_escape h text)

end Escape
