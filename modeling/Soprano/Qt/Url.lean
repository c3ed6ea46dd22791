import Soprano.Qt.Text

/-! `QUrl`, represented by its encoded form.  `toEncoded` returns ASCII text in which the characters
that RFC 3986 leaves out of a URL are percent encoded; an encoded text and its URL determine each
other. -/

namespace Soprano

/-- The characters of an encoded URL: printable ASCII other than the space, the quote, the
backslash, the grave accent, the caret, the bar, the angle brackets and the braces. -/
def isUrlChar (c : Char) : Bool :=
  0x20 < c.toNat && c.toNat < 0x7f &&
    !(['"', '\\', '\x60', '^', '|', '<', '>', '{', '}'].contains c)

/-- A URL, by the text that `QUrl::toEncoded` returns for it. -/
structure QUrl where
  encoded : QString
  legal : encoded.all isUrlChar = true
deriving DecidableEq

namespace QUrl

/-- `QUrl::ParsingMode` -/
inductive ParsingMode where
  | tolerantMode
  | strictMode
deriving DecidableEq, Repr

/-- `QUrl()` -/
def empty : QUrl := ⟨[], rfl⟩

/-- `QUrl::isEmpty` -/
def isEmpty (u : QUrl) : Bool := u.encoded.isEmpty

/-- `QUrl::toEncoded` -/
def toEncoded (u : QUrl) : QByteArray := u.encoded.toLatin1

@[ext] theorem ext {u v : QUrl} (h : u.encoded = v.encoded) : u = v := by
  cases u
  cases v
  simpa using h

theorem isUrlChar_of_mem (u : QUrl) {c : Char} (h : c ∈ u.encoded) : isUrlChar c = true :=
  List.all_eq_true.mp u.legal c h

theorem toNat_lt_of_isUrlChar {c : Char} (h : isUrlChar c = true) : c.toNat < 128 := by
  simp only [isUrlChar, Bool.and_eq_true, decide_eq_true_eq] at h
  omega

theorem ne_of_isUrlChar {c d : Char} (h : isUrlChar c = true) (hd : isUrlChar d = false) :
    c ≠ d := by
  rintro rfl
  simp [h] at hd

/-- No character outside an encoded URL's alphabet occurs in one. -/
theorem notMem (u : QUrl) {c : Char} (h : isUrlChar c = false) : c ∉ u.encoded := fun hc =>
  ne_of_isUrlChar (u.isUrlChar_of_mem hc) h rfl

@[simp] theorem fromLatin1_toEncoded (u : QUrl) : QString.fromLatin1 u.toEncoded = u.encoded :=
  QString.fromLatin1_toLatin1 fun c hc => by
    have := toNat_lt_of_isUrlChar (u.isUrlChar_of_mem hc)
    omega

theorem isEmpty_iff {u : QUrl} : u.isEmpty = true ↔ u = empty := by
  rw [isEmpty, List.isEmpty_iff]
  exact ⟨fun h => ext h, fun h => h ▸ rfl⟩

/-- The URL of a text that is already encoded. -/
def ofString (s : String) (h : s.toList.all isUrlChar = true) : QUrl := ⟨s.toList, h⟩

/-- The URL of a text that is already encoded, behind a namespace. -/
def extended (ns : QUrl) (s : String) (h : s.toList.all isUrlChar = true) : QUrl :=
  ⟨ns.encoded ++ s.toList, by rw [List.all_append, ns.legal, h]; rfl⟩

end QUrl

end Soprano
