import Soprano.Library.Escape
import Soprano.Node

/-! `NQuadSerializer`: one line for each statement. -/

namespace Soprano

namespace NQuadSerializer

/-- `QString::replace` of a character by a text -/
def replace (s : QString) (before : Char) (after : QString) : QString :=
  s.flatMap fun c => if c = before then after else [c]

/-- The text of a literal between its quotes. -/
def escaped (val : QString) : QString :=
  replace (replace (replace (replace val '\\' ['\\', '\\']) '\n' ['\\', 'n'])
    '\r' ['\\', 'r']) '"' ['\\', '"']

section Qt

variable [Qt]

def serializeLiteral (literal : LiteralValue) (language : QString) : QString :=
  '"' :: (escaped literal.toString ++ '"' ::
    if literal.type = .string ∧ language ≠ [] then '@' :: language
    else '^' :: '^' :: '<' :: (QString.fromLatin1 literal.dataTypeUri.toEncoded ++ ['>']))

def serializeNode (node : Node) : QString :=
  match node with
  | .literal value _ => serializeLiteral value node.language
  | .blank identifier _ => '_' :: ':' :: identifier
  | .resource uri _ => '<' :: (QString.fromLatin1 uri.toEncoded ++ ['>'])
  | .empty => []

def serializeStatement (s : Statement) : QString :=
  serializeNode s.subject ++ ' ' :: (serializeNode s.predicate ++ ' ' ::
    (serializeNode s.object ++ ' ' ::
      ((if s.context.isEmpty then [] else serializeNode s.context ++ [' ']) ++ ['.', '\n'])))

/-- `NQuadSerializer::serialize` to N-Quads -/
def serialize (statements : List Statement) : QString := statements.flatMap serializeStatement

end Qt

/-- The characters that are replaced, with the letter behind the backslash. -/
def escapeHash : List (Char × Char) := [('\\', '\\'), ('\n', 'n'), ('\r', 'r'), ('"', '"')]

def escapeLetter (c : Char) : Option Char := escapeHash.lookup c

/-- No replacement touches what an earlier one has written. -/
theorem escaped_eq (val : QString) : escaped val = Escape.escape escapeLetter val := by
  unfold escaped replace Escape.escape
  rw [List.flatMap_assoc, List.flatMap_assoc, List.flatMap_assoc]
  congr 1
  funext c
  by_cases h₁ : c = '\\'
  · subst h₁
    rfl
  by_cases h₂ : c = '\n'
  · subst h₂
    rfl
  by_cases h₃ : c = '\r'
  · subst h₃
    rfl
  by_cases h₄ : c = '"'
  · subst h₄
    rfl
  simp [h₁, h₂, h₃, h₄, Escape.unit, escapeLetter, escapeHash, List.lookup_cons, beq_eq_false_iff_ne.mpr]

end NQuadSerializer

end Soprano
