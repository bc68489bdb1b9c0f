import TailScheme.Text.Alphanumeric

/-!
# Identifiers

An identifier is a run of alphanumeric characters and marks that does not start like a number.
An atom of a program must not be followed directly by a character that could continue one.
-/
namespace TailScheme

/-- The characters other than letters and numbers that identifiers may contain. -/
def identifierMarks : List Char :=
  ['+', '-', '*', '/', '<', '>', '=', '!', '?', '_', '$', '%', '&', '|']

/-- A character that identifiers may contain. -/
def isIdentifierChar (c : Char) : Bool := Text.isAlphanumeric c || identifierMarks.contains c

/-- A character that may continue an atom. -/
def continuesAtom (c : Char) : Bool := isIdentifierChar c || c == '#'

/-- Starts with an ASCII digit, or with a sign and an ASCII digit. -/
def startsLikeNumber : List Char → Bool
  | [] => false
  | [c] => c.isDigit
  | c :: next :: _ => c.isDigit || ((c == '-' || c == '+') && next.isDigit)

/-- The names that a program text can mention. -/
def isIdentifier (name : List Char) : Bool :=
  !name.isEmpty && !startsLikeNumber name && name.all isIdentifierChar

end TailScheme
