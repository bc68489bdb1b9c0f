import TailScheme.Expr
import TailScheme.Identifier
import TailScheme.Text.Decimal

/-!
# Atoms

An atom is an integer, a boolean or an identifier. The first of these that the front of a text
matches is taken for good, and the atom must end there: if a character that could continue an
atom follows, the text is not read in another way. Digits whose value is out of range are no
integer, and since they start like a number they are no identifier either.
-/
namespace TailScheme.Reader

/-- Where a text could not be read, and why. -/
inductive Failure where
  /-- Nothing that can stand here starts with this text. -/
  | unexpected (rest : List Char)
  /-- Too many lists and quote marks are open here. -/
  | tooDeep (rest : List Char)

/-- The text at which reading failed. -/
def Failure.rest : Failure → List Char
  | .unexpected rest => rest
  | .tooDeep rest => rest

/-- What is left of a text when some of it has been read. -/
abbrev Rest (text : List Char) := { rest : List Char // rest.length < text.length }

/-- Whether the text starts with a minus sign, and the text after that sign. -/
def sign : List Char → Bool × List Char
  | '-' :: rest => (true, rest)
  | text => (false, text)

/-- The integer at the front of a text, and the text after it. -/
def integer? (text : List Char) : Option (Expr × List Char) :=
  let (negative, unsigned) := sign text
  let digits := unsigned.takeWhile Char.isDigit
  if digits.isEmpty then none
  else
    let size : Int := Text.ofDigits digits
    match Text.ofInt? (if negative then -size else size) with
    | none => none
    | some value => some (.int value, unsigned.dropWhile Char.isDigit)

/-- The boolean `#t` or `#f` at the front of a text, and the text after it. -/
def boolean? : List Char → Option (Expr × List Char)
  | '#' :: 't' :: rest => some (.bool true, rest)
  | '#' :: 'f' :: rest => some (.bool false, rest)
  | _ => none

/-- What a run of identifier characters denotes: a boolean if it is `true` or `false`, and
otherwise an identifier unless it starts like a number. -/
def word? (name : List Char) : Option Expr :=
  if name = ['t', 'r', 'u', 'e'] then some (.bool true)
  else if name = ['f', 'a', 'l', 's', 'e'] then some (.bool false)
  else if name.isEmpty || startsLikeNumber name then none
  else some (.ident (String.ofList name))

/-- The boolean or identifier at the front of a text, and the text after it. -/
def named? (text : List Char) : Option (Expr × List Char) :=
  match word? (text.takeWhile isIdentifierChar) with
  | none => none
  | some e => some (e, text.dropWhile isIdentifierChar)

/-- The atom at the front of a text, whatever follows it, and the text after it. -/
def atom? (text : List Char) : Option (Expr × List Char) :=
  integer? text <|> boolean? text <|> named? text

theorem length_dropWhile_lt {p : Char → Bool} {text : List Char}
    (some_taken : (text.takeWhile p).isEmpty = false) :
    (text.dropWhile p).length < text.length := by
  have whole := congrArg List.length (List.takeWhile_append_dropWhile (p := p) (l := text))
  rw [List.length_append] at whole
  have := List.length_pos_iff.2 (List.isEmpty_eq_false_iff.1 some_taken)
  omega

theorem length_sign_le (text : List Char) : (sign text).2.length ≤ text.length := by
  unfold sign
  split <;> simp

/-- An atom takes up at least one character. -/
theorem length_lt_of_atom? {text rest : List Char} {e : Expr}
    (found : atom? text = some (e, rest)) : rest.length < text.length := by
  simp only [atom?, Option.orElse_eq_orElse, Option.orElse_eq_or, Option.or_eq_some_iff] at found
  rcases found with integer | ⟨-, boolean | ⟨-, named⟩⟩
  · simp only [integer?] at integer
    split at integer
    · cases integer
    · next taken =>
      split at integer
      · cases integer
      · cases integer
        have shorter := length_dropWhile_lt (by simpa using taken)
        exact Nat.lt_of_lt_of_le shorter (length_sign_le text)
  · unfold boolean? at boolean
    split at boolean <;> cases boolean <;> simp only [List.length_cons] <;> omega
  · simp only [named?] at named
    split at named
    · cases named
    · next e' word =>
      cases named
      apply length_dropWhile_lt
      rw [Bool.eq_false_iff]
      intro none_taken
      simp only [List.isEmpty_iff] at none_taken
      simp [none_taken, word?] at word

/-- Reads the atom at the front of a text. -/
def atom (text : List Char) : Except Failure (Expr × Rest text) :=
  match found : atom? text with
  | none => .error (.unexpected text)
  | some (e, rest) =>
    if rest.head?.any continuesAtom then .error (.unexpected rest)
    else .ok (e, ⟨rest, length_lt_of_atom? found⟩)

end TailScheme.Reader
