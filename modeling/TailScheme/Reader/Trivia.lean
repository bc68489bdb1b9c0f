/-!
# Trivia

What may stand between tokens: spaces, tabs, line ends and, where they are enabled, comments. A
comment runs from a `;` to the end of its line, which is a line feed, a carriage return and a
line feed, or the end of the text. If a lone carriage return comes first there is no comment,
and the trivia stops at the `;`.
-/
namespace TailScheme.Reader

/-- The characters that separate tokens. -/
def isSpace (c : Char) : Bool := c == ' ' || c == '\t' || c == '\r' || c == '\n'

/-- Skips trivia. Inside a comment, `comment` holds the text from its `;` on, which is where the
trivia stops if the comment turns out to be none. -/
def skipWithin (comments : Bool) (comment : Option (List Char)) : List Char → List Char
  | [] => []
  | c :: rest =>
    match comment with
    | none =>
      if isSpace c then skipWithin comments none rest
      else if comments && c == ';' then skipWithin comments (some (c :: rest)) rest
      else c :: rest
    | some start =>
      if c = '\n' then skipWithin comments none rest
      else if c = '\r' then
        if rest.head? = some '\n' then skipWithin comments none rest else start
      else skipWithin comments (some start) rest

/-- The text after the trivia at its front. -/
def skipTrivia (comments : Bool) (text : List Char) : List Char := skipWithin comments none text

theorem length_skipWithin_le (comments : Bool) (comment : Option (List Char))
    (text : List Char) :
    (skipWithin comments comment text).length ≤
      match comment with
      | none => text.length
      | some start => max start.length text.length := by
  induction text generalizing comment with
  | nil => cases comment <;> simp [skipWithin]
  | cons c rest ih =>
    have plain := ih none
    cases comment with
    | none =>
      have inside := ih (some (c :: rest))
      simp only [List.length_cons] at inside plain ⊢
      unfold skipWithin
      dsimp only
      split
      · omega
      · split
        · omega
        · simp
    | some start =>
      have inside := ih (some start)
      simp only [List.length_cons] at inside plain ⊢
      unfold skipWithin
      dsimp only
      split
      · omega
      · split
        · split
          · omega
          · omega
        · omega

/-- Skipping trivia never lengthens a text. -/
theorem length_skipTrivia_le (comments : Bool) (text : List Char) :
    (skipTrivia comments text).length ≤ text.length :=
  length_skipWithin_le comments none text

end TailScheme.Reader
