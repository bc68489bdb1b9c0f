import TailScheme.Reader.Atom
import TailScheme.Reader.Trivia

/-!
# Data

A datum is an atom, a list in parentheses, or a quote mark and a datum, which is read as the
list `(quote datum)`. Special forms are not recognised here. Lists and quote marks may nest to
a fixed depth: `datum` is given the room that is left and fails without a look at the text when
there is none.

Each step hands back the rest of the text with the fact that it is shorter, which is why the
elements of a list come to an end.
-/
namespace TailScheme.Reader

/-- What follows the character after the trivia is shorter than the text. -/
theorem length_lt_of_skipTrivia {comments : Bool} {text rest : List Char} {c : Char}
    (start : skipTrivia comments text = c :: rest) : rest.length < text.length := by
  have bound := length_skipTrivia_le comments text
  rw [start, List.length_cons] at bound
  omega

/-- What is left after the trivia and something more is shorter than the text. -/
theorem length_lt_of_skipped {comments : Bool} {text first rest : List Char}
    (start : skipTrivia comments text = first) (shorter : rest.length < first.length) :
    rest.length < text.length := by
  have bound := length_skipTrivia_le comments text
  rw [start] at bound
  omega

/-- What is left after a quote mark, trivia and something more is shorter than the text. -/
theorem length_lt_of_quoted {comments : Bool} {text rest : List Char} {c : Char}
    (shorter : rest.length < (skipTrivia comments text).length) :
    rest.length < (c :: text).length := by
  have bound := length_skipTrivia_le comments text
  rw [List.length_cons]
  omega

/-- Reads the elements of a list up to its closing parenthesis, each with `item`. -/
def elements (comments : Bool)
    (item : (text : List Char) → Except Failure (Expr × Rest text)) (text : List Char) :
    Except Failure (List Expr × Rest text) :=
  match start : skipTrivia comments text with
  | ')' :: rest => .ok ([], ⟨rest, length_lt_of_skipTrivia start⟩)
  | first =>
    match item first with
    | .error failure => .error failure
    | .ok (e, ⟨rest, shorter⟩) =>
      have earlier := length_lt_of_skipped start shorter
      match elements comments item rest with
      | .error failure => .error failure
      | .ok (more, ⟨last, shortest⟩) =>
        .ok (e :: more, ⟨last, Nat.lt_trans shortest earlier⟩)
termination_by text.length

/-- Reads one datum that starts exactly at the front of the text, with room for nesting. -/
def datum (comments : Bool) : (room : Nat) → (text : List Char) →
    Except Failure (Expr × Rest text)
  | 0, text => .error (.tooDeep text)
  | _ + 1, [] => atom []
  | room + 1, c :: rest =>
    if c = '\'' then
      match datum comments room (skipTrivia comments rest) with
      | .error failure => .error failure
      | .ok (e, ⟨last, shorter⟩) =>
        .ok (.list [.ident "quote", e], ⟨last, length_lt_of_quoted shorter⟩)
    else if c = '(' then
      match elements comments (datum comments room) rest with
      | .error failure => .error failure
      | .ok (items, ⟨last, shorter⟩) => .ok (.list items, ⟨last, Nat.lt_succ_of_lt shorter⟩)
    else atom (c :: rest)

end TailScheme.Reader
