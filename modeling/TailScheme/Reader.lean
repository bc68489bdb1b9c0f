import TailScheme.Reader.Datum
import TailScheme.Error
import TailScheme.Text.Blank

/-!
# Reading a program text

A reader walks through a source and hands out its expressions one after the other. A failure is
handed out too and ends the reading: afterwards the reader stands at the end of its source. A
text that fails where nothing but blanks is left counts as unfinished, because more input could
complete it; every other failure names the byte at which it happened.
-/
namespace TailScheme

/-- A source and the part of it that has not been read. -/
structure Reader where
  /-- Whether `;` starts a comment. -/
  comments : Bool
  /-- The whole text. -/
  source : List Char
  /-- The unread end of the text. -/
  rest : List Char

namespace Reader

/-- What a failure inside `source` is reported as. -/
def Failure.report (source : List Char) : Failure → ReadError
  | .tooDeep rest => ⟨.tooDeep, Text.snippet rest⟩
  | .unexpected rest =>
    if rest.all Text.isBlank then ⟨.unfinished, none⟩
    else ⟨.unexpected (Text.byteSize source - Text.byteSize rest), Text.snippet rest⟩

/-- A reader at the start of a text. -/
def ofString (comments : Bool) (text : String) : Reader := ⟨comments, text.toList, text.toList⟩

/-- The byte at which the unread text starts. -/
def offset (reader : Reader) : Nat :=
  Text.byteSize reader.source - Text.byteSize reader.rest

/-- Reads the next expression: none at the end, where only trivia is left. -/
def next (reader : Reader) : Option (Except ReadError Expr) × Reader :=
  match skipTrivia reader.comments reader.rest with
  | [] => (none, { reader with rest := [] })
  | c :: rest =>
    match datum reader.comments nestingLimit (c :: rest) with
    | .error failure => (some (.error (failure.report reader.source)), { reader with rest := [] })
    | .ok (e, ⟨last, _⟩) => (some (.ok e), { reader with rest := last })

/-- Whatever the reader hands out takes up some of the unread text. -/
theorem length_rest_next {reader later : Reader} {item : Except ReadError Expr}
    (found : reader.next = (some item, later)) : later.rest.length < reader.rest.length := by
  have trivia := length_skipTrivia_le reader.comments reader.rest
  unfold next at found
  split at found
  · cases found
  · next c rest start =>
    rw [start, List.length_cons] at trivia
    split at found
    · cases found
      simp only [List.length_nil]
      omega
    · next last shorter _ =>
      cases found
      simp only [List.length_cons] at shorter ⊢
      omega

/-- Everything that the reader hands out: expressions, and at last a failure if there is one. -/
def items (reader : Reader) : List (Except ReadError Expr) :=
  match found : reader.next with
  | (none, _) => []
  | (some item, later) =>
    have := length_rest_next found
    item :: later.items
termination_by reader.rest.length

/-- Reads a text that consists of one expression with trivia around it. -/
def single (comments : Bool) (text : String) : Except ReadError Expr :=
  match (ofString comments text).next with
  | (none, _) => .error ⟨.missing, none⟩
  | (some (.error error), _) => .error error
  | (some (.ok e), later) =>
    match skipTrivia comments later.rest with
    | [] => .ok e
    | rest => .error ⟨.trailing, Text.snippet rest⟩

end Reader

end TailScheme
