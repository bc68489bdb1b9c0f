import TailScheme.Reader

/-!
# The grammar of program texts

What a program text looks like, by rules and without a reader. Where a comment or an atom ends
depends on what comes after it, so each rule is about a text and the rest that follows what it
describes: `Datum comments level text e rest` says that `text` is a datum for the tree `e`,
followed by `rest`. The level counts the lists and quote marks that are open around the datum.

The rules give no order in which they are tried. That no text has two readings is a consequence:
the reader computes the only one.
-/
namespace TailScheme.Grammar

open Reader (isSpace)

/-- The line ends here: with a line feed, with a carriage return and a line feed, or with the
text. -/
inductive LineEnd : List Char → Prop where
  | feed (rest : List Char) : LineEnd ('\n' :: rest)
  | carriage (rest : List Char) : LineEnd ('\r' :: '\n' :: rest)
  | finish : LineEnd []

/-- Any number of spaces and, where they are enabled, comments. A comment runs up to the end of its
line and has no carriage return in it. -/
inductive Trivia (comments : Bool) : List Char → List Char → Prop where
  | none (rest : List Char) : Trivia comments rest rest
  | space {c : Char} {text rest : List Char} (space : isSpace c = true)
      (more : Trivia comments text rest) : Trivia comments (c :: text) rest
  | comment {line text rest : List Char} (enabled : comments = true)
      (plain : ∀ c ∈ line, c ≠ '\r' ∧ c ≠ '\n') (ends : LineEnd text)
      (more : Trivia comments text rest) : Trivia comments (';' :: (line ++ text)) rest

/-- The texts of atoms. -/
inductive Atom : List Char → Expr → Prop where
  | natural {digits : List Char} {value : Int64} (nonempty : digits ≠ [])
      (decimal : ∀ c ∈ digits, c.isDigit = true) (denotes : value.toInt = Text.ofDigits digits) :
      Atom digits (.int value)
  | negative {digits : List Char} {value : Int64} (nonempty : digits ≠ [])
      (decimal : ∀ c ∈ digits, c.isDigit = true) (denotes : value.toInt = -Text.ofDigits digits) :
      Atom ('-' :: digits) (.int value)
  | hashTrue : Atom ['#', 't'] (.bool true)
  | hashFalse : Atom ['#', 'f'] (.bool false)
  | wordTrue : Atom ['t', 'r', 'u', 'e'] (.bool true)
  | wordFalse : Atom ['f', 'a', 'l', 's', 'e'] (.bool false)
  | identifier {name : List Char} (valid : isIdentifier name = true)
      (not_true : name ≠ ['t', 'r', 'u', 'e']) (not_false : name ≠ ['f', 'a', 'l', 's', 'e']) :
      Atom name (.ident (String.ofList name))

/-- No character follows that could continue an atom. -/
def Delimited (rest : List Char) : Prop := ∀ c ∈ rest.head?, continuesAtom c = false

mutual

/-- A datum inside `level` lists and quote marks. -/
inductive Datum (comments : Bool) : Nat → List Char → Expr → List Char → Prop where
  | atom {level : Nat} {name rest : List Char} {e : Expr} (room : level < nestingLimit)
      (atom : Atom name e) (delimited : Delimited rest) :
      Datum comments level (name ++ rest) e rest
  | quote {level : Nat} {text first rest : List Char} {e : Expr} (room : level < nestingLimit)
      (trivia : Trivia comments text first) (datum : Datum comments (level + 1) first e rest) :
      Datum comments level ('\'' :: text) (.list [.ident "quote", e]) rest
  | list {level : Nat} {text rest : List Char} {items : List Expr} (room : level < nestingLimit)
      (elements : Elements comments (level + 1) text items rest) :
      Datum comments level ('(' :: text) (.list items) rest

/-- The elements of a list, with trivia around them, and its closing parenthesis. -/
inductive Elements (comments : Bool) : Nat → List Char → List Expr → List Char → Prop where
  | close {level : Nat} {text rest : List Char} (trivia : Trivia comments text (')' :: rest)) :
      Elements comments level text [] rest
  | element {level : Nat} {text first next rest : List Char} {e : Expr} {items : List Expr}
      (trivia : Trivia comments text first) (datum : Datum comments level first e next)
      (more : Elements comments level next items rest) :
      Elements comments level text (e :: items) rest

end

/-- A text that is one datum, inside nothing, with trivia around it. -/
def Program (comments : Bool) (text : List Char) (e : Expr) : Prop :=
  ∃ first last, Trivia comments text first ∧ Datum comments 0 first e last ∧
    Trivia comments last []

/-- One more space in front is trivia too. -/
theorem Elements.space {comments : Bool} {level : Nat} {text rest : List Char} {items : List Expr}
    {c : Char} (space : isSpace c = true) (elements : Elements comments level text items rest) :
    Elements comments level (c :: text) items rest := by
  cases elements with
  | close trivia => exact .close (.space space trivia)
  | element trivia datum more => exact .element (.space space trivia) datum more

end TailScheme.Grammar
