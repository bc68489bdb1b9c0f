import TailScheme.Value
import TailScheme.Expr.Printer

/-!
# Printed values

A chain of pairs prints as a list in parentheses; if its last tail is not the empty list, that
tail follows a dot. Procedures print with their names, so printing is given the names of the
closures. The printer adds to the text already written, so that a list of any length prints in
constant room.

`Value.inspect` shows the structure instead: every pair on its own and every atom with its kind.
-/
namespace TailScheme.Value

/-- The printed form of a procedure. -/
def procedureText : Option String → String
  | none => "<procedure>"
  | some name => "<procedure " ++ name ++ ">"

/-- The printed form of a value that is not a pair; a pair has none of its own. -/
def atomText (nameOf : Nat → Option String) : Value → String
  | .nil => "()"
  | .bool value => String.ofList (boolChars value)
  | .int value => String.ofList (Text.intChars value)
  | .symbol name => name
  | .builtin procedure => procedureText (some procedure.name)
  | .closure procedure => procedureText (nameOf procedure.id)
  | .pair _ _ _ => ""

mutual

/-- Adds the printed form of a value to a text. -/
def write (nameOf : Nat → Option String) (out : String) : Value → String
  | .pair _ first second => writeTail nameOf (write nameOf (out.push '(') first) second
  | atom => out ++ atom.atomText nameOf

/-- Adds what follows an element of a list, up to the closing parenthesis. -/
def writeTail (nameOf : Nat → Option String) (out : String) : Value → String
  | .nil => out.push ')'
  | .pair _ first second => writeTail nameOf (write nameOf (out.push ' ') first) second
  | atom => (out ++ " . " ++ atom.atomText nameOf).push ')'

end

/-- The printed form of a value. -/
def text (nameOf : Nat → Option String) (value : Value) : String := value.write nameOf ""

/-- The structure of a value. -/
def inspect (nameOf : Nat → Option String) : Value → String
  | .nil => "Nil"
  | .bool value => "Bool(" ++ String.ofList (boolChars value) ++ ")"
  | .int value => "Int(" ++ String.ofList (Text.intChars value) ++ ")"
  | .symbol name => "Symbol(" ++ name ++ ")"
  | .builtin procedure => "Builtin(" ++ procedure.name ++ ")"
  | .closure procedure => "Proc(" ++ (nameOf procedure.id).getD "<anonymous>" ++ ")"
  | .pair _ first second =>
    "Pair(" ++ first.inspect nameOf ++ ", " ++ second.inspect nameOf ++ ")"

end TailScheme.Value
