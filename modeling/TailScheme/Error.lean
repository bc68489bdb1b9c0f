import TailScheme.Keyword
import TailScheme.Builtin
import TailScheme.Text.Snippet

/-!
# Errors

Everything that can go wrong with a program, as causes: a text that cannot be read, a special
form of the wrong shape, and the failures of evaluation. `Error.message` is the one place that
puts them into words. Printed values are part of a cause as text, because what a value prints
as may change after the error arose.
-/
namespace TailScheme

/-- How deep lists and quote marks may nest in a program text. -/
def nestingLimit : Nat := 64

/-- Why a text could not be read. -/
inductive ReadCause where
  /-- No expression can go on with what stands at this byte. -/
  | unexpected (position : Nat)
  /-- The text ends, but for blanks, inside an expression. -/
  | unfinished
  /-- There is no expression in the text. -/
  | missing
  /-- Lists and quote marks nest deeper than `nestingLimit`. -/
  | tooDeep
  /-- There is more in the text than the one expression asked for. -/
  | trailing
deriving DecidableEq

/-- The cause in words. -/
def ReadCause.message : ReadCause → String
  | .unexpected position => "invalid syntax at position " ++ toString position
  | .unfinished => "unexpected end of input"
  | .missing => "no expression found"
  | .tooDeep => "expression too deeply nested (max depth: " ++ toString nestingLimit ++ ")"
  | .trailing => "unexpected content after expression"

/-- A message together with the snippet of the text that it is about. -/
def withSnippet (message : String) : Option String → String
  | none => message
  | some snippet => message ++ " near '" ++ snippet ++ "'"

/-- A failure to read, with a snippet of what stands where it happened. -/
structure ReadError where
  cause : ReadCause
  snippet : Option String
deriving DecidableEq

/-- The failure in words. -/
def ReadError.message (error : ReadError) : String :=
  withSnippet error.cause.message error.snippet

/-- How an error message about a text begins. -/
def readMessage (message : String) : String := "parse error: " ++ message

/-- The kinds of value that messages tell apart. -/
inductive Kind where
  | nil
  | boolean
  | integer
  | symbol
  | pair
  | procedure
deriving DecidableEq

/-- The name of a kind of value. -/
def Kind.name : Kind → String
  | .nil => "nil"
  | .boolean => "boolean"
  | .integer => "integer"
  | .symbol => "symbol"
  | .pair => "pair"
  | .procedure => "procedure"

/-- Why a program failed. -/
inductive Error where
  /-- Its text could not be read. -/
  | read (error : ReadError)
  /-- A special form has the wrong shape, or its keyword stands alone. -/
  | malformed (form : Keyword)
  /-- An identifier is not bound. -/
  | unbound (name : String)
  /-- A builtin was given a value of the wrong kind. -/
  | typeMismatch (procedure : Builtin) (expected got : Kind)
  /-- A procedure was given the wrong number of arguments. -/
  | arityMismatch (procedure : String) (expected : Arity) (got : Nat)
  /-- The first element of an application is not a procedure. -/
  | notProcedure (shown : String)
  /-- An application is the empty list. -/
  | missingProcedure
  /-- The test of a branch is not a boolean. -/
  | conditionNotBoolean (shown : String)
  /-- A divisor is zero. -/
  | divisionByZero (procedure : Builtin)
  /-- More procedures would be running at once than the limit allows. -/
  | callDepthExceeded (limit : Nat)
  /-- Quoted data contains a special form that is already expanded. -/
  | unquotable (shown : String)
deriving DecidableEq

/-- The error in words. -/
def Error.message : Error → String
  | .read error => readMessage error.message
  | .malformed form => form.name ++ ": bad syntax, usage: '" ++ form.usage ++ "'"
  | .unbound name => "identifier '" ++ name ++ "' is not bound for any value"
  | .typeMismatch procedure expected got =>
    procedure.name ++ ": type mismatch, expected " ++ expected.name ++ ", got " ++ got.name
  | .arityMismatch procedure expected got =>
    procedure ++ ": arity mismatch, expected " ++ expected.text ++ " arguments, got "
      ++ toString got
  | .notProcedure shown => "not a procedure: " ++ shown
  | .missingProcedure => "missing procedure expression in ()"
  | .conditionNotBoolean shown => "condition must be boolean, got " ++ shown
  | .divisionByZero procedure => procedure.name ++ ": division by zero"
  | .callDepthExceeded limit =>
    "call depth limit exceeded (max: " ++ toString limit ++ " frames)"
  | .unquotable shown => "cannot quote expression: " ++ shown

/-- Checks an argument count on behalf of a procedure. -/
def Arity.check (arity : Arity) (procedure : String) (got : Nat) : Except Error Unit :=
  if arity.accepts got then .ok () else .error (.arityMismatch procedure arity got)

end TailScheme
