/-!
# Arities

How many arguments a procedure takes.
-/
namespace TailScheme

/-- The argument counts that a procedure accepts. -/
inductive Arity where
  /-- This count only. -/
  | exact (count : Nat)
  /-- This count and more. -/
  | atLeast (count : Nat)
  /-- Every count. -/
  | any
deriving DecidableEq

namespace Arity

/-- Whether `count` arguments are accepted. -/
def accepts : Arity → Nat → Bool
  | .exact expected, count => count == expected
  | .atLeast least, count => least ≤ count
  | .any, _ => true

/-- The accepted counts in words, as in "expected at least 1 arguments". -/
def text : Arity → String
  | .exact count => toString count
  | .atLeast count => "at least " ++ toString count
  | .any => "any number of"

end Arity

end TailScheme
