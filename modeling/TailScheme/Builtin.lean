import TailScheme.Arity

/-!
# Builtin procedures

The twenty procedures that every program finds bound to their names, with the argument counts
they accept. What they compute is defined in `TailScheme.Builtin.Apply`.
-/
namespace TailScheme

/-- A builtin procedure. -/
inductive Builtin where
  | add
  | sub
  | mul
  | div
  | rem
  | eq
  | lt
  | le
  | gt
  | ge
  | and
  | or
  | not
  | cons
  | car
  | cdr
  | list
  | isNull
  | identical
  | equal
deriving DecidableEq

namespace Builtin

/-- Every builtin, in the order in which they are bound. -/
def all : List Builtin :=
  [.add, .sub, .mul, .div, .rem, .eq, .lt, .le, .gt, .ge, .and, .or, .not, .cons, .car, .cdr,
    .list, .isNull, .identical, .equal]

/-- The name that the builtin is bound to. -/
def name : Builtin → String
  | .add => "+"
  | .sub => "-"
  | .mul => "*"
  | .div => "/"
  | .rem => "%"
  | .eq => "="
  | .lt => "<"
  | .le => "<="
  | .gt => ">"
  | .ge => ">="
  | .and => "&&"
  | .or => "||"
  | .not => "!"
  | .cons => "cons"
  | .car => "car"
  | .cdr => "cdr"
  | .list => "list"
  | .isNull => "null?"
  | .identical => "eq?"
  | .equal => "equal?"

/-- The argument counts that the builtin accepts. -/
def arity : Builtin → Arity
  | .add | .mul | .and | .or | .list => .any
  | .sub | .div | .eq | .lt | .le | .gt | .ge => .atLeast 1
  | .not | .car | .cdr | .isNull => .exact 1
  | .rem | .cons | .identical | .equal => .exact 2

/-- The builtin of this name. -/
def ofName? (name : String) : Option Builtin :=
  all.find? fun builtin => builtin.name == name

/-- A builtin is found by its own name, so no two share one. -/
theorem ofName?_name (builtin : Builtin) : ofName? builtin.name = some builtin := by
  cases builtin <;> decide

end Builtin

end TailScheme
