import TailScheme.Expr
import TailScheme.Error

/-!
# Values

What expressions evaluate to. Pairs and closures have an identity besides their contents: each
carries a stamp that no other object of its kind has, and `eq?` compares stamps. Pairs never
change, so a pair holds its two values directly. A closure refers to the scope it was made in by
number; its name is not part of it but of the heap, because the name is given to it later.
-/
namespace TailScheme

/-- The number of a scope. -/
abbrev ScopeId := Nat

/-- A procedure made by a `lambda`: its stamp, its code, and the scope it was made in. -/
structure Closure where
  id : Nat
  params : List String
  body : List Expr
  scope : ScopeId
deriving DecidableEq

/-- A value of the language. -/
inductive Value where
  /-- The empty list, which is also what definitions and assignments evaluate to. -/
  | nil
  /-- A boolean. -/
  | bool (value : Bool)
  /-- An integer. -/
  | int (value : Int64)
  /-- A symbol. -/
  | symbol (name : String)
  /-- A builtin procedure. -/
  | builtin (procedure : Builtin)
  /-- A pair with its stamp. -/
  | pair (id : Nat) (first second : Value)
  /-- A procedure of the program. -/
  | closure (procedure : Closure)
deriving DecidableEq

instance : Inhabited Value := ⟨.nil⟩

namespace Value

/-- The kind of a value as messages name it. -/
def kind : Value → Kind
  | .nil => .nil
  | .bool _ => .boolean
  | .int _ => .integer
  | .symbol _ => .symbol
  | .pair _ _ _ => .pair
  | .builtin _ | .closure _ => .procedure

/-- Whether a value is the empty list. -/
def isNil : Value → Bool
  | .nil => true
  | _ => false

/-- The same object, for pairs and closures; the same value, for all others. -/
def identical : Value → Value → Bool
  | .nil, .nil => true
  | .bool value, .bool other => value == other
  | .int value, .int other => value == other
  | .symbol name, .symbol other => name == other
  | .builtin procedure, .builtin other => procedure == other
  | .pair id _ _, .pair other _ _ => id == other
  | .closure procedure, .closure other => procedure.id == other.id
  | _, _ => false

/-- The same shape with the same values in it. A pair is equal to itself at once. -/
def equal : Value → Value → Bool
  | .pair id first second, .pair other head tail =>
    if id == other then true
    else if first.equal head then second.equal tail
    else false
  | value, other => value.identical other

/-- A computation that may make pairs. It is given the first stamp that is not in use and hands
back the next one. -/
abbrev Making := StateT Nat (Except Error)

/-- Makes a pair. -/
def cons (first second : Value) : Making Value := fun stamp =>
  .ok (.pair stamp first second, stamp + 1)

/-- Makes a list, the last pair first. -/
def ofList : List Value → Making Value
  | [] => return .nil
  | value :: values => do
    let tail ← ofList values
    cons value tail

end Value

end TailScheme
