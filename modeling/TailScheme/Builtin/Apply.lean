import TailScheme.Value

/-!
# What the builtins compute

A builtin first checks the number of its arguments and then the kind of all of them, from left
to right; only then does it compute, and the only thing that can still go wrong is a division by
zero. Integers are 64 bits wide and wrap. Comparisons relate neighbours.
-/
namespace TailScheme.Builtin

open Value (Making)

/-- The failure of a builtin that is given the wrong number of arguments. -/
def wrongCount (builtin : Builtin) (count : Nat) : Error :=
  .arityMismatch builtin.name builtin.arity count

/-- The integers that the arguments are. -/
def integers (builtin : Builtin) : List Value → Except Error (List Int64)
  | [] => .ok []
  | .int value :: rest => do
    let values ← integers builtin rest
    return value :: values
  | other :: _ => .error (.typeMismatch builtin .integer other.kind)

/-- The booleans that the arguments are. -/
def booleans (builtin : Builtin) : List Value → Except Error (List Bool)
  | [] => .ok []
  | .bool value :: rest => do
    let values ← booleans builtin rest
    return value :: values
  | other :: _ => .error (.typeMismatch builtin .boolean other.kind)

/-- The sum. -/
def sum (values : List Int64) : Int64 := values.foldl (· + ·) 0

/-- The product. -/
def product (values : List Int64) : Int64 := values.foldl (· * ·) 1

/-- What is left of the first value when all others are taken away; a single value is negated. -/
def difference (first : Int64) : List Int64 → Int64
  | [] => -first
  | rest => rest.foldl (· - ·) first

/-- Divides toward zero; the least integer divided by -1 is itself. -/
def divide (value divisor : Int64) : Except Error Int64 :=
  if divisor = 0 then .error (.divisionByZero .div) else .ok (value / divisor)

/-- Divides the value by each divisor in turn. -/
def divideAll (value : Int64) : List Int64 → Except Error Int64
  | [] => .ok value
  | divisor :: rest => do
    let value ← divide value divisor
    divideAll value rest

/-- The first value divided by all others; a single value divides one. -/
def quotient (first : Int64) : List Int64 → Except Error Int64
  | [] => divide 1 first
  | rest => divideAll first rest

/-- What the truncating division leaves, with the sign of the value. -/
def remainder (value divisor : Int64) : Except Error Int64 :=
  if divisor = 0 then .error (.divisionByZero .rem) else .ok (value % divisor)

/-- Whether the relation holds between all neighbours. -/
def chained (related : Int64 → Int64 → Bool) : List Int64 → Bool
  | first :: second :: rest => related first second && chained related (second :: rest)
  | _ => true

/-- What a builtin computes from arguments of the right number. Where that number is fixed,
another one is refused here as well. -/
def compute (builtin : Builtin) (args : List Value) : Making Value :=
  match builtin with
  | .add => do return .int (sum (← integers builtin args))
  | .mul => do return .int (product (← integers builtin args))
  | .sub => do
    match ← integers builtin args with
    | [] => throw (wrongCount builtin 0)
    | first :: rest => return .int (difference first rest)
  | .div => do
    match ← integers builtin args with
    | [] => throw (wrongCount builtin 0)
    | first :: rest => return .int (← quotient first rest)
  | .rem => do
    match ← integers builtin args with
    | [value, divisor] => return .int (← remainder value divisor)
    | values => throw (wrongCount builtin values.length)
  | .eq => do return .bool (chained (· == ·) (← integers builtin args))
  | .lt => do return .bool (chained (fun a b => decide (a < b)) (← integers builtin args))
  | .le => do return .bool (chained (fun a b => decide (a ≤ b)) (← integers builtin args))
  | .gt => do return .bool (chained (fun a b => decide (b < a)) (← integers builtin args))
  | .ge => do return .bool (chained (fun a b => decide (b ≤ a)) (← integers builtin args))
  | .and => do return .bool ((← booleans builtin args).all id)
  | .or => do return .bool ((← booleans builtin args).any id)
  | .not => do
    match ← booleans builtin args with
    | [value] => return .bool (!value)
    | values => throw (wrongCount builtin values.length)
  | .cons =>
    match args with
    | [first, second] => Value.cons first second
    | _ => throw (wrongCount builtin args.length)
  | .car =>
    match args with
    | [.pair _ first _] => return first
    | [other] => throw (.typeMismatch builtin .pair other.kind)
    | _ => throw (wrongCount builtin args.length)
  | .cdr =>
    match args with
    | [.pair _ _ second] => return second
    | [other] => throw (.typeMismatch builtin .pair other.kind)
    | _ => throw (wrongCount builtin args.length)
  | .list => Value.ofList args
  | .isNull =>
    match args with
    | [value] => return .bool value.isNil
    | _ => throw (wrongCount builtin args.length)
  | .identical =>
    match args with
    | [value, other] => return .bool (value.identical other)
    | _ => throw (wrongCount builtin args.length)
  | .equal =>
    match args with
    | [value, other] => return .bool (value.equal other)
    | _ => throw (wrongCount builtin args.length)

/-- Calls a builtin. -/
def apply (builtin : Builtin) (args : List Value) : Making Value := do
  builtin.arity.check builtin.name args.length
  builtin.compute args

end TailScheme.Builtin
