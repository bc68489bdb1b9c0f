import TailScheme.Stack
import TailScheme.Heap

/-!
# The machine

Evaluation runs on a machine: the heap, the call stack, and a mark for the expression that is
evaluated next, which is set while that expression is the last of its body. A call is in tail
position if this mark and the one of the innermost frame are both set. The machine also keeps
count of two things that do not change its course: the most frames that were on the stack at
once, and the calls that were deferred.

The steps of an evaluation change the machine and may stop it. They keep the machine they have
reached when they stop.
-/
namespace TailScheme

/-- The state of an evaluation. -/
structure Machine where
  /-- What outlives the evaluation. -/
  heap : Heap
  /-- The running procedures. -/
  stack : Stack
  /-- Whether the expression evaluated next is the last of its body. -/
  final : Bool
  /-- The most frames that have been on the stack at once. -/
  peak : Nat
  /-- How many calls have been deferred. -/
  deferrals : Nat

/-- How an evaluation ends without a value. -/
inductive Stop where
  /-- The program failed. -/
  | failed (error : Error)
  /-- A frame went on with deferred calls for longer than was granted. -/
  | outOfBudget
deriving DecidableEq

/-- A step of an evaluation. -/
abbrev Run := EStateM Stop Machine

namespace Machine

/-- A machine at rest with this heap. -/
def ofHeap (heap : Heap) : Machine := ⟨heap, .empty, false, 0, 0⟩

/-- The machine that a program starts on. -/
def initial : Machine := ofHeap Heap.initial

/-- The number of running procedures. -/
def depth (machine : Machine) : Nat := machine.stack.depth

/-- The machine at the start of an evaluation: nothing is counted yet. -/
def begin (machine : Machine) : Machine :=
  { machine with final := false, peak := machine.depth, deferrals := 0 }

/-- The machine after an evaluation that stopped: no procedure is running. -/
def reset (machine : Machine) : Machine := { machine with stack := .empty, final := false }

/-- Starts a procedure in a frame of its own. -/
def push (machine : Machine) (running : Closure) : Machine :=
  let stack := machine.stack.push running
  { machine with stack, peak := max machine.peak stack.depth }

/-- Ends the innermost procedure. -/
def pop (machine : Machine) : Machine := { machine with stack := machine.stack.pop }

/-- Sets the mark of the innermost frame. -/
def mark (machine : Machine) (final : Bool) : Machine :=
  { machine with stack := machine.stack.mark final }

/-- Defers a call to the innermost frame. -/
def defer (machine : Machine) (call : Call) : Machine :=
  { machine with stack := machine.stack.defer call, deferrals := machine.deferrals + 1 }

end Machine

namespace Run

/-- Fails with an error of the program. -/
def fail {α : Type} (error : Error) : Run α := fun machine => .error (.failed error) machine

/-- Sets the mark of the expression that is evaluated next. -/
def setFinal (final : Bool) : Run Unit := fun machine => .ok () { machine with final }

/-- Whether the expression being evaluated is in tail position. Its mark is taken off, because
no part of the expression is in tail position by the mark of the whole. -/
def takeTailMark (tailCalls : Bool) : Run Bool := fun machine =>
  .ok (tailCalls && machine.stack.isFinal && machine.final) { machine with final := false }

/-- Takes the deferred call off the innermost frame. -/
def takeDeferred : Run (Option Call) := fun machine =>
  match machine.stack.deferred? with
  | some call => .ok (some call) { machine with stack := machine.stack.clearDeferred }
  | none => .ok none machine

/-- Runs a body with the mark of the innermost frame set to `final`, and puts both marks back
if the body ends with a value. -/
@[inline] def withMarks (final : Bool) (body : Run Value) : Run Value := fun machine =>
  let frameMark := machine.stack.isFinal
  let ownMark := machine.final
  match body (machine.mark final) with
  | .ok value machine => .ok value { machine.mark frameMark with final := ownMark }
  | .error stop machine => .error stop machine

/-- Runs a procedure in a frame of its own, which is removed whatever happens. -/
@[inline] def withFrame (running : Closure) (body : Run Value) : Run Value := fun machine =>
  match body (machine.push running) with
  | .ok value machine => .ok value machine.pop
  | .error stop machine => .error stop machine.pop

/-- Makes pairs on the heap. -/
def making {α : Type} (make : Value.Making α) : Run α := fun machine =>
  match make machine.heap.pairs with
  | .ok (result, pairs) => .ok result { machine with heap := { machine.heap with pairs } }
  | .error error => .error (.failed error) machine

/-- Makes a scope within another one. -/
def openScope (parent : ScopeId) (bindings : Bindings) : Run ScopeId := fun machine =>
  let (scope, heap) := machine.heap.newScope (some parent) bindings
  .ok scope { machine with heap }

/-- Makes a closure. -/
def close (params : List String) (body : List Expr) (scope : ScopeId) : Run Value :=
  fun machine =>
    let (procedure, heap) := machine.heap.newClosure params body scope
    .ok (.closure procedure) { machine with heap }

/-- The value of a name as seen from a scope. -/
def lookup (scope : ScopeId) (name : String) : Run Value := fun machine =>
  match machine.heap.lookup scope name with
  | some value => .ok value machine
  | none => .error (.failed (.unbound name)) machine

/-- Binds a name in a scope, and names the value if it is an anonymous closure. -/
def define (scope : ScopeId) (name : String) (value : Value) : Run Unit := fun machine =>
  .ok () { machine with heap := (machine.heap.giveName value name).insert scope name value }

/-- Changes the binding of a name, and names the value if it is an anonymous closure. -/
def assign (scope : ScopeId) (name : String) (value : Value) : Run Unit := fun machine =>
  let (found, heap) := machine.heap.assign scope name value
  if found then .ok () { machine with heap := heap.giveName value name }
  else .error (.failed (.unbound name)) { machine with heap }

/-- The printed form of a value as things stand. -/
def printed (value : Value) : Run String := fun machine =>
  .ok (machine.heap.text value) machine

end Run

end TailScheme
