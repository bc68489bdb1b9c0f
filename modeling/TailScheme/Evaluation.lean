import TailScheme.Machine
import TailScheme.Builtin.Apply
import TailScheme.Value.Quoted
import TailScheme.Expr.Expand
import TailScheme.Reader

/-!
# Evaluation

An expanded tree is evaluated in a scope. `evaluate` walks the tree and is given, as `invoke`,
what a call outside tail position does; `invoke` runs the body of the closure in a new frame and
is defined by the room left on the stack; and a frame goes on with one deferred call after the
other. So each of the three recursions has its own measure: the tree, the room, and a budget for
the deferred calls of one frame, which is the only thing that a program can exhaust by running
forever.

`eval` runs one tree at the top level, and `evalProgram` a whole program text.
-/
namespace TailScheme

/-- The frame limit that is used unless another is asked for. -/
def defaultMaxDepth : Nat := 200

/-- How programs are run. -/
structure Config where
  /-- Whether a call in tail position reuses the frame of its caller. -/
  tailCalls : Bool := true
  /-- The most frames that may be on the stack. -/
  maxDepth : Nat := defaultMaxDepth

/-- How a closure is called in messages. -/
def Heap.displayName (heap : Heap) (procedure : Closure) : String :=
  (heap.nameOf procedure.id).getD "anonymous procedure"

/-- Applies a procedure to arguments. A call in tail position is deferred; the value that stands
in for its result is never looked at. -/
def applyTo (invoke : Call → Run Value) (tail : Bool) (operator : Value) (args : List Value) :
    Run Value :=
  match operator with
  | .builtin procedure => Run.making (procedure.apply args)
  | .closure callee =>
    if tail then fun machine => .ok .nil (machine.defer ⟨callee, args⟩)
    else invoke ⟨callee, args⟩
  | other => do Run.fail (.notProcedure (← Run.printed other))

section

variable (tailCalls : Bool) (invoke : Call → Run Value)

mutual

/-- Evaluates a tree in a scope. -/
def evaluate : Expr → ScopeId → Run Value
  | .bool value, _ => return .bool value
  | .int value, _ => return .int value
  | .ident name, scope => Run.lookup scope name
  | .quote datum, _ => Run.making datum.quoted
  | .list items, scope => do
    let tail ← Run.takeTailMark tailCalls
    match ← evaluateAll items scope with
    | [] => Run.fail .missingProcedure
    | operator :: args => applyTo invoke tail operator args
  | .define name value, scope => do
    Run.setFinal false
    let value ← evaluate value scope
    Run.define scope name value
    return .nil
  | .set name value, scope => do
    Run.setFinal false
    let value ← evaluate value scope
    Run.assign scope name value
    return .nil
  | .lambda params body, scope => Run.close params body scope
  | .cond branches, scope => do
    let tail ← Run.takeTailMark tailCalls
    evaluateBranches branches scope tail

/-- Evaluates trees from left to right. -/
def evaluateAll : List Expr → ScopeId → Run (List Value)
  | [], _ => return []
  | item :: items, scope => do
    let value ← evaluate item scope
    let values ← evaluateAll items scope
    return value :: values

/-- Evaluates the expressions of a body in order; the last one gives the value. -/
def evaluateBody : List Expr → ScopeId → Run Value
  | [], _ => return .nil
  | [last], scope => do
    Run.setFinal true
    evaluate last scope
  | item :: next :: rest, scope => do
    Run.setFinal false
    let _ ← evaluate item scope
    evaluateBody (next :: rest) scope

/-- Evaluates the body of the first branch whose test holds, in a scope of its own; `tail` tells
whether that body is in tail position. -/
def evaluateBranches : List Branch → ScopeId → (tail : Bool) → Run Value
  | [], _, _ => return .nil
  | .otherwise body :: _, scope, tail => do
    let inner ← Run.openScope scope []
    Run.withMarks tail (evaluateBody body inner)
  | .test guard body :: branches, scope, tail => do
    match ← evaluate guard scope with
    | .bool true => do
      let inner ← Run.openScope scope []
      Run.withMarks tail (evaluateBody body inner)
    | .bool false => evaluateBranches branches scope tail
    | other => Run.fail (.conditionNotBoolean (← Run.printed other))

end

/-- Checks the number of arguments of a call. -/
def checkCount (call : Call) : Run Unit := fun machine =>
  let expected := call.callee.params.length
  if call.args.length = expected then .ok () machine
  else
    let name := machine.heap.displayName call.callee
    .error (.failed (.arityMismatch name (.exact expected) call.args.length)) machine

/-- Runs the body of a closure once, in a new scope that binds the arguments. -/
def enter (call : Call) : Run Value := do
  checkCount call
  let bindings := Bindings.bindAll (call.callee.params.zip call.args) []
  let scope ← Run.openScope call.callee.scope bindings
  Run.withMarks true (evaluateBody tailCalls invoke call.callee.body scope)

/-- Runs a call in the innermost frame, and then whatever is deferred there, as often as the
budget allows. -/
def runCalls : (budget : Nat) → Call → Run Value
  | 0, call => do
    let value ← enter tailCalls invoke call
    match ← Run.takeDeferred with
    | none => return value
    | some _ => throw .outOfBudget
  | budget + 1, call => do
    let value ← enter tailCalls invoke call
    match ← Run.takeDeferred with
    | none => return value
    | some next => runCalls budget next

end

/-- Runs a call in a frame of its own, if there is room for one more. -/
def invoke (config : Config) (budget : Nat) : (room : Nat) → Call → Run Value
  | 0, _ => Run.fail (.callDepthExceeded config.maxDepth)
  | room + 1, call =>
    Run.withFrame call.callee
      (runCalls config.tailCalls (invoke config budget room) budget call)

/-- Evaluates an expanded tree at the top level. A failure leaves no frame behind. -/
def eval (config : Config) (budget : Nat) (e : Expr) : Run Value := fun machine =>
  match evaluate config.tailCalls (invoke config budget config.maxDepth) e Heap.root
      machine.begin with
  | .ok value machine => .ok value machine
  | .error stop machine => .error stop machine.reset

/-- Expands a tree and evaluates it at the top level. -/
def evalDatum (config : Config) (budget : Nat) (raw : Expr) : Run Value :=
  match raw.expand with
  | .error keyword => Run.fail (.malformed keyword)
  | .ok e => eval config budget e

/-- Evaluates what a reader hands out, up to the first failure; the value is that of the last
expression, or `last` if there is none. -/
def evalItems (config : Config) (budget : Nat) (last : Value) :
    List (Except ReadError Expr) → Run Value
  | [] => return last
  | .error error :: _ => Run.fail (.read error)
  | .ok raw :: items => do
    let value ← evalDatum config budget raw
    evalItems config budget value items

/-- Evaluates a program text. -/
def evalProgram (config : Config) (budget : Nat) (comments : Bool) (text : String) : Run Value :=
  evalItems config budget .nil (Reader.ofString comments text).items

end TailScheme
