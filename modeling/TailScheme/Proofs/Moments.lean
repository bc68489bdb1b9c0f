import TailScheme.Evaluation
import Mathlib.Computability.StateTransition

/-!
# The moments of an evaluation

`evaluate` says what comes out of an evaluation. What happens on the way is said here: an
evaluation passes through moments, each with a task that is done next, the things that wait for
its result, and the machine. `Moment.next` does one task. It decides nothing on its own account:
the marks, the frames and the heap are changed by the steps that `evaluate` takes, in the same
order.

A moment also knows the place in the code of the expression that is evaluated. The code is the
body that the innermost frame runs or, while no procedure runs, the tree that was given. Places
leave no trace in the machine; they are there to say which expression a moment is about, and
`Place.isTail` says by the code alone which places are in tail position.
-/
namespace TailScheme

/-- A place in a piece of code: the code itself, a body in it, or an expression. -/
inductive Place where
  /-- The code itself, which is a body. -/
  | code
  /-- The body of a branch. -/
  | clause (choice : Place) (index : Nat)
  /-- An expression of a body. -/
  | item (body : Place) (index : Nat)
  /-- The operator of an application, which has index zero, or an operand. -/
  | operand (application : Place) (index : Nat)
  /-- The expression whose value a definition or an assignment takes. -/
  | bound (binding : Place)
  /-- The test of a branch. -/
  | guard (choice : Place) (index : Nat)

namespace Place

mutual

/-- The body at a place. -/
def body? (code : List Expr) : Place → Option (List Expr)
  | .code => some code
  | .clause choice index =>
    match choice.expr? code with
    | some (.cond branches) => branches[index]?.map Branch.body
    | _ => none
  | _ => none

/-- The expression at a place. -/
def expr? (code : List Expr) : Place → Option Expr
  | .item body index => (body.body? code).bind fun items => items[index]?
  | .operand application index =>
    match application.expr? code with
    | some (.list items) => items[index]?
    | _ => none
  | .bound binding =>
    match binding.expr? code with
    | some (.define _ value) | some (.set _ value) => some value
    | _ => none
  | .guard choice index =>
    match choice.expr? code with
    | some (.cond branches) => branches[index]?.bind Branch.guard?
    | _ => none
  | _ => none

end

/-- Whether an expression is the last one of a body. -/
def isLast (code : List Expr) (body : Place) (index : Nat) : Bool :=
  (body.body? code).any fun items => items.length == index + 1

/-- Whether a place is in tail position: the last expression of the code is, and so is the last
expression of each branch body of a `cond` that is itself in tail position. -/
def isTail (code : List Expr) : Place → Bool
  | .code => true
  | .clause choice _ => choice.isTail code
  | .item body index => body.isTail code && isLast code body index
  | _ => false

end Place

/-- What a procedure that runs stands for: its code, and the stack of its caller. -/
structure Level where
  /-- The body of the procedure or, while none runs, the tree that was given. -/
  code : List Expr
  /-- The stack of the caller, if a procedure runs. -/
  caller? : Option Stack

/-- The level of the innermost procedure. -/
def Stack.level (tree : Expr) (stack : Stack) : Level :=
  match stack.frames with
  | [] => ⟨[tree], none⟩
  | top :: _ => ⟨top.running.body, some stack.pop⟩

/-- What waits for a value. -/
inductive Pending where
  /-- The operands after the one that is evaluated; `values` are those before it. -/
  | operands (place : Place) (tail : Bool) (values : List Value) (items : List Expr)
      (scope : ScopeId)
  /-- The definition of a name. -/
  | define (name : String) (scope : ScopeId)
  /-- The assignment to a name. -/
  | set (name : String) (scope : ScopeId)
  /-- The branch whose test is evaluated, and the branches after it. -/
  | choose (place : Place) (index : Nat) (body : List Expr) (branches : List Branch)
      (scope : ScopeId) (tail : Bool)
  /-- The expressions that follow in a body. -/
  | sequence (place : Place) (index : Nat) (items : List Expr) (scope : ScopeId)
  /-- The end of a body, where both marks are put back. -/
  | marks (frame own : Bool)
  /-- The end of a frame. -/
  | frame

/-- What is done next. -/
inductive Task where
  /-- Evaluates the expression at a place. -/
  | evaluate (place : Place) (e : Expr) (scope : ScopeId)
  /-- Evaluates the operands that are left and applies the first value to the others. -/
  | operands (place : Place) (tail : Bool) (values : List Value) (items : List Expr)
      (scope : ScopeId)
  /-- Applies a procedure. -/
  | apply (place : Place) (tail : Bool) (operator : Value) (args : List Value)
  /-- Evaluates what is left of a body. -/
  | body (place : Place) (index : Nat) (items : List Expr) (scope : ScopeId)
  /-- Chooses among the branches that are left. -/
  | branches (place : Place) (index : Nat) (branches : List Branch) (scope : ScopeId)
      (tail : Bool)
  /-- Starts a call in the innermost frame. -/
  | enter (call : Call)
  /-- Hands a value to what waits for it. -/
  | give (value : Value)
  /-- Gives up. -/
  | stop (cause : Stop)

/-- A moment of an evaluation. -/
structure Moment where
  /-- What is done next. -/
  task : Task
  /-- What waits for the result, the first to have it first. -/
  pending : List Pending
  /-- The machine as it stands. -/
  machine : Machine

namespace Moment

/-- The number of running procedures. -/
def depth (s : Moment) : Nat := s.machine.depth

/-- The code that places are about. -/
def code (tree : Expr) (s : Moment) : List Expr := (s.machine.stack.level tree).code

/-- Does a step of the machine and goes on with its result. -/
def proceed {α : Type} (run : Run α) (pending : List Pending) (machine : Machine)
    (go : α → Machine → Moment) : Moment :=
  match run machine with
  | .ok result machine => go result machine
  | .error cause machine => ⟨.stop cause, pending, machine⟩

/-- Hands over the value that a step of the machine gives. -/
def proceedWith (run : Run Value) (pending : List Pending) (machine : Machine) : Moment :=
  proceed run pending machine fun value machine => ⟨.give value, pending, machine⟩

/-- Sets the mark of the innermost frame and starts a body. -/
def start (place : Place) (items : List Expr) (scope : ScopeId) (final : Bool)
    (pending : List Pending) (machine : Machine) : Moment :=
  ⟨.body place 0 items scope, .marks machine.stack.isFinal machine.final :: pending,
    machine.mark final⟩

/-- Opens a scope for the body of a branch and starts the body. -/
def choose (place : Place) (index : Nat) (body : List Expr) (scope : ScopeId) (tail : Bool)
    (pending : List Pending) (machine : Machine) : Moment :=
  proceed (Run.openScope scope []) pending machine fun inner machine =>
    start (.clause place index) body inner tail pending machine

/-- The moment after the first step of an expression. -/
def evaluating (config : Config) (place : Place) (scope : ScopeId) (pending : List Pending)
    (machine : Machine) : Expr → Moment
  | .bool value => ⟨.give (.bool value), pending, machine⟩
  | .int value => ⟨.give (.int value), pending, machine⟩
  | .ident name => proceedWith (Run.lookup scope name) pending machine
  | .quote datum => proceedWith (Run.making datum.quoted) pending machine
  | .list items =>
    proceed (Run.takeTailMark config.tailCalls) pending machine fun tail machine =>
      ⟨.operands place tail [] items scope, pending, machine⟩
  | .define name value =>
    proceed (Run.setFinal false) pending machine fun _ machine =>
      ⟨.evaluate (.bound place) value scope, .define name scope :: pending, machine⟩
  | .set name value =>
    proceed (Run.setFinal false) pending machine fun _ machine =>
      ⟨.evaluate (.bound place) value scope, .set name scope :: pending, machine⟩
  | .lambda params body => proceedWith (Run.close params body scope) pending machine
  | .cond branches =>
    proceed (Run.takeTailMark config.tailCalls) pending machine fun tail machine =>
      ⟨.branches place 0 branches scope tail, pending, machine⟩

/-- The moment after an application. A call outside tail position needs room for a frame. -/
def applying (config : Config) (tail : Bool) (args : List Value) (pending : List Pending)
    (machine : Machine) : Value → Moment
  | .builtin procedure => proceedWith (Run.making (procedure.apply args)) pending machine
  | .closure callee =>
    if tail then ⟨.give .nil, pending, machine.defer ⟨callee, args⟩⟩
    else if machine.depth < config.maxDepth then
      ⟨.enter ⟨callee, args⟩, .frame :: pending, machine.push callee⟩
    else ⟨.stop (.failed (.callDepthExceeded config.maxDepth)), pending, machine⟩
  | other => ⟨.stop (.failed (.notProcedure (machine.heap.text other))), pending, machine⟩

/-- The moment after a call starts in the innermost frame. -/
def entering (call : Call) (pending : List Pending) (machine : Machine) : Moment :=
  proceed (checkCount call) pending machine fun _ machine =>
    proceed (Run.openScope call.callee.scope
        (Bindings.bindAll (call.callee.params.zip call.args) [])) pending machine
      fun scope machine => start .code call.callee.body scope true pending machine

/-- The moment after a value reached what waits for it. -/
def resuming (value : Value) (pending : List Pending) (machine : Machine) : Pending → Moment
  | .operands place tail values items scope =>
    ⟨.operands place tail (values ++ [value]) items scope, pending, machine⟩
  | .define name scope =>
    proceed (Run.define scope name value) pending machine fun _ machine =>
      ⟨.give .nil, pending, machine⟩
  | .set name scope =>
    proceed (Run.assign scope name value) pending machine fun _ machine =>
      ⟨.give .nil, pending, machine⟩
  | .choose place index body branches scope tail =>
    match value with
    | .bool true => choose place index body scope tail pending machine
    | .bool false => ⟨.branches place (index + 1) branches scope tail, pending, machine⟩
    | other =>
      ⟨.stop (.failed (.conditionNotBoolean (machine.heap.text other))), pending, machine⟩
  | .sequence place index items scope => ⟨.body place index items scope, pending, machine⟩
  | .marks frame own => ⟨.give value, pending, { machine.mark frame with final := own }⟩
  | .frame =>
    match machine.stack.deferred? with
    | some call =>
      ⟨.enter call, .frame :: pending, { machine with stack := machine.stack.clearDeferred }⟩
    | none => ⟨.give value, pending, machine.pop⟩

/-- The machine after an end without a value has passed what waits. -/
def abandon (machine : Machine) : Pending → Machine
  | .frame => machine.pop
  | _ => machine

/-- The next moment; none when the evaluation has come to its end. -/
def next (config : Config) : Moment → Option Moment
  | ⟨.evaluate place e scope, pending, machine⟩ =>
    some (evaluating config place scope pending machine e)
  | ⟨.operands place tail values (item :: items) scope, pending, machine⟩ =>
    some ⟨.evaluate (.operand place values.length) item scope,
      .operands place tail values items scope :: pending, machine⟩
  | ⟨.operands _ _ [] [] _, pending, machine⟩ =>
    some ⟨.stop (.failed .missingProcedure), pending, machine⟩
  | ⟨.operands place tail (operator :: args) [] _, pending, machine⟩ =>
    some ⟨.apply place tail operator args, pending, machine⟩
  | ⟨.apply _ tail operator args, pending, machine⟩ =>
    some (applying config tail args pending machine operator)
  | ⟨.body _ _ [] _, pending, machine⟩ => some ⟨.give .nil, pending, machine⟩
  | ⟨.body place index [last] scope, pending, machine⟩ =>
    some ⟨.evaluate (.item place index) last scope, pending, { machine with final := true }⟩
  | ⟨.body place index (item :: another :: rest) scope, pending, machine⟩ =>
    some ⟨.evaluate (.item place index) item scope,
      .sequence place (index + 1) (another :: rest) scope :: pending,
      { machine with final := false }⟩
  | ⟨.branches _ _ [] _ _, pending, machine⟩ => some ⟨.give .nil, pending, machine⟩
  | ⟨.branches place index (.otherwise body :: _) scope tail, pending, machine⟩ =>
    some (choose place index body scope tail pending machine)
  | ⟨.branches place index (.test guard body :: branches) scope tail, pending, machine⟩ =>
    some ⟨.evaluate (.guard place index) guard scope,
      .choose place index body branches scope tail :: pending, machine⟩
  | ⟨.enter call, pending, machine⟩ => some (entering call pending machine)
  | ⟨.give value, item :: pending, machine⟩ => some (resuming value pending machine item)
  | ⟨.stop cause, item :: pending, machine⟩ =>
    some ⟨.stop cause, pending, abandon machine item⟩
  | ⟨.give _, [], _⟩ | ⟨.stop _, [], _⟩ => none

/-- The first moment of the evaluation of a tree at the top level. -/
def first (tree : Expr) (machine : Machine) : Moment :=
  ⟨.evaluate (.item .code 0) tree Heap.root, [], machine.begin⟩

end Moment

end TailScheme
