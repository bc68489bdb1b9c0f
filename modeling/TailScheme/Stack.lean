import TailScheme.Value

/-!
# The call stack

The stack holds one frame for each running procedure. A call in tail position does not run
inside the frame of its caller. It is deferred to that frame, and the frame, once its body has
ended, goes on with it instead of returning. A frame also carries the mark that its body is
running at the end of the procedure, which is one half of what makes a call a tail call.
-/
namespace TailScheme

/-- A closure with the arguments it is called with. -/
structure Call where
  callee : Closure
  args : List Value

/-- A running procedure. -/
structure Frame where
  /-- The procedure that runs, or that runs next if a call is deferred. -/
  running : Closure
  /-- The call that the frame goes on with when its body has ended. -/
  deferred : Option Call
  /-- Whether the body that is evaluated ends the procedure. -/
  final : Bool

/-- The running procedures. -/
structure Stack where
  /-- The frames, the innermost first. -/
  frames : List Frame
  /-- How many frames there are. -/
  depth : Nat
  /-- The depth counts the frames. -/
  depth_eq : depth = frames.length

namespace Stack

/-- No procedure is running. -/
def empty : Stack := ⟨[], 0, rfl⟩

/-- Starts a procedure in a frame of its own. -/
def push (stack : Stack) (running : Closure) : Stack :=
  ⟨⟨running, none, false⟩ :: stack.frames, stack.depth + 1, by simp [stack.depth_eq]⟩

/-- Ends the innermost procedure. -/
def pop (stack : Stack) : Stack :=
  ⟨stack.frames.tail, stack.depth - 1, by simp [stack.depth_eq]⟩

/-- Changes the innermost frame. -/
def onTop (stack : Stack) (change : Frame → Frame) : Stack :=
  ⟨stack.frames.modifyHead change, stack.depth, by simp [stack.depth_eq]⟩

/-- Whether the body that is evaluated ends the innermost procedure. -/
def isFinal (stack : Stack) : Bool :=
  match stack.frames with
  | [] => false
  | top :: _ => top.final

/-- Sets the mark of the innermost frame. -/
def mark (stack : Stack) (final : Bool) : Stack :=
  stack.onTop fun top => { top with final }

/-- Defers a call to the innermost frame. -/
def defer (stack : Stack) (call : Call) : Stack :=
  stack.onTop fun _ => ⟨call.callee, some call, false⟩

/-- The call that is deferred to the innermost frame. -/
def deferred? (stack : Stack) : Option Call :=
  match stack.frames with
  | [] => none
  | top :: _ => top.deferred

/-- Takes the deferred call off the innermost frame. -/
def clearDeferred (stack : Stack) : Stack :=
  stack.onTop fun top => { top with deferred := none }

/-- Two stacks with the same frames are the same. -/
@[ext] theorem ext {stack other : Stack} (frames : stack.frames = other.frames) :
    stack = other := by
  obtain ⟨_, _, depth_eq⟩ := stack
  obtain ⟨_, _, other_eq⟩ := other
  subst frames depth_eq other_eq
  rfl

/-- Ending the procedure just started leaves the stack as it was. -/
@[simp] theorem pop_push (stack : Stack) (running : Closure) :
    (stack.push running).pop = stack := by
  ext : 1
  rfl

end Stack

end TailScheme
