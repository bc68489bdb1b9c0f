import TailScheme.Proofs.Isolation
import TailScheme.Proofs.Answers

/-!
# What stands in for a result

A call in tail position has no result yet when the expression is done; `nil` is handed over in its
place. That value never gets anywhere: it passes the ends of bodies up to the end of its frame,
where the frame goes on with the call (`Moment.Dropped`). While it is on its way, no other call
waits, and at all other moments no call waits at all (`Moment.OneWaits`). So what is stored, passed,
tested or returned is never a value that stands in for another.

Around this, an expression keeps the stack in shape on whatever machine it is evaluated
(`Stack.InShape`), and a call comes to the same whoever calls it.
-/
namespace TailScheme

open StateTransition

/-- What a call outside tail position does where the machine stands: it has the room that is left
on the stack. -/
def Config.calls (config : Config) (budget : Nat) (machine : Machine) : Call → Run Value :=
  invoke config budget (config.maxDepth - machine.depth)

/-- A stack that an expression has left in shape when it gives a value, where `tail` tells whether
it was in tail position. -/
structure Stack.InShape (tail : Bool) (stack : Stack) (value : Value) (after : Stack) : Prop where
  /-- There are as many frames as there were. -/
  depth_eq : after.depth = stack.depth
  /-- The frames below the innermost one are as they were. -/
  below : after.frames.tail = stack.frames.tail
  /-- Nothing has changed, neither marks nor what is deferred; or the expression was in tail
  position, a call is deferred to the innermost frame, and the value stands in for its result. -/
  top : after = stack ∨ tail = true ∧ value = .nil ∧
    ∃ call final, after.frames = ⟨call.callee, some call, final⟩ :: stack.frames.tail

/-- What an expression leaves is in shape. -/
theorem Stack.Balanced.inShape {tail own : Bool} {stack after : Stack} {value : Value}
    (balanced : Balanced (tail && stack.isFinal && own) stack value after) :
    InShape (tail && stack.isFinal && own) stack value after := by
  refine ⟨balanced.depth_eq, congrArg Stack.frames balanced.pop_eq, ?_⟩
  cases balanced with
  | same => exact .inl rfl
  | deferred call final is_tail =>
    refine .inr ⟨is_tail, rfl, call, final, ?_⟩
    -- The mark of the innermost frame is set, so there is one.
    obtain ⟨frames, depth, counted⟩ := stack
    cases frames with
    | nil => simp [Stack.isFinal] at is_tail
    | cons top rest => rfl

namespace Moment

/-- The value that is handed over stands in for the result of a call that is deferred to the
innermost frame, and is dropped: it passes the ends of bodies, and then the frame goes on with the
call, in the place of the procedure that made it. -/
inductive Dropped (config : Config) (call : Call) (below : List Frame) : Moment → Prop where
  /-- The end of a body puts the marks back and hands the value on. -/
  | marks {frame own : Bool} {pending : List Pending} {machine after : Machine}
      (follows : next config ⟨.give .nil, .marks frame own :: pending, machine⟩ =
        some ⟨.give .nil, pending, after⟩)
      (heap : after.heap = machine.heap)
      (onward : Dropped config call below ⟨.give .nil, pending, after⟩) :
      Dropped config call below ⟨.give .nil, .marks frame own :: pending, machine⟩
  /-- The frame goes on with the call. -/
  | frame {pending : List Pending} {machine after : Machine}
      (follows : next config ⟨.give .nil, .frame :: pending, machine⟩ =
        some ⟨.enter call, .frame :: pending, after⟩)
      (heap : after.heap = machine.heap)
      (frames : after.stack.frames = ⟨call.callee, none, false⟩ :: below) :
      Dropped config call below ⟨.give .nil, .frame :: pending, machine⟩

/-- No call waits, or one waits at the innermost frame while the value that stands in for its result
is on its way to the end of the frame. Whatever else is done at a moment, no call waits then. -/
def OneWaits (config : Config) (s : Moment) : Prop :=
  s.machine.stack.waiting = 0 ∨ ∃ call, s.machine.stack.deferred? = some call ∧
    s.machine.stack.waiting = 1 ∧ Dropped config call s.machine.stack.frames.tail s

section

variable {config : Config} {tree : Expr} {s t : Moment}

/-- A value that stands in for the result of a call is dropped where only ends of bodies wait. -/
theorem dropped_of_unwinds {call : Call} {caller : Stack} {pending : List Pending}
    {below : List Frame} (unwinds : Unwinds config.tailCalls tree caller pending) :
    ∀ (machine : Machine) (final : Bool),
      machine.stack.frames = ⟨call.callee, some call, final⟩ :: below →
      Dropped config call below ⟨.give .nil, pending, machine⟩ := by
  induction unwinds with
  | frame returns =>
    intro machine final frames
    have marked : (machine.stack.mark false).frames = ⟨call.callee, some call, false⟩ :: below := by
      simp [Stack.mark, Stack.onTop, frames]
    refine .marks rfl rfl (.frame (next_frame_of_some ?_) rfl ?_)
    · simp only [Machine.mark, Stack.deferred?, marked]
    · simp [Machine.mark, Stack.clearDeferred, Stack.onTop, marked]
  | marks mark outer ih =>
    intro machine final frames
    refine .marks rfl rfl (ih _ mark ?_)
    simp [Machine.mark, Stack.mark, Stack.onTop, frames]

/-- Where a call is applied in tail position and none waits, only that one waits then. -/
theorem oneWaits_of_tail {place : Place} {operator : Value} {args : List Value}
    {pending : List Pending} {machine : Machine}
    (consistent : Consistent config.tailCalls tree
      ⟨.apply place true operator args, pending, machine⟩)
    (none_waits : machine.stack.waiting = 0) :
    OneWaits config (applying config true args pending machine operator) := by
  cases operator with
  | closure callee =>
    obtain ⟨at_, tail_eq, _⟩ := consistent
    obtain ⟨caller, inside, unwinds⟩ := exists_unwinds at_ tail_eq.symm
    obtain ⟨top, below, frames⟩ := List.exists_cons_of_ne_nil
      (Stack.caller_isSome_iff.mp (Option.isSome_of_eq_some inside))
    have deferred : (machine.stack.defer ⟨callee, args⟩).deferred? = some ⟨callee, args⟩ :=
      Stack.deferred_defer _ inside
    have deferred_frames := Stack.frames_defer ⟨callee, args⟩ frames
    have one_more := Stack.waiting_clearDeferred deferred
    have at_most := Stack.waiting_defer_le machine.stack ⟨callee, args⟩
    refine .inr ⟨⟨callee, args⟩, deferred, ?_, ?_⟩
    · change (machine.stack.defer ⟨callee, args⟩).waiting = 1
      omega
    · change Dropped config _ (machine.stack.defer ⟨callee, args⟩).frames.tail _
      rw [deferred_frames]
      exact dropped_of_unwinds unwinds _ false deferred_frames
  | builtin procedure =>
    have same : (proceedWith (Run.making (procedure.apply args)) pending machine).counts =
        .of pending machine := counts_proceedWith (Run.onHeap_builtin procedure args)
    exact .inl ((congrArg Counts.waiting same).trans none_waits)
  | _ => exact .inl none_waits

/-- A value that is dropped is handed on, or its frame takes up the only call that waits. -/
theorem Dropped.oneWaits {call : Call} {below : List Frame} (dropped : Dropped config call below s)
    (below_eq : s.machine.stack.frames.tail = below)
    (deferred : s.machine.stack.deferred? = some call) (one : s.machine.stack.waiting = 1)
    (follows : next config s = some t) : OneWaits config t := by
  cases dropped with
  | @marks frame own pending machine after goes_on heap onward =>
    obtain rfl := Option.mem_unique goes_on follows
    cases goes_on
    refine .inr ⟨call, (Stack.deferred_mark _).trans deferred,
      (Stack.waiting_mark _ _).trans one, ?_⟩
    have same : (machine.stack.mark frame).frames.tail = below :=
      (congrArg Stack.frames (Stack.pop_mark machine.stack frame)).trans below_eq
    exact same ▸ onward
  | @frame pending machine after takes_up heap frames =>
    have goes_on : next config ⟨.give .nil, .frame :: pending, machine⟩ = _ :=
      next_frame_of_some deferred
    obtain rfl := Option.mem_unique goes_on follows
    have fewer : machine.stack.clearDeferred.waiting + 1 = 1 :=
      (Stack.waiting_clearDeferred deferred).trans one
    exact .inl (Nat.succ.inj fewer)

/-- A step leaves no call waiting but the one whose place is taken by the value that is handed
over. -/
theorem OneWaits.of_next (one : s.OneWaits config) (consistent : s.Consistent config.tailCalls tree)
    (follows : next config s = some t) : t.OneWaits config := by
  rcases one with none_waits | ⟨call, deferred, one, dropped⟩
  · rcases is_tail : s.isTailCall with _ | _
    · have step := step_of_next follows
      rw [is_tail] at step
      exact .inl (Nat.le_zero.mp (step.waiting_le.trans_eq none_waits))
    · obtain ⟨task, pending, machine⟩ := s
      cases task with
      | apply place tail operator args =>
        obtain rfl : tail = true := is_tail
        cases follows
        exact oneWaits_of_tail consistent none_waits
      | _ => cases is_tail
  · exact dropped.oneWaits rfl deferred one follows

/-- Throughout an evaluation no call waits but the one whose place is taken by the value that is
handed over. -/
theorem OneWaits.of_reaches (one : s.OneWaits config)
    (consistent : s.Consistent config.tailCalls tree) (reached : Reaches (next config) s t) :
    t.OneWaits config := by
  induction reached with
  | refl => exact one
  | tail before follows ih => exact ih.of_next (consistent.of_reaches before) follows

/-- An evaluation starts with no call waiting. -/
theorem oneWaits_first (config : Config) (tree : Expr) {machine : Machine}
    (rest : machine.stack = .empty) : (first tree machine).OneWaits config := by
  refine .inl ?_
  change machine.stack.waiting = 0
  rw [rest]
  rfl

/-- Where a value stands in for the result of a call, it is dropped. -/
theorem OneWaits.dropped {call : Call} (one : s.OneWaits config)
    (deferred : s.machine.stack.deferred? = some call) :
    Dropped config call s.machine.stack.frames.tail s := by
  rcases one with none_waits | ⟨other, found, _, dropped⟩
  · rw [Stack.deferred_of_waiting none_waits] at deferred
    cases deferred
  · rw [deferred] at found
    exact Option.some.inj found ▸ dropped

/-- An expression that is evaluated with the room there is leads where its moments lead. -/
theorem reaches_of_evaluate {place : Place} {e : Expr} {scope : ScopeId} {budget : Nat}
    {value : Value} {after : Machine} {pending : List Pending} {machine : Machine}
    (sound : Sound ⟨.evaluate place e scope, pending, machine⟩)
    (bound : machine.depth ≤ config.maxDepth)
    (ends : evaluate config.tailCalls (config.calls budget machine) e scope machine =
      .ok value after) :
    Reaches (next config) ⟨.evaluate place e scope, pending, machine⟩
      ⟨.give value, pending, after⟩ := by
  have depth_eq : machine.depth = Pending.live pending := sound.depth_eq
  have room_eq : Pending.live pending + (config.maxDepth - machine.depth) = config.maxDepth := by
    omega
  have leads := leads_evaluate (leads_invoke config budget (config.maxDepth - machine.depth)) e
    scope place pending machine ⟨sound, room_eq⟩
  change Leads _ _ _ _ _ (evaluate config.tailCalls (config.calls budget machine) e scope machine)
    at leads
  rw [ends] at leads
  exact leads

/-- An expression at its place leaves the stack as it was; or the place is in tail position in the
code that runs, and the value is dropped. -/
theorem stack_eq_or_dropped {place : Place} {e : Expr} {scope : ScopeId} {budget : Nat}
    {value : Value} {after : Machine} {pending : List Pending} {machine : Machine}
    (consistent : Consistent config.tailCalls tree
      ⟨.evaluate place e scope, pending, machine⟩)
    (ends : evaluate config.tailCalls (config.calls budget machine) e scope machine =
      .ok value after)
    (one : OneWaits config ⟨.give value, pending, after⟩) :
    after.stack = machine.stack ∨ config.tailCalls = true ∧ machine.stack.frames ≠ [] ∧
      place.isTail (machine.stack.level tree).code = true ∧ value = .nil ∧
      ∃ call, after.stack.deferred? = some call ∧
        Dropped config call machine.stack.frames.tail ⟨.give value, pending, after⟩ := by
  have balanced := balanced_evaluate (restores_invoke config budget _) e scope machine ends
  have shape := balanced.inShape
  rcases shape.top with same | ⟨is_tail, is_nil, call, final, frames⟩
  · exact .inl same
  · rw [tail_of_consistent consistent, Level.tail, Bool.and_eq_true, Bool.and_eq_true] at is_tail
    have deferred : after.stack.deferred? = some call := by
      simp only [Stack.deferred?, frames]
    refine .inr ⟨is_tail.1.1, Stack.caller_isSome_iff.mp is_tail.1.2, is_tail.2, is_nil, call,
      deferred, ?_⟩
    rw [← shape.below]
    exact one.dropped deferred

end

end Moment

/-- The operator and the operands of an application outside tail position have come to a call. -/
structure Applies (config : Config) (budget : Nat) (items : List Expr) (scope : ScopeId)
    (machine : Machine) (call : Call) (ready : Machine) : Prop where
  plain : (config.tailCalls && machine.stack.isFinal && machine.final) = false
  operands : evaluateAll config.tailCalls (config.calls budget machine) items scope
    { machine with final := false } = .ok (.closure call.callee :: call.args) ready

/-- An application outside tail position comes to what its call comes to. -/
theorem Applies.evaluate_eq {config : Config} {budget : Nat} {items : List Expr} {scope : ScopeId}
    {machine ready : Machine} {call : Call}
    (applies : Applies config budget items scope machine call ready) :
    evaluate config.tailCalls (config.calls budget machine) (.list items) scope machine =
      config.calls budget machine call ready := by
  rw [evaluate_list applies.operands, applies.plain]
  rfl

/-- With as much room, a call comes to the same on machines with the same heap. -/
theorem seen_calls_eq {config : Config} {budget : Nat} {machine other ready ready' : Machine}
    (depth : other.depth = machine.depth) (heap : ready.SameHeap ready') (call : Call) :
    seen (config.calls budget other call ready') =
      seen (config.calls budget machine call ready) := by
  rw [Config.calls, Config.calls, depth]
  exact seen_of_agree (isolated_invoke config budget _ call ready ready' heap) fun _ _ same => same

/-- Evaluation keeps the stack in shape, and the value that stands in for the result of a deferred
call never gets anywhere. On every machine, an expression that gives a value leaves as many frames
as it found and leaves those below the innermost one alone; and it leaves the innermost one alone,
its mark included, unless it was in tail position and has deferred a call to it.

At all moments of an evaluation no call waits at all, or the value that is handed over stands in for
the result of the only one that waits and is dropped. So where an expression is evaluated at its
place, nothing is deferred; when it gives a value, the stack is as it was, or the place is in tail
position in the code of the innermost procedure and the value, which is `nil`, is dropped.

What a call comes to, and the heap that it leaves, are told by the call, the heap and the depth,
whichever the marks and the frames of the callers are, and whichever application has made the call;
and so is what a frame comes to from the start of a call on, be it deferred or not. -/
theorem stack_stays_in_shape (config : Config) (budget : Nat) :
    (∀ (e : Expr) (scope : ScopeId) (machine after : Machine) (value : Value),
      evaluate config.tailCalls (config.calls budget machine) e scope machine = .ok value after →
      Stack.InShape (config.tailCalls && machine.stack.isFinal && machine.final) machine.stack value
        after.stack) ∧
    (∀ (tree : Expr) (start : Machine) (s : Moment), start.stack = .empty →
      Reaches (Moment.next config) (.first tree start) s →
      s.OneWaits config ∧
      ∀ (place : Place) (e : Expr) (scope : ScopeId) (after : Machine) (value : Value),
        s.task = .evaluate place e scope →
        evaluate config.tailCalls (config.calls budget s.machine) e scope s.machine =
          .ok value after →
        place.expr? (s.code tree) = some e ∧ s.machine.stack.deferred? = none ∧
        Reaches (Moment.next config) s ⟨.give value, s.pending, after⟩ ∧
        (after.stack = s.machine.stack ∨
          config.tailCalls = true ∧ s.machine.stack.frames ≠ [] ∧
          place.isTail (s.code tree) = true ∧ value = .nil ∧
          ∃ call, after.stack.deferred? = some call ∧
            Moment.Dropped config call s.machine.stack.frames.tail
              ⟨.give value, s.pending, after⟩)) ∧
    (∀ (call : Call) (machine other : Machine), machine.SameHeap other →
      other.depth = machine.depth →
      seen (config.calls budget other call other) =
        seen (config.calls budget machine call machine)) ∧
    (∀ (items items' : List Expr) (scope scope' : ScopeId) (call : Call)
      (machine ready other ready' : Machine),
      Applies config budget items scope machine call ready →
      Applies config budget items' scope' other call ready' →
      ready.SameHeap ready' → other.depth = machine.depth →
      seen (evaluate config.tailCalls (config.calls budget other) (.list items') scope' other) =
        seen (evaluate config.tailCalls (config.calls budget machine) (.list items) scope
          machine)) ∧
    (∀ (left : Nat) (call : Call) (below below' : List Frame) (machine other : Machine),
      machine.stack.frames = ⟨call.callee, none, false⟩ :: below →
      other.stack.frames = ⟨call.callee, none, false⟩ :: below' →
      machine.SameHeap other → other.depth = machine.depth →
      seen (runCalls config.tailCalls (config.calls budget other) left call other) =
        seen (runCalls config.tailCalls (config.calls budget machine) left call machine)) := by
  refine ⟨fun e scope machine after value ends => ?_, fun tree start s rest reached => ?_,
    fun call machine other heap depth => seen_calls_eq depth heap call,
    fun items items' scope scope' call machine ready other ready' applies applies' heap depth => ?_,
    fun left call below below' machine other frames frames' heap depth => ?_⟩
  · exact (balanced_evaluate (restores_invoke config budget _) e scope machine ends).inShape
  · have consistent := Moment.consistent_first config.tailCalls tree rest
    have one := Moment.oneWaits_first config tree rest
    have sound := (Moment.sound_first tree rest).of_reaches reached
    have bound : s.depth ≤ config.maxDepth := by
      refine Moment.depth_le_of_reaches reached ?_
      simp [Moment.first, Moment.depth, Machine.depth, Machine.begin, rest, Stack.empty]
    refine ⟨one.of_reaches consistent reached, ?_⟩
    intro place e scope after value evaluates ends
    obtain ⟨task, pending, machine⟩ := s
    obtain rfl : task = .evaluate place e scope := evaluates
    have here : Moment.Consistent config.tailCalls tree
        ⟨.evaluate place e scope, pending, machine⟩ := consistent.of_reaches reached
    have given := Moment.reaches_of_evaluate sound bound ends
    have one_then := one.of_reaches consistent (reached.trans given)
    exact ⟨here.2.1, here.1.undeferred, given, Moment.stack_eq_or_dropped here ends one_then⟩
  · rw [applies.evaluate_eq, applies'.evaluate_eq]
    exact seen_calls_eq depth heap call
  · have alike : Machine.Alike false machine other := by
      refine heap.alike ?_
      rw [frames, frames', List.head?_cons, List.head?_cons]
    rw [Config.calls, Config.calls, depth]
    exact seen_of_agree (respects_runCalls (isolated_invoke config budget _)
      (restores_invoke config budget _) left call machine other alike) fun _ _ same => same.heap

/-- In `((lambda () (cond (#t ((lambda (x) x) 5)))))` the choice gives a value that stands in for
the result of the inner procedure; the mark of the frame is put back on the frame of that procedure.
A call of the inner procedure comes to the same with the frame and the marks before the choice and
with those after it. Outside tail position, `((lambda (x) x) 5)` comes to the same as
`((lambda (x) x) (quote 5))` above a frame with another mark, and so does the frame of the call. -/
theorem stack_stays_in_shape_of_choice :
    let config : Config := ⟨true, 2⟩
    let operator : Expr := .lambda ["x"] [.ident "x"]
    let choice : Expr := .cond [.test (.bool true) [.list [operator, .int 5]]]
    let tree : Expr := .list [.lambda [] [choice]]
    let call : Call := ⟨⟨1, ["x"], [.ident "x"], 2⟩, [.int 5]⟩
    let s : Moment := ⟨.evaluate (.item .code 0) choice 1, [.marks false false, .frame],
      ⟨⟨Heap.initial.scopes.push ⟨some 0, []⟩, #[none], 0⟩,
        ⟨[⟨⟨0, [], [choice], 0⟩, none, true⟩], 1, rfl⟩, true, 1, 0⟩⟩
    let after : Machine :=
      ⟨⟨(Heap.initial.scopes.push ⟨some 0, []⟩).push ⟨some 1, []⟩, #[none, none], 0⟩,
        ⟨[⟨call.callee, some call, true⟩], 1, rfl⟩, false, 1, 1⟩
    let before : Machine := { s.machine with heap := after.heap }
    let inner : Machine := { s.machine with final := false }
    let other : Machine := inner.mark false
    let direct : Call := ⟨⟨1, ["x"], [.ident "x"], 1⟩, [.int 5]⟩
    let ready : Machine := { inner with heap := ⟨inner.heap.scopes, #[none, none], 0⟩ }
    let started : Machine := ready.push direct.callee
    let others : Machine := (ready.mark false).push direct.callee
    Reaches (Moment.next config) (.first tree .initial) s ∧
    evaluate config.tailCalls (config.calls 1 s.machine) choice 1 s.machine = .ok .nil after ∧
    Stack.InShape true s.machine.stack .nil after.stack ∧
    Moment.Dropped config call [] ⟨.give .nil, s.pending, after⟩ ∧
    seen (config.calls 1 after call after) = seen (config.calls 1 before call before) ∧
    (seen (config.calls 1 before call before)).1 = .ok (.int 5) ∧
    seen (evaluate config.tailCalls (config.calls 1 other) (.list [operator, .quote (.int 5)]) 1
      other) = seen (evaluate config.tailCalls (config.calls 1 inner) (.list [operator, .int 5]) 1
      inner) ∧
    seen (runCalls config.tailCalls (config.calls 1 others) 0 direct others) =
      seen (runCalls config.tailCalls (config.calls 1 started) 0 direct started) := by
  intro config operator choice tree call s after before inner other direct ready started others
  have path : Reaches (Moment.next config) (.first tree .initial) s :=
    Moment.reaches_of_steps (n := 8) rfl
  have ends : evaluate config.tailCalls (config.calls 1 s.machine) choice 1 s.machine =
    .ok .nil after := rfl
  have applies : Applies config 1 [operator, .int 5] 1 inner direct ready := ⟨rfl, rfl⟩
  have applies' : Applies config 1 [operator, .quote (.int 5)] 1 other direct (ready.mark false) :=
    ⟨rfl, rfl⟩
  obtain ⟨shape, moments, calls, applications, frames⟩ := stack_stays_in_shape config 1
  obtain ⟨_, _, _, left⟩ := (moments tree .initial s rfl path).2 (.item .code 0) choice 1 after .nil
    rfl ends
  refine ⟨path, ends, shape choice 1 s.machine after .nil ends, ?_, calls call before after rfl rfl,
    rfl, applications _ _ 1 1 direct inner ready other _ applies applies' rfl rfl,
    frames 0 direct _ _ started others rfl rfl rfl rfl⟩
  rcases left with same | ⟨_, _, _, _, made, deferred, dropped⟩
  · have undeferred : some call = none := congrArg Stack.deferred? same
    cases undeferred
  · cases deferred
    exact dropped

end TailScheme
