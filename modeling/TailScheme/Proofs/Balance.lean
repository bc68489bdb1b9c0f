import TailScheme.Proofs.Aftermath
import TailScheme.Proofs.Placement

/-!
# The balance of the stack

An expression that gives a value leaves the stack as it found it, marks and all. The one exception
is an expression in tail position: it may have deferred a call to the innermost frame, and then its
value is `nil`, which stands in for the result of the call (`Stack.Balanced`). Whether an expression
is in tail position is decided by the two marks that it finds; the parts of an expression find their
own mark off, so that nothing is deferred while they are evaluated.

A call that gives a value leaves the stack and the mark of the expression evaluated next exactly as
they were (`Restores`), because whatever its bodies do stays in a frame that is removed at the end.
Nothing is asked of the machine here: not that it can be reached, nor that there is a frame.
-/
namespace TailScheme

namespace Stack

variable (stack : Stack) (call : Call) (final : Bool)

/-- A call that is deferred takes the mark off, whatever it was. -/
@[simp] theorem defer_mark : (stack.mark final).defer call = stack.defer call := by
  obtain ⟨frames, depth, counted⟩ := stack
  cases frames <;> rfl

/-- The mark of a frame is gone with the frame. -/
@[simp] theorem pop_mark : (stack.mark final).pop = stack.pop := by
  obtain ⟨frames, depth, counted⟩ := stack
  cases frames <;> rfl

/-- A deferred call is gone with its frame. -/
@[simp] theorem pop_defer : (stack.defer call).pop = stack.pop := by
  obtain ⟨frames, depth, counted⟩ := stack
  cases frames <;> rfl

/-- Taking a deferred call up has to do with the innermost frame only. -/
@[simp] theorem pop_clearDeferred : stack.clearDeferred.pop = stack.pop := by
  obtain ⟨frames, depth, counted⟩ := stack
  cases frames <;> rfl

variable {stack final} in
/-- The mark is set only where it was set. -/
theorem eq_true_of_isFinal_mark (set : (stack.mark final).isFinal = true) : final = true := by
  obtain ⟨frames, depth, counted⟩ := stack
  cases frames with
  | nil => cases set
  | cons top rest => exact set

/-- What is left of a stack when an expression gives a value, where `tail` tells whether it is in
tail position. -/
inductive Balanced (tail : Bool) (stack : Stack) : Value → Stack → Prop where
  /-- The stack is as it was. -/
  | same (value : Value) : Balanced tail stack value stack
  /-- A call is deferred to the innermost frame, and the value stands in for its result. -/
  | deferred (call : Call) (final : Bool) (is_tail : tail = true) :
    Balanced tail stack .nil ((stack.defer call).mark final)

namespace Balanced

variable {tail other : Bool} {stack after : Stack} {value : Value}

/-- With its own mark off, an expression leaves the stack as it was. -/
theorem eq_of_unmarked {own : Bool} (balanced : Balanced (tail && own) stack value after)
    (unmarked : own = false) : after = stack := by
  cases balanced with
  | same => rfl
  | deferred call final is_tail => simp [unmarked] at is_tail

/-- What is in tail position may defer a call. -/
theorem mono (balanced : Balanced tail stack value after) (le : tail = true → other = true) :
    Balanced other stack value after := by
  cases balanced with
  | same => exact .same value
  | deferred call final is_tail => exact .deferred call final (le is_tail)

/-- The end of a body puts the mark of the frame back, also if a call was deferred to it. -/
theorem unmark {final : Bool} (balanced : Balanced tail (stack.mark final) value after) :
    Balanced tail stack value (after.mark stack.isFinal) := by
  cases balanced with
  | same =>
    rw [mark_mark, mark_isFinal]
    exact .same value
  | deferred call inner is_tail =>
    rw [defer_mark, mark_mark]
    exact .deferred call stack.isFinal is_tail

/-- The frames of the callers are as they were. -/
theorem pop_eq (balanced : Balanced tail stack value after) : after.pop = stack.pop := by
  cases balanced with
  | same => rfl
  | deferred call final is_tail => rw [pop_mark, pop_defer]

/-- A call that has just been deferred leaves the mark off. -/
theorem of_defer (call : Call) (is_tail : tail = true) :
    Balanced tail stack .nil (stack.defer call) := by
  have unmarked : Balanced tail stack .nil ((stack.defer call).mark (stack.defer call).isFinal) :=
    .deferred call _ is_tail
  rwa [mark_isFinal] at unmarked

/-- There are as many frames as there were. -/
theorem depth_eq (balanced : Balanced tail stack value after) : after.depth = stack.depth := by
  cases balanced <;> rfl

end Balanced

end Stack

namespace Run

variable {α β : Type}

/-- Two steps in a row give a value if each of them does. -/
theorem bind_eq_ok {run : Run α} {rest : α → Run β} {machine after : Machine} {result : β} :
    (run >>= rest) machine = .ok result after ↔
      ∃ value between, run machine = .ok value between ∧
        rest value between = .ok result after := by
  change EStateM.bind run rest machine = _ ↔ _
  unfold EStateM.bind
  cases run machine with
  | ok value between =>
    refine ⟨fun ends => ⟨value, between, rfl, ends⟩, ?_⟩
    rintro ⟨_, _, ⟨⟩, ends⟩
    exact ends
  | error stop between => exact ⟨nofun, nofun⟩

/-- A step on the heap leaves everything else alone. -/
theorem OnHeap.after_eq {run : Run α} (onHeap : run.OnHeap) {machine after : Machine} {result : α}
    (ends : run machine = .ok result after) : after = { machine with heap := after.heap } := by
  obtain ⟨act, _, acts⟩ := onHeap
  rw [acts machine] at ends
  split at ends
  · cases ends
    rfl
  · cases ends

/-- A step on the heap leaves the stack alone. -/
theorem OnHeap.stack_eq {run : Run α} (onHeap : run.OnHeap) {machine after : Machine} {result : α}
    (ends : run machine = .ok result after) : after.stack = machine.stack := by
  rw [onHeap.after_eq ends]

/-- A step on the heap leaves a balance, whatever position it is in. -/
theorem OnHeap.balanced {run : Run Value} (onHeap : run.OnHeap) {machine after : Machine}
    {value : Value} {tail : Bool} (ends : run machine = .ok value after) :
    Stack.Balanced tail machine.stack value after.stack := by
  rw [onHeap.stack_eq ends]
  exact .same value

/-- After a body that leaves a balance, its end leaves it too, and puts the other mark back. -/
theorem balanced_withMarks {body : Run Value} {final tail : Bool} {machine after : Machine}
    {value : Value}
    (inside : ∀ between, body (machine.mark final) = .ok value between →
      Stack.Balanced tail (machine.stack.mark final) value between.stack)
    (ends : withMarks final body machine = .ok value after) :
    Stack.Balanced tail machine.stack value after.stack ∧ after.final = machine.final := by
  unfold withMarks at ends
  split at ends
  · next value' between body_ends =>
    cases ends
    exact ⟨(inside between body_ends).unmark, rfl⟩
  · cases ends

end Run

/-- Calls that give a value leave the stack as it was, and the mark of the expression that is
evaluated next too. -/
def Restores (invoke : Call → Run Value) : Prop :=
  ∀ call machine value after, invoke call machine = .ok value after →
    after.stack = machine.stack ∧ after.final = machine.final

section

variable {tailCalls : Bool} {invoke : Call → Run Value}

/-- Calls that leave the mark as it was do not set it. -/
theorem Restores.leavesUnmarked (calls : Restores invoke) (call : Call) :
    (invoke call).LeavesUnmarked := by
  intro machine unmarked
  rcases ends : invoke call machine with ⟨value, after⟩ | ⟨stop, after⟩
  · exact (calls call machine value after ends).2.trans unmarked
  · trivial

/-- After an expression that sets no mark and gives a value, the mark is off. -/
theorem final_of_ok {α : Type} {run : Run α} {machine after : Machine} {result : α}
    (leaves : run.LeavesUnmarked) (unmarked : machine.final = false)
    (ends : run machine = .ok result after) : after.final = false := by
  have still := leaves machine unmarked
  rw [ends] at still
  exact still

/-- An application leaves a balance: a call in tail position is deferred, any other one has come
back. -/
theorem balanced_applyTo (calls : Restores invoke) {tail : Bool} {operator value : Value}
    {args : List Value} {machine after : Machine}
    (ends : applyTo invoke tail operator args machine = .ok value after) :
    Stack.Balanced tail machine.stack value after.stack := by
  cases operator with
  | builtin procedure => exact (Run.onHeap_builtin procedure args).balanced ends
  | closure callee =>
    cases tail with
    | true =>
      cases ends
      exact .of_defer ⟨callee, args⟩ rfl
    | false =>
      rw [(calls ⟨callee, args⟩ machine value after ends).1]
      exact .same value
  | _ => cases ends

/-- The body of a branch leaves a balance, where the mark tells whether it is in tail position. -/
theorem balanced_branch {scope : ScopeId} {tail : Bool} {body : ScopeId → Run Value}
    {machine after : Machine} {value : Value}
    (inside : ∀ inner between last, body inner between = .ok value last →
      Stack.Balanced (tailCalls && between.stack.isFinal) between.stack value last.stack)
    (ends : (Run.openScope scope [] >>= fun inner => Run.withMarks tail (body inner)) machine =
      .ok value after) :
    Stack.Balanced tail machine.stack value after.stack := by
  obtain ⟨inner, opened, opens, ends⟩ := Run.bind_eq_ok.mp ends
  have same := (Run.onHeap_openScope scope []).stack_eq opens
  obtain ⟨balanced, _⟩ :=
    Run.balanced_withMarks (fun last => inside inner (opened.mark tail) last) ends
  rw [same] at balanced
  refine balanced.mono fun is_tail => ?_
  rw [Bool.and_eq_true] at is_tail
  exact Stack.eq_true_of_isFinal_mark is_tail.2

/-- A definition or an assignment takes its own mark off, so that the stack is as it was. -/
theorem balanced_binding {tail : Bool} {run : Run Value} {write : Value → Run Unit}
    (onHeap : ∀ result, (write result).OnHeap) {machine after : Machine} {value : Value}
    (kept : ∀ {result between}, run { machine with final := false } = .ok result between →
      between.stack = machine.stack)
    (ends : (Run.setFinal false >>= fun _ => run >>= fun result => write result >>= fun _ =>
      pure .nil) machine = .ok value after) :
    Stack.Balanced tail machine.stack value after.stack := by
  obtain ⟨_, _, ⟨⟩, ends⟩ := Run.bind_eq_ok.mp ends
  obtain ⟨result, between, evaluated, ends⟩ := Run.bind_eq_ok.mp ends
  obtain ⟨_, written, writes, ⟨⟩⟩ := Run.bind_eq_ok.mp ends
  rw [(onHeap result).stack_eq writes, kept evaluated]
  exact .same _

mutual

/-- A tree that gives a value leaves a balance, where the marks tell whether it is in tail
position. -/
theorem balanced_evaluate (calls : Restores invoke) :
    ∀ (e : Expr) (scope : ScopeId) (machine : Machine) {after : Machine} {value : Value},
      evaluate tailCalls invoke e scope machine = .ok value after →
      Stack.Balanced (tailCalls && machine.stack.isFinal && machine.final) machine.stack value
        after.stack
  | .bool _, _, _, _, _, ends => by
    cases ends
    exact .same _
  | .int _, _, _, _, _, ends => by
    cases ends
    exact .same _
  | .ident name, scope, _, _, _, ends => (Run.onHeap_lookup scope name).balanced ends
  | .quote datum, _, _, _, _, ends => (Run.onHeap_quoted datum).balanced ends
  | .list items, scope, machine, after, value, ends => by
    obtain ⟨tail, started, ⟨⟩, ends⟩ := Run.bind_eq_ok.mp ends
    obtain ⟨values, between, operands, ends⟩ := Run.bind_eq_ok.mp ends
    have same := stack_evaluateAll calls items scope { machine with final := false } rfl operands
    cases values with
    | nil => cases ends
    | cons operator args =>
      have balanced := balanced_applyTo calls ends
      rw [same] at balanced
      exact balanced
  | .define name bound, scope, _, _, _, ends =>
    balanced_binding (Run.onHeap_define scope name)
      (fun evaluated => (balanced_evaluate calls bound scope _ evaluated).eq_of_unmarked rfl) ends
  | .set name bound, scope, _, _, _, ends =>
    balanced_binding (Run.onHeap_assign scope name)
      (fun evaluated => (balanced_evaluate calls bound scope _ evaluated).eq_of_unmarked rfl) ends
  | .lambda params body, scope, _, _, _, ends =>
    (Run.onHeap_close params body scope).balanced ends
  | .cond branches, scope, machine, after, value, ends => by
    obtain ⟨tail, started, ⟨⟩, ends⟩ := Run.bind_eq_ok.mp ends
    exact balanced_evaluateBranches calls branches scope { machine with final := false } rfl ends

/-- Operands leave the stack as it was. -/
theorem stack_evaluateAll (calls : Restores invoke) :
    ∀ (items : List Expr) (scope : ScopeId) (machine : Machine) {after : Machine}
      {values : List Value},
      machine.final = false → evaluateAll tailCalls invoke items scope machine = .ok values after →
      after.stack = machine.stack
  | [], _, _, _, _, _, ends => by
    cases ends
    rfl
  | item :: items, scope, machine, after, values, unmarked, ends => by
    obtain ⟨first, between, evaluated, ends⟩ := Run.bind_eq_ok.mp ends
    obtain ⟨rest, last, others, ⟨⟩⟩ := Run.bind_eq_ok.mp ends
    have still := final_of_ok (leavesUnmarked_evaluate calls.leavesUnmarked item scope) unmarked
      evaluated
    rw [stack_evaluateAll calls items scope between still others]
    exact (balanced_evaluate calls item scope machine evaluated).eq_of_unmarked unmarked

/-- A body leaves a balance, where the mark of the frame tells whether it is in tail position. -/
theorem balanced_evaluateBody (calls : Restores invoke) :
    ∀ (items : List Expr) (scope : ScopeId) (machine : Machine) {after : Machine} {value : Value},
      evaluateBody tailCalls invoke items scope machine = .ok value after →
      Stack.Balanced (tailCalls && machine.stack.isFinal) machine.stack value after.stack
  | [], _, _, _, _, ends => by
    cases ends
    exact .same _
  | [last], scope, machine, after, value, ends => by
    obtain ⟨_, started, ⟨⟩, ends⟩ := Run.bind_eq_ok.mp ends
    have balanced := balanced_evaluate calls last scope _ ends
    rwa [Bool.and_true] at balanced
  | item :: next :: rest, scope, machine, after, value, ends => by
    obtain ⟨_, started, ⟨⟩, ends⟩ := Run.bind_eq_ok.mp ends
    obtain ⟨_, between, evaluated, ends⟩ := Run.bind_eq_ok.mp ends
    have kept := (balanced_evaluate calls item scope _ evaluated).eq_of_unmarked rfl
    have balanced := balanced_evaluateBody calls (next :: rest) scope between ends
    rwa [kept] at balanced

/-- A choice among branches leaves a balance. -/
theorem balanced_evaluateBranches (calls : Restores invoke) :
    ∀ (branches : List Branch) (scope : ScopeId) {tail : Bool} (machine : Machine)
      {after : Machine} {value : Value}, machine.final = false →
      evaluateBranches tailCalls invoke branches scope tail machine = .ok value after →
      Stack.Balanced tail machine.stack value after.stack
  | [], _, _, _, _, _, _, ends => by
    cases ends
    exact .same _
  | .otherwise body :: _, scope, tail, machine, after, value, _, ends =>
    balanced_branch (fun inner between _ => balanced_evaluateBody calls body inner between) ends
  | .test guard body :: branches, scope, tail, machine, after, value, unmarked, ends => by
    obtain ⟨tested, between, evaluated, ends⟩ := Run.bind_eq_ok.mp ends
    have kept := (balanced_evaluate calls guard scope machine evaluated).eq_of_unmarked unmarked
    have still := final_of_ok (leavesUnmarked_evaluate calls.leavesUnmarked guard scope) unmarked
      evaluated
    rw [← kept]
    match tested, ends with
    | .bool true, ends =>
      exact balanced_branch
        (fun inner between _ => balanced_evaluateBody calls body inner between) ends
    | .bool false, ends => exact balanced_evaluateBranches calls branches scope between still ends

end

/-- The body of a closure leaves a balance, and puts the mark of the expression that is evaluated
next back. -/
theorem balanced_enter (calls : Restores invoke) {call : Call} {machine after : Machine}
    {value : Value} (ends : enter tailCalls invoke call machine = .ok value after) :
    Stack.Balanced true machine.stack value after.stack ∧ after.final = machine.final := by
  obtain ⟨_, checked, checks, ends⟩ := Run.bind_eq_ok.mp ends
  obtain ⟨scope, opened, opens, ends⟩ := Run.bind_eq_ok.mp ends
  have same := (Run.onHeap_openScope _ _).after_eq opens
  rw [(Run.onHeap_checkCount call).after_eq checks] at same
  obtain ⟨balanced, final⟩ := Run.balanced_withMarks
    (fun last => balanced_evaluateBody calls call.callee.body scope _) ends
  rw [same] at balanced final
  exact ⟨balanced.mono fun _ => rfl, final⟩

/-- What follows the body of a frame leaves the frames of the callers alone. -/
theorem pop_takeDeferred {machine after : Machine} {deferred : Option Call}
    (ends : Run.takeDeferred machine = .ok deferred after) :
    after.stack.pop = machine.stack.pop ∧ after.final = machine.final := by
  unfold Run.takeDeferred at ends
  split at ends
  · cases ends
    exact ⟨Stack.pop_clearDeferred _, rfl⟩
  · cases ends
    exact ⟨rfl, rfl⟩

/-- The body of a closure and what follows it leave the frames of the callers alone. -/
theorem pop_enter_takeDeferred (calls : Restores invoke) {call : Call} {value : Value}
    {deferred : Option Call} {machine between after : Machine}
    (entered : enter tailCalls invoke call machine = .ok value between)
    (taken : Run.takeDeferred between = .ok deferred after) :
    after.stack.pop = machine.stack.pop ∧ after.final = machine.final := by
  obtain ⟨balanced, final⟩ := balanced_enter calls entered
  obtain ⟨popped, still⟩ := pop_takeDeferred taken
  exact ⟨popped.trans balanced.pop_eq, still.trans final⟩

/-- The calls of a frame leave the frames of the callers alone, and the mark of the expression that
is evaluated next. -/
theorem pop_runCalls (calls : Restores invoke) (budget : Nat) :
    ∀ {call : Call} {machine after : Machine} {value : Value},
      runCalls tailCalls invoke budget call machine = .ok value after →
      after.stack.pop = machine.stack.pop ∧ after.final = machine.final := by
  induction budget with
  | zero =>
    intro call machine after value ends
    obtain ⟨result, between, entered, ends⟩ := Run.bind_eq_ok.mp ends
    obtain ⟨deferred, last, taken, ends⟩ := Run.bind_eq_ok.mp ends
    cases deferred with
    | none =>
      cases ends
      exact pop_enter_takeDeferred calls entered taken
    | some next => cases ends
  | succ budget ih =>
    intro call machine after value ends
    obtain ⟨result, between, entered, ends⟩ := Run.bind_eq_ok.mp ends
    obtain ⟨deferred, last, taken, ends⟩ := Run.bind_eq_ok.mp ends
    obtain ⟨popped, final⟩ := pop_enter_takeDeferred calls entered taken
    cases deferred with
    | none =>
      cases ends
      exact ⟨popped, final⟩
    | some next =>
      obtain ⟨popped_later, final_later⟩ := ih ends
      exact ⟨popped_later.trans popped, final_later.trans final⟩

end

/-- A call in a frame of its own leaves the stack as it was when it gives a value. -/
theorem restores_invoke (config : Config) (budget : Nat) :
    ∀ room, Restores (invoke config budget room) := by
  intro room
  induction room with
  | zero =>
    intro call machine value after ends
    cases ends
  | succ room ih =>
    intro call machine value after ends
    rw [invoke, Run.withFrame] at ends
    split at ends
    · next result last ran =>
      cases ends
      obtain ⟨popped, final⟩ := pop_runCalls ih budget ran
      exact ⟨popped.trans (Stack.pop_push machine.stack call.callee), final⟩
    · cases ends

end TailScheme
