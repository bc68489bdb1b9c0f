import TailScheme.Proofs.Balance

/-!
# What a call can tell of its caller

A call runs in a frame of its own, whose mark its body sets, and nothing looks below the innermost
frame. So what a call comes to, and the heap that it leaves, are a matter of the call, the heap and
the room that is left on the stack: two machines with the same heap may have different frames, other
marks and other deferred calls, and the call does not tell them apart (`agree_invoke`).

An expression sees more: the mark of the innermost frame, its own mark, and whether a call is
deferred. Machines that are alike in these too are what the induction along an evaluation is about
(`Machine.Alike`). The parts of a body mark themselves, so a body does not see its own mark.
-/
namespace TailScheme

/-- Two machines with the same heap. -/
def Machine.SameHeap (machine other : Machine) : Prop := other.heap = machine.heap

/-- Two machines with the same heap and the same innermost frame and, if `own` says so, with the
same mark for the expression that is evaluated next. -/
structure Machine.Alike (own : Bool) (machine other : Machine) : Prop where
  heap : machine.SameHeap other
  top : other.stack.frames.head? = machine.stack.frames.head?
  final : own = true → other.final = machine.final

/-- Where the mark of the next expression does not count, heap and innermost frame are enough. -/
theorem Machine.SameHeap.alike {machine other : Machine} (heap : machine.SameHeap other)
    (top : other.stack.frames.head? = machine.stack.frames.head?) :
    Machine.Alike false machine other :=
  ⟨heap, top, nofun⟩

namespace Stack

section

variable {stack other : Stack} (top : other.frames.head? = stack.frames.head?)
include top

/-- Changing the innermost frames of stacks that have the same one leaves them with the same one. -/
theorem head?_onTop (change : Frame → Frame) :
    (other.onTop change).frames.head? = (stack.onTop change).frames.head? := by
  simp only [onTop, List.head?_modifyHead, top]

/-- The mark is that of the innermost frame. -/
theorem isFinal_congr : other.isFinal = stack.isFinal := by
  obtain ⟨frames, depth, counted⟩ := stack
  obtain ⟨others, other_depth, other_counted⟩ := other
  cases frames <;> cases others <;> simp_all [isFinal]

/-- The deferred call is that of the innermost frame. -/
theorem deferred_congr : other.deferred? = stack.deferred? := by
  obtain ⟨frames, depth, counted⟩ := stack
  obtain ⟨others, other_depth, other_counted⟩ := other
  cases frames <;> cases others <;> simp_all [deferred?]

end

end Stack

namespace Run

variable {α β : Type}

/-- Two results that are the same but for what is left of the machines: after a value as much as
`alike` says, and after anything else the heap. -/
inductive Agree (alike : Machine → Machine → Prop) :
    EStateM.Result Stop Machine α → EStateM.Result Stop Machine α → Prop where
  | ok {value : α} {after other : Machine} (same : alike after other) :
    Agree alike (.ok value after) (.ok value other)
  | error {stop : Stop} {after other : Machine} (same : after.SameHeap other) :
    Agree alike (.error stop after) (.error stop other)

/-- More may be known of machines that values are left on. -/
theorem Agree.imp {alike closer : Machine → Machine → Prop}
    {result second : EStateM.Result Stop Machine α} (agree : Agree alike result second)
    (more : ∀ value after other, result = .ok value after → second = .ok value other →
      alike after other → closer after other) : Agree closer result second := by
  cases agree with
  | ok same => exact .ok (more _ _ _ rfl rfl same)
  | error same => exact .error same

/-- A step that comes to the same on machines that are alike. -/
def Respects (before after : Machine → Machine → Prop) (run : Run α) : Prop :=
  ∀ machine other, before machine other → Agree after (run machine) (run other)

section

variable {own : Bool} {R S T : Machine → Machine → Prop}

/-- Two steps in a row. -/
theorem Respects.bind {run : Run α} {rest : α → Run β} (first : run.Respects R S)
    (second : ∀ value, (rest value).Respects S T) : (run >>= rest).Respects R T := by
  intro machine other alike
  change Agree T (EStateM.bind run rest machine) (EStateM.bind run rest other)
  unfold EStateM.bind
  match run machine, run other, first machine other alike with
  | _, _, .ok same => exact second _ _ _ same
  | _, _, .error same => exact .error same

/-- Handing a value back changes nothing. -/
theorem respects_pure (value : α) : (pure value : Run α).Respects R R :=
  fun _ _ alike => .ok alike

/-- A failure leaves the heap alone. -/
theorem respects_fail (error : Error) :
    (fail error : Run α).Respects (Machine.Alike own) R :=
  fun _ _ alike => .error alike.heap

/-- A step on the heap does not tell machines with the same heap apart. -/
theorem OnHeap.respects {run : Run α} (onHeap : run.OnHeap) :
    run.Respects (Machine.Alike own) (Machine.Alike own) := by
  intro machine other alike
  obtain ⟨act, _, acts⟩ := onHeap
  rw [acts machine, acts other, alike.heap]
  rcases act machine.heap with ⟨error | result, heap⟩
  · exact .error rfl
  · exact .ok ⟨rfl, alike.top, alike.final⟩

/-- Machines on which the mark is set are alike in it. -/
theorem respects_setFinal (final : Bool) :
    (setFinal final).Respects (Machine.Alike own) (Machine.Alike true) :=
  fun _ _ alike => .ok ⟨alike.heap, alike.top, fun _ => rfl⟩

/-- Whether an expression is in tail position is told by the two marks. -/
theorem respects_takeTailMark (tailCalls : Bool) :
    (takeTailMark tailCalls).Respects (Machine.Alike true) (Machine.Alike true) := by
  intro machine other alike
  unfold takeTailMark
  rw [Stack.isFinal_congr alike.top, alike.final rfl]
  exact .ok ⟨alike.heap, alike.top, fun _ => rfl⟩

/-- The deferred call is taken off the innermost frame. -/
theorem respects_takeDeferred :
    takeDeferred.Respects (Machine.Alike own) (Machine.Alike own) := by
  intro machine other alike
  unfold takeDeferred
  rw [Stack.deferred_congr alike.top]
  cases machine.stack.deferred? with
  | none => exact .ok alike
  | some call => exact .ok ⟨alike.heap, Stack.head?_onTop alike.top _, alike.final⟩

/-- A message that shows a value is told by the heap. -/
theorem respects_refusal (value : Value) (message : String → Error) :
    (do fail (message (← printed value)) : Run α).Respects (Machine.Alike own) R := by
  intro machine other alike
  have same : other.heap.text value = machine.heap.text value := by rw [alike.heap]
  change Agree R (.error (.failed (message (machine.heap.text value))) machine)
    (.error (.failed (message (other.heap.text value))) other)
  rw [same]
  exact .error alike.heap

/-- A body between two marks does not need to see the mark that is put back. -/
theorem Respects.withMarks {body : Run Value} (final : Bool)
    (inside : body.Respects (Machine.Alike false) (Machine.Alike false)) :
    (withMarks final body).Respects (Machine.Alike own) (Machine.Alike own) := by
  intro machine other alike
  have heap : (machine.mark final).SameHeap (other.mark final) := alike.heap
  have marked := heap.alike (Stack.head?_onTop alike.top _)
  unfold Run.withMarks
  dsimp only
  rw [Stack.isFinal_congr alike.top]
  match body (machine.mark final), body (other.mark final), inside _ _ marked with
  | _, _, .ok same =>
    exact .ok ⟨same.heap, Stack.head?_onTop same.top _, fun is_own => alike.final is_own⟩
  | _, _, .error same => exact .error same

/-- A procedure in a frame of its own sees nothing but the heap of the machine that it is called
on. -/
theorem Respects.withFrame {body : Run Value} (running : Closure)
    (inside : body.Respects (Machine.Alike false) (Machine.Alike false)) :
    (withFrame running body).Respects Machine.SameHeap Machine.SameHeap := by
  intro machine other same_heap
  have heap : (machine.push running).SameHeap (other.push running) := same_heap
  have started := heap.alike rfl
  unfold Run.withFrame
  match body (machine.push running), body (other.push running), inside _ _ started with
  | _, _, .ok same => exact .ok same.heap
  | _, _, .error same => exact .error same

end

end Run

/-- Calls that do not tell machines with the same heap apart. -/
def Isolated (invoke : Call → Run Value) : Prop :=
  ∀ call, (invoke call).Respects Machine.SameHeap Machine.SameHeap

section

variable {tailCalls : Bool} {invoke : Call → Run Value}

/-- Machines that are alike before a call are alike after it, because it leaves them as they
were. -/
theorem Isolated.respects (isolated : Isolated invoke) (restores : Restores invoke) (call : Call) :
    (invoke call).Respects (Machine.Alike true) (Machine.Alike true) := by
  intro machine other alike
  refine (isolated call machine other alike.heap).imp fun value after last ends ends' same => ?_
  obtain ⟨stack, final⟩ := restores call machine value after ends
  obtain ⟨stack', final'⟩ := restores call other value last ends'
  refine ⟨same, ?_, fun _ => ?_⟩
  · rw [stack, stack']
    exact alike.top
  · rw [final, final']
    exact alike.final rfl

/-- An application comes to the same on machines that are alike. -/
theorem respects_applyTo (isolated : Isolated invoke) (restores : Restores invoke) (tail : Bool)
    (operator : Value) (args : List Value) :
    (applyTo invoke tail operator args).Respects (Machine.Alike true) (Machine.Alike true) := by
  cases operator with
  | builtin procedure => exact (Run.onHeap_builtin procedure args).respects
  | closure callee =>
    cases tail with
    | true => exact fun _ _ alike => .ok ⟨alike.heap, Stack.head?_onTop alike.top _, alike.final⟩
    | false => exact isolated.respects restores ⟨callee, args⟩
  | _ => exact Run.respects_refusal _ .notProcedure

/-- The body of a branch comes to the same on machines that are alike. -/
theorem respects_branch (scope : ScopeId) (tail : Bool) {body : ScopeId → Run Value}
    (inside : ∀ inner, (body inner).Respects (Machine.Alike false) (Machine.Alike false)) :
    (Run.openScope scope [] >>= fun inner => Run.withMarks tail (body inner)).Respects
      (Machine.Alike true) (Machine.Alike true) :=
  (Run.onHeap_openScope scope []).respects.bind fun inner => (inside inner).withMarks tail

mutual

/-- A tree comes to the same on machines that are alike. -/
theorem respects_evaluate (isolated : Isolated invoke) (restores : Restores invoke) :
    ∀ (e : Expr) (scope : ScopeId),
      (evaluate tailCalls invoke e scope).Respects (Machine.Alike true) (Machine.Alike true)
  | .bool value, _ => Run.respects_pure _
  | .int value, _ => Run.respects_pure _
  | .ident name, scope => (Run.onHeap_lookup scope name).respects
  | .quote datum, _ => (Run.onHeap_quoted datum).respects
  | .list items, scope => by
    refine .bind (Run.respects_takeTailMark tailCalls) fun tail => ?_
    refine .bind (respects_evaluateAll isolated restores items scope) fun values => ?_
    cases values with
    | nil => exact Run.respects_fail _
    | cons operator args => exact respects_applyTo isolated restores tail operator args
  | .define name value, scope =>
    .bind (Run.respects_setFinal false) fun _ =>
      .bind (respects_evaluate isolated restores value scope) fun result =>
        .bind (Run.onHeap_define scope name result).respects fun _ => Run.respects_pure _
  | .set name value, scope =>
    .bind (Run.respects_setFinal false) fun _ =>
      .bind (respects_evaluate isolated restores value scope) fun result =>
        .bind (Run.onHeap_assign scope name result).respects fun _ => Run.respects_pure _
  | .lambda params body, scope => (Run.onHeap_close params body scope).respects
  | .cond branches, scope =>
    .bind (Run.respects_takeTailMark tailCalls) fun tail =>
      respects_evaluateBranches isolated restores branches scope tail

/-- Operands come to the same on machines that are alike. -/
theorem respects_evaluateAll (isolated : Isolated invoke) (restores : Restores invoke) :
    ∀ (items : List Expr) (scope : ScopeId),
      (evaluateAll tailCalls invoke items scope).Respects (Machine.Alike true) (Machine.Alike true)
  | [], _ => Run.respects_pure _
  | item :: items, scope =>
    .bind (respects_evaluate isolated restores item scope) fun _ =>
      .bind (respects_evaluateAll isolated restores items scope) fun _ => Run.respects_pure _

/-- A body comes to the same on machines that are alike but for the mark of the next expression. -/
theorem respects_evaluateBody (isolated : Isolated invoke) (restores : Restores invoke) :
    ∀ (items : List Expr) (scope : ScopeId), (evaluateBody tailCalls invoke items scope).Respects
      (Machine.Alike false) (Machine.Alike false)
  | [], _ => Run.respects_pure _
  | [last], scope =>
    .bind (Run.respects_setFinal true) fun _ machine other alike =>
      (respects_evaluate isolated restores last scope machine other alike).imp
        fun _ _ _ _ _ same => same.heap.alike same.top
  | item :: next :: rest, scope =>
    .bind (Run.respects_setFinal false) fun _ =>
      .bind (respects_evaluate isolated restores item scope) fun _ machine other alike =>
        respects_evaluateBody isolated restores (next :: rest) scope machine other
          (alike.heap.alike alike.top)

/-- A choice among branches comes to the same on machines that are alike. -/
theorem respects_evaluateBranches (isolated : Isolated invoke) (restores : Restores invoke) :
    ∀ (branches : List Branch) (scope : ScopeId) (tail : Bool),
      (evaluateBranches tailCalls invoke branches scope tail).Respects (Machine.Alike true)
        (Machine.Alike true)
  | [], _, _ => Run.respects_pure _
  | .otherwise body :: _, scope, tail =>
    respects_branch scope tail fun inner => respects_evaluateBody isolated restores body inner
  | .test guard body :: branches, scope, tail => by
    refine .bind (respects_evaluate isolated restores guard scope) fun tested => ?_
    match tested with
    | .bool true =>
      exact respects_branch scope tail fun inner =>
        respects_evaluateBody isolated restores body inner
    | .bool false => exact respects_evaluateBranches isolated restores branches scope tail
    | .nil | .int _ | .symbol _ | .builtin _ | .pair _ _ _ | .closure _ =>
      exact Run.respects_refusal _ .conditionNotBoolean

end

/-- The body of a closure comes to the same on machines that are alike. -/
theorem respects_enter (isolated : Isolated invoke) (restores : Restores invoke) (call : Call) :
    (enter tailCalls invoke call).Respects (Machine.Alike false) (Machine.Alike false) :=
  .bind (Run.onHeap_checkCount call).respects fun _ =>
    .bind (Run.onHeap_openScope _ _).respects fun scope =>
      (respects_evaluateBody isolated restores call.callee.body scope).withMarks true

/-- The calls of a frame come to the same on machines that are alike. -/
theorem respects_runCalls (isolated : Isolated invoke) (restores : Restores invoke)
    (budget : Nat) : ∀ call : Call, (runCalls tailCalls invoke budget call).Respects
      (Machine.Alike false) (Machine.Alike false) := by
  induction budget with
  | zero =>
    intro call
    refine (respects_enter isolated restores call).bind fun value => ?_
    refine Run.respects_takeDeferred.bind fun deferred => ?_
    cases deferred with
    | none => exact Run.respects_pure value
    | some next => exact fun _ _ alike => .error alike.heap
  | succ budget ih =>
    intro call
    refine (respects_enter isolated restores call).bind fun value => ?_
    refine Run.respects_takeDeferred.bind fun deferred => ?_
    cases deferred with
    | none => exact Run.respects_pure value
    | some next => exact ih next

end

/-- A call does not tell machines with the same heap apart. -/
theorem isolated_invoke (config : Config) (budget : Nat) :
    ∀ room, Isolated (invoke config budget room) := by
  intro room
  induction room with
  | zero => exact fun call machine other same_heap => .error same_heap
  | succ room ih =>
    intro call
    exact (respects_runCalls ih (restores_invoke config budget room) budget call).withFrame
      call.callee

/-- Results that agree on the heap look the same. -/
theorem seen_of_agree {alike : Machine → Machine → Prop}
    {result second : EStateM.Result Stop Machine Value} (agree : Run.Agree alike result second)
    (heap : ∀ after other, alike after other → after.SameHeap other) :
    seen second = seen result := by
  cases agree with
  | ok same => exact congrArg (Prod.mk _) (heap _ _ same)
  | error same => exact congrArg (Prod.mk _) same

end TailScheme
