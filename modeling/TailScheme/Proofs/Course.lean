import TailScheme.Proofs.Effects

/-!
# The course of an evaluation

`eval` and the moments of an evaluation say the same. If an evaluation ends within its budget, its
moments lead to the same value or error on the same machine; if the budget runs out, its moments
lead to more calls taken up than the budget is large (`Moment.Leads`). The other way round, moments
that come to an end are those of an evaluation that ends, whatever its budget, if only it is large
enough: `ends_iff_reaches`.

The correspondence is shown along the three recursions of `evaluate`, `runCalls` and `invoke`,
with whatever else is pending.
-/
namespace TailScheme

open StateTransition

namespace Moment

variable {α β : Type}

/-- The moment at which a value is handed over. -/
def giving (pending : List Pending) (value : Value) (machine : Machine) : Moment :=
  ⟨.give value, pending, machine⟩

/-- Where a moment leads, as told by the result of its task: to what goes on with a value, to an
end without one, or beyond the budget. -/
def Leads (config : Config) (budget : Nat) (s : Moment) (pending : List Pending)
    (go : α → Machine → Moment) : EStateM.Result Stop Machine α → Prop
  | .ok result machine => Reaches (next config) s (go result machine)
  | .error (.failed error) machine =>
    Reaches (next config) s ⟨.stop (.failed error), pending, machine⟩
  | .error .outOfBudget _ => ∃ t, Reaches (next config) s t ∧ budget < t.resumed

section

variable {config : Config} {budget : Nat} {s t : Moment} {pending inner : List Pending}
  {go : α → Machine → Moment} {machine : Machine}

/-- A moment leads where a later one leads. -/
theorem Leads.of_reaches {result : EStateM.Result Stop Machine α}
    (reached : Reaches (next config) s t) (leads : Leads config budget t pending go result) :
    Leads config budget s pending go result := by
  match result, leads with
  | .ok _ _, leads => exact reached.trans leads
  | .error (.failed _) _, leads => exact reached.trans leads
  | .error .outOfBudget _, ⟨u, later, beyond⟩ => exact ⟨u, reached.trans later, beyond⟩

/-- A moment leads where the next one leads. -/
theorem Leads.of_next {result : EStateM.Result Stop Machine α} (follows : next config s = some t)
    (leads : Leads config budget t pending go result) :
    Leads config budget s pending go result :=
  leads.of_reaches (.single follows)

/-- A step that always succeeds and what follows it. -/
theorem Leads.bind_ok {run : Run β} {rest : β → Run α} {result : β} {after : Machine}
    (ok : run machine = .ok result after)
    (second : Leads config budget s pending go (rest result after)) :
    Leads config budget s pending go ((run >>= rest) machine) := by
  change Leads config budget s pending go (EStateM.bind run rest machine)
  unfold EStateM.bind
  rw [ok]
  exact second

/-- Two tasks in a row, where an end without a value passes what waits between them. -/
theorem Leads.bind {run : Run β} {rest : β → Run α} {between : β → Machine → Moment}
    (first : Leads config budget s inner between (run machine))
    (passes : ∀ cause machine,
      Reaches (next config) ⟨.stop cause, inner, machine⟩ ⟨.stop cause, pending, machine⟩)
    (second : ∀ result after, Reaches (next config) s (between result after) →
      Leads config budget (between result after) pending go (rest result after)) :
    Leads config budget s pending go ((run >>= rest) machine) := by
  change Leads config budget s pending go (EStateM.bind run rest machine)
  unfold EStateM.bind
  match run machine, first with
  | .ok result after, reached => exact (second result after reached).of_reaches reached
  | .error (.failed error) after, reached => exact reached.trans (passes _ _)
  | .error .outOfBudget _, beyond => exact beyond

/-- A step on the heap and what follows it. -/
theorem Leads.proceed {run : Run β} {rest : β → Run α} (onHeap : run.OnHeap)
    {between : β → Machine → Moment}
    (second : ∀ result heap, Leads config budget (between result { machine with heap }) pending go
      (rest result { machine with heap })) :
    Leads config budget (proceed run pending machine between) pending go
      ((run >>= rest) machine) := by
  obtain ⟨act, _, acts⟩ := onHeap
  change Leads _ _ _ _ _ (EStateM.bind run rest machine)
  unfold EStateM.bind
  rw [Moment.proceed, acts machine]
  rcases act machine.heap with ⟨error | result, heap⟩
  · exact .refl
  · exact second result heap

/-- A step on the heap whose value is handed over. -/
theorem Leads.proceedWith {run : Run Value} (onHeap : run.OnHeap) :
    Leads config budget (proceedWith run pending machine) pending (giving pending)
      (run machine) := by
  obtain ⟨act, _, acts⟩ := onHeap
  rw [Moment.proceedWith, Moment.proceed, acts machine]
  rcases act machine.heap with ⟨error | result, heap⟩
  · exact .refl
  · exact .refl

end

/-- A moment is sound and `room` more frames are allowed. -/
structure Ready (config : Config) (room : Nat) (s : Moment) : Prop where
  sound : s.Sound
  room_eq : s.counts.live + room = config.maxDepth

/-- Calls outside tail position lead where their moments lead. -/
def CallsLead (config : Config) (budget room : Nat) (invoke : Call → Run Value) : Prop :=
  ∀ place call pending machine,
    Ready config room ⟨.apply place false (.closure call.callee) call.args, pending, machine⟩ →
    Leads config budget ⟨.apply place false (.closure call.callee) call.args, pending, machine⟩
      pending (giving pending) (invoke call machine)

section

variable {config : Config} {budget room : Nat} {invoke : Call → Run Value}

/-- A moment with the same numbers is ready too. -/
theorem Ready.of_counts {s t : Moment} (ready : Ready config room s)
    (same : t.counts = s.counts) : Ready config room t :=
  ⟨by rw [Sound, same]; exact ready.sound, by rw [same]; exact ready.room_eq⟩

/-- A later moment with as many frames pending is ready too. -/
theorem Ready.of_reaches {s t : Moment} (ready : Ready config room s)
    (reached : Reaches (next config) s t) (same : t.counts.live = s.counts.live) :
    Ready config room t :=
  ⟨ready.sound.of_reaches reached, same ▸ ready.room_eq⟩

/-- An end without a value passes anything but a frame. -/
theorem reaches_stop {item : Pending} {pending : List Pending} {cause : Stop}
    {machine : Machine} (passes : abandon machine item = machine) :
    Reaches (next config) ⟨.stop cause, item :: pending, machine⟩ ⟨.stop cause, pending, machine⟩ :=
  .single (congrArg (fun after => some (Moment.mk (.stop cause) pending after)) passes)

/-- Applying a procedure leads where its moments lead. -/
theorem leads_applyTo (calls : CallsLead config budget room invoke) {place : Place} {tail : Bool}
    {operator : Value} {args : List Value} {pending : List Pending} {machine : Machine}
    (ready : Ready config room ⟨.apply place tail operator args, pending, machine⟩) :
    Leads config budget ⟨.apply place tail operator args, pending, machine⟩ pending
      (giving pending) (applyTo invoke tail operator args machine) := by
  cases operator with
  | builtin procedure =>
    exact .of_next rfl (.proceedWith (Run.onHeap_builtin procedure args))
  | closure callee =>
    cases tail with
    | true => exact .single rfl
    | false => exact calls place ⟨callee, args⟩ pending machine ready
  | _ => exact .single rfl

/-- A body between two marks leads where its moments lead. -/
theorem leads_withMarks {place : Place} {items : List Expr} {scope : ScopeId} {final : Bool}
    {pending : List Pending} {machine : Machine} {body : Run Value}
    (inside : Leads config budget (start place items scope final pending machine)
      (.marks machine.stack.isFinal machine.final :: pending)
      (giving (.marks machine.stack.isFinal machine.final :: pending))
      (body (machine.mark final))) :
    Leads config budget (start place items scope final pending machine) pending (giving pending)
      (Run.withMarks final body machine) := by
  unfold Run.withMarks
  match body (machine.mark final), inside with
  | .ok value after, reached => exact reached.tail rfl
  | .error (.failed error) after, reached => exact reached.trans (reaches_stop rfl)
  | .error .outOfBudget after, beyond => exact beyond

/-- A branch leads where its moments lead, if its body does. -/
theorem leads_choose {task : Task} {place : Place} {index : Nat} {body : List Expr}
    {scope : ScopeId} {tail : Bool} {pending : List Pending} {machine : Machine}
    {run : ScopeId → Run Value} (ready : Ready config room ⟨task, pending, machine⟩)
    (inside : ∀ inner machine pending,
      Ready config room ⟨.body (.clause place index) 0 body inner, pending, machine⟩ →
      Leads config budget ⟨.body (.clause place index) 0 body inner, pending, machine⟩ pending
        (giving pending) (run inner machine)) :
    Leads config budget (choose place index body scope tail pending machine) pending
      (giving pending) ((Run.openScope scope [] >>= fun inner => Run.withMarks tail (run inner))
        machine) :=
  .proceed (Run.onHeap_openScope scope []) fun inner _ =>
    leads_withMarks (inside inner _ _ (ready.of_counts (counts_start _ _ _ _)))

mutual

/-- Evaluating a tree leads where its moments lead. -/
theorem leads_evaluate (calls : CallsLead config budget room invoke) : ∀ (e : Expr)
    (scope : ScopeId) (place : Place) (pending : List Pending) (machine : Machine),
    Ready config room ⟨.evaluate place e scope, pending, machine⟩ →
    Leads config budget ⟨.evaluate place e scope, pending, machine⟩ pending (giving pending)
      (evaluate config.tailCalls invoke e scope machine)
  | .bool value, scope, place, pending, machine, ready => .single rfl
  | .int value, scope, place, pending, machine, ready => .single rfl
  | .ident name, scope, place, pending, machine, ready =>
    .of_next rfl (.proceedWith (Run.onHeap_lookup scope name))
  | .quote datum, scope, place, pending, machine, ready =>
    .of_next rfl (.proceedWith (Run.onHeap_quoted datum))
  | .list items, scope, place, pending, machine, ready => by
    have begun : Ready config room ⟨.operands place
        (config.tailCalls && machine.stack.isFinal && machine.final) [] items scope, pending,
        { machine with final := false }⟩ := ready.of_counts rfl
    refine .of_next rfl (.bind_ok rfl (.bind (leads_evaluateAll calls items scope place _ []
      pending { machine with final := false } begun) (fun _ _ => .refl) ?_))
    intro results after reached
    cases results with
    | nil => exact .single rfl
    | cons operator args =>
      have done : Ready config room
          ⟨.operands place _ ([] ++ operator :: args) [] scope, pending, after⟩ :=
        begun.of_reaches reached rfl
      exact .of_next rfl (leads_applyTo calls (done.of_counts rfl))
  | .define name value, scope, place, pending, machine, ready => by
    refine .of_next rfl (.bind_ok rfl (.bind (leads_evaluate calls value scope (.bound place)
      (.define name scope :: pending) { machine with final := false } (ready.of_counts rfl))
      (fun _ _ => reaches_stop rfl) ?_))
    intro result after _
    refine .of_next rfl ?_
    change Leads config budget (proceed (Run.define scope name result) pending after
      fun _ machine => ⟨.give .nil, pending, machine⟩) pending (giving pending) _
    exact .proceed (Run.onHeap_define scope name result) fun _ heap => .refl
  | .set name value, scope, place, pending, machine, ready => by
    refine .of_next rfl (.bind_ok rfl (.bind (leads_evaluate calls value scope (.bound place)
      (.set name scope :: pending) { machine with final := false } (ready.of_counts rfl))
      (fun _ _ => reaches_stop rfl) ?_))
    intro result after _
    refine .of_next rfl ?_
    change Leads config budget (proceed (Run.assign scope name result) pending after
      fun _ machine => ⟨.give .nil, pending, machine⟩) pending (giving pending) _
    exact .proceed (Run.onHeap_assign scope name result) fun _ heap => .refl
  | .lambda params body, scope, place, pending, machine, ready =>
    .of_next rfl (.proceedWith (Run.onHeap_close params body scope))
  | .cond branches, scope, place, pending, machine, ready =>
    .of_next rfl (leads_evaluateBranches calls branches scope place 0 _ pending
      { machine with final := false } (ready.of_counts rfl))

/-- Evaluating operands leads where their moments lead. -/
theorem leads_evaluateAll (calls : CallsLead config budget room invoke) : ∀ (items : List Expr)
    (scope : ScopeId) (place : Place) (tail : Bool) (values : List Value)
    (pending : List Pending) (machine : Machine),
    Ready config room ⟨.operands place tail values items scope, pending, machine⟩ →
    Leads config budget ⟨.operands place tail values items scope, pending, machine⟩ pending
      (fun results machine =>
        ⟨.operands place tail (values ++ results) [] scope, pending, machine⟩)
      (evaluateAll config.tailCalls invoke items scope machine)
  | [], scope, place, tail, values, pending, machine, ready => by
    change Reaches _ _ (Moment.mk (.operands place tail (values ++ []) [] scope) _ _)
    rw [List.append_nil]
    exact .refl
  | item :: items, scope, place, tail, values, pending, machine, ready => by
    refine .of_next rfl (.bind (leads_evaluate calls item scope (.operand place values.length)
      (.operands place tail values items scope :: pending) machine
      (ready.of_counts rfl)) (fun _ _ => reaches_stop rfl) ?_)
    intro value between reached
    have later : Ready config room
        ⟨.operands place tail (values ++ [value]) items scope, pending, between⟩ :=
      ready.of_reaches (.tail (.head rfl reached) rfl) rfl
    refine .of_next rfl (.bind (leads_evaluateAll calls items scope place tail
      (values ++ [value]) pending between later) (fun _ _ => .refl) ?_)
    intro results after _
    change Reaches _ _ (Moment.mk (.operands place tail (values ++ value :: results) [] scope) _ _)
    rw [List.append_assoc, List.singleton_append]
    exact .refl

/-- Evaluating a body leads where its moments lead. -/
theorem leads_evaluateBody (calls : CallsLead config budget room invoke) : ∀ (items : List Expr)
    (scope : ScopeId) (place : Place) (index : Nat) (pending : List Pending) (machine : Machine),
    Ready config room ⟨.body place index items scope, pending, machine⟩ →
    Leads config budget ⟨.body place index items scope, pending, machine⟩ pending
      (giving pending) (evaluateBody config.tailCalls invoke items scope machine)
  | [], scope, place, index, pending, machine, ready => .single rfl
  | [last], scope, place, index, pending, machine, ready =>
    .of_next rfl (leads_evaluate calls last scope (.item place index) pending
      { machine with final := true } (ready.of_counts rfl))
  | item :: another :: rest, scope, place, index, pending, machine, ready => by
    have walked := leads_evaluate calls item scope (.item place index)
      (.sequence place (index + 1) (another :: rest) scope :: pending)
      { machine with final := false } (ready.of_counts rfl)
    refine .of_next rfl (walked.bind (fun _ _ => reaches_stop rfl) ?_)
    intro value after reached
    have later : Ready config room
        ⟨.body place (index + 1) (another :: rest) scope, pending, after⟩ :=
      ready.of_reaches (.tail (.head rfl reached) rfl) rfl
    exact .of_next rfl (leads_evaluateBody calls (another :: rest) scope place (index + 1) pending
      after later)

/-- Choosing a branch leads where its moments lead. -/
theorem leads_evaluateBranches (calls : CallsLead config budget room invoke) :
    ∀ (branches : List Branch) (scope : ScopeId) (place : Place) (index : Nat) (tail : Bool)
    (pending : List Pending) (machine : Machine),
    Ready config room ⟨.branches place index branches scope tail, pending, machine⟩ →
    Leads config budget ⟨.branches place index branches scope tail, pending, machine⟩ pending
      (giving pending) (evaluateBranches config.tailCalls invoke branches scope tail machine)
  | [], scope, place, index, tail, pending, machine, ready => .single rfl
  | .otherwise body :: branches, scope, place, index, tail, pending, machine, ready =>
    .of_next rfl (leads_choose ready fun inner machine pending =>
      leads_evaluateBody calls body inner (.clause place index) 0 pending machine)
  | .test guard body :: branches, scope, place, index, tail, pending, machine, ready => by
    refine .of_next rfl (.bind (leads_evaluate calls guard scope (.guard place index)
      (.choose place index body branches scope tail :: pending) machine
      (ready.of_counts rfl)) (fun _ _ => reaches_stop rfl) ?_)
    intro value after reached
    have done : Ready config room
        (giving (.choose place index body branches scope tail :: pending) value after) :=
      ready.of_reaches (.head rfl reached) rfl
    refine .of_next rfl ?_
    match value with
    | .bool true =>
      have later : Ready config room ⟨.give (.bool true), pending, after⟩ := done.of_counts rfl
      exact leads_choose later fun inner machine pending =>
        leads_evaluateBody calls body inner (.clause place index) 0 pending machine
    | .bool false =>
      exact leads_evaluateBranches calls branches scope place (index + 1) tail pending after
        (done.of_counts rfl)
    | .nil | .int _ | .symbol _ | .builtin _ | .pair _ _ _ | .closure _ => exact .refl

end

/-- A call that starts in the innermost frame leads where its moments lead. -/
theorem leads_enter (calls : CallsLead config budget room invoke) {call : Call}
    {pending : List Pending} {machine : Machine}
    (ready : Ready config room ⟨.enter call, pending, machine⟩) :
    Leads config budget ⟨.enter call, pending, machine⟩ pending (giving pending)
      (enter config.tailCalls invoke call machine) :=
  .of_next rfl (.proceed (Run.onHeap_checkCount call) fun _ _ =>
    .proceed (Run.onHeap_openScope _ _) fun scope _ => leads_withMarks
      (leads_evaluateBody calls call.callee.body scope .code 0 _ _
        (ready.of_counts (counts_start _ _ _ _))))

/-- Taking a deferred call up makes one call more that does not wait any longer. -/
theorem resumed_clearDeferred {value : Value} {call : Call} {pending : List Pending}
    {machine : Machine} (sound : Sound (giving (.frame :: pending) value machine))
    (deferred : machine.stack.deferred? = some call) :
    resumed ⟨.enter call, .frame :: pending,
      { machine with stack := machine.stack.clearDeferred }⟩ =
      resumed (giving (.frame :: pending) value machine) + 1 := by
  have fewer := Stack.waiting_clearDeferred deferred
  have waiting_le : machine.stack.waiting ≤ machine.deferrals := sound.waiting_le
  change machine.deferrals - machine.stack.clearDeferred.waiting =
    machine.deferrals - machine.stack.waiting + 1
  omega

/-- What follows the body of a frame leads where its moments lead, if the call that is deferred
to the frame does. -/
theorem leads_takeDeferred {value : Value} {pending : List Pending} {machine : Machine}
    {goOn : Call → Run Value}
    (resumes : ∀ call, machine.stack.deferred? = some call →
      Leads config budget ⟨.enter call, .frame :: pending,
        { machine with stack := machine.stack.clearDeferred }⟩ (.frame :: pending)
        (fun value machine => giving pending value machine.pop)
        (goOn call { machine with stack := machine.stack.clearDeferred })) :
    Leads config budget (giving (.frame :: pending) value machine) (.frame :: pending)
      (fun value machine => giving pending value machine.pop)
      ((Run.takeDeferred >>= fun
        | none => pure value
        | some call => goOn call) machine) := by
  rcases deferred : machine.stack.deferred? with _ | call
  · have none_taken : Run.takeDeferred machine = .ok none machine := by
      simp only [Run.takeDeferred, deferred]
    exact .bind_ok none_taken (.single (next_frame_of_none deferred))
  · have one_taken : Run.takeDeferred machine =
        .ok (some call) { machine with stack := machine.stack.clearDeferred } := by
      simp only [Run.takeDeferred, deferred]
    exact .bind_ok one_taken (.of_next (next_frame_of_some deferred) (resumes call deferred))

/-- The calls of a frame lead where their moments lead. What the frame has left of the budget is
enough if it makes up for the calls that were taken up before. -/
theorem leads_runCalls (calls : CallsLead config budget room invoke) (pending : List Pending) :
    ∀ (left : Nat) (call : Call) (machine : Machine),
    Ready config room ⟨.enter call, .frame :: pending, machine⟩ →
    budget ≤ resumed ⟨.enter call, .frame :: pending, machine⟩ + left →
    Leads config budget ⟨.enter call, .frame :: pending, machine⟩ (.frame :: pending)
      (fun value machine => giving pending value machine.pop)
      (runCalls config.tailCalls invoke left call machine) := by
  intro left
  -- Each call that is taken up costs one of the budget and counts as one that waits no longer.
  induction left with
  | zero =>
    intro call machine ready enough
    refine (leads_enter calls ready).bind (fun _ _ => .refl) ?_
    intro value after reached
    refine leads_takeDeferred fun next deferred => ?_
    have taken := resumed_clearDeferred (ready.sound.of_reaches reached) deferred
    have kept := resumed_le_of_reaches reached
    exact ⟨_, .refl, by omega⟩
  | succ left ih =>
    intro call machine ready enough
    refine (leads_enter calls ready).bind (fun _ _ => .refl) ?_
    intro value after reached
    refine leads_takeDeferred fun next deferred => ?_
    have taken := resumed_clearDeferred (ready.sound.of_reaches reached) deferred
    have kept := resumed_le_of_reaches reached
    have later : Ready config room ⟨.enter next, .frame :: pending,
        { after with stack := after.stack.clearDeferred }⟩ :=
      ready.of_reaches (reached.tail (next_frame_of_some deferred)) rfl
    exact ih next _ later (by omega)

/-- A procedure in a frame of its own leads where its moments lead. -/
theorem leads_withFrame {s : Moment} {callee : Closure} {pending : List Pending}
    {machine : Machine} {body : Run Value}
    (inside : Leads config budget s (.frame :: pending)
      (fun value machine => giving pending value machine.pop) (body (machine.push callee))) :
    Leads config budget s pending (giving pending) (Run.withFrame callee body machine) := by
  unfold Run.withFrame
  match body (machine.push callee), inside with
  | .ok value after, reached => exact reached
  | .error (.failed error) after, reached => exact reached.tail rfl
  | .error .outOfBudget after, beyond => exact beyond

end

/-- Calls outside tail position lead where their moments lead, whatever room there is. -/
theorem leads_invoke (config : Config) (budget : Nat) :
    ∀ room, CallsLead config budget room (invoke config budget room) := by
  intro room
  induction room with
  | zero =>
    intro place call pending machine ready
    have full : ¬machine.depth < config.maxDepth := by
      have depth_eq : machine.depth = Pending.live pending := ready.sound.depth_eq
      have room_eq : Pending.live pending + 0 = config.maxDepth := ready.room_eq
      omega
    exact .single (next_of_no_room full)
  | succ room ih =>
    intro place call pending machine ready
    have depth_eq : machine.depth = Pending.live pending := ready.sound.depth_eq
    have room_eq : Pending.live pending + (room + 1) = config.maxDepth := ready.room_eq
    have free : machine.depth < config.maxDepth := by omega
    have begun : Ready config room ⟨.enter call, .frame :: pending, machine.push call.callee⟩ := by
      refine ⟨ready.sound.of_reaches (.single (next_of_room free)), ?_⟩
      change Pending.live pending + 1 + room = config.maxDepth
      omega
    exact .of_next (next_of_room free)
      (leads_withFrame (leads_runCalls ih pending budget call _ begun (Nat.le_add_left _ _)))

/-- An evaluation leads where its moments lead. -/
theorem leads_first (config : Config) (budget : Nat) (tree : Expr) {machine : Machine}
    (rest : machine.stack = .empty) :
    Leads config budget (first tree machine) [] (giving [])
      (evaluate config.tailCalls (invoke config budget config.maxDepth) tree Heap.root
        machine.begin) :=
  leads_evaluate (leads_invoke config budget config.maxDepth) tree Heap.root (.item .code 0) []
    machine.begin ⟨sound_first tree rest, Nat.zero_add _⟩

end Moment

/-- How an evaluation ends: with a value or a failure, or not within the budget. -/
def seen : EStateM.Result Stop Machine Value → Except Stop Value × Heap
  | .ok value machine => (.ok value, machine.heap)
  | .error stop machine => (.error stop, machine.heap)

/-- What is done last in an evaluation that comes to an end. -/
def Task.ending : Except Error Value → Task
  | .ok value => .give value
  | .error error => .stop (.failed error)

/-- What is done last tells how the evaluation ends. -/
theorem Task.ending_injective {outcome other : Except Error Value}
    (same : ending outcome = ending other) : outcome = other := by
  cases outcome with
  | ok value =>
    cases other with
    | ok second => exact congrArg _ (Task.give.inj same)
    | error error => cases same
  | error error =>
    cases other with
    | ok value => cases same
    | error second => exact congrArg _ (Stop.failed.inj (Task.stop.inj same))

/-- The evaluation of a tree on a heap ends with a value or a failure and leaves a heap behind,
whatever budget it is given, if only it is large enough. -/
def Ends (config : Config) (tree : Expr) (heap : Heap) (outcome : Except Error Value)
    (after : Heap) : Prop :=
  ∃ least, ∀ budget, least ≤ budget →
    seen (eval config budget tree (.ofHeap heap)) = (outcome.mapError .failed, after)

namespace Moment

section

variable {config : Config} {tree : Expr} {s t : Moment}

/-- At the end of an evaluation nothing comes next. -/
theorem next_ending (outcome : Except Error Value) (machine : Machine) :
    next config ⟨.ending outcome, [], machine⟩ = none := by
  cases outcome <;> rfl

/-- From the moments of an evaluation, all lead to its end. -/
theorem reaches_ending {outcome : Except Error Value} {machine : Machine}
    (ends : Reaches (next config) s ⟨.ending outcome, [], machine⟩)
    (reached : Reaches (next config) s t) :
    Reaches (next config) t ⟨.ending outcome, [], machine⟩ := by
  obtain later | later := reaches_total reached ends
  · exact later
  · rcases later.cases_head with same | ⟨u, follows, _⟩
    · exact same ▸ .refl
    · simp [next_ending] at follows

/-- Within a budget an evaluation comes to the end to which its moments lead, or its moments lead
beyond the budget. -/
theorem eval_cases (config : Config) (budget : Nat) (tree : Expr) {machine : Machine}
    (rest : machine.stack = .empty) :
    (∃ outcome after, Reaches (next config) (first tree machine) ⟨.ending outcome, [], after⟩ ∧
      seen (eval config budget tree machine) = (outcome.mapError .failed, after.heap)) ∨
    ((seen (eval config budget tree machine)).1 = .error .outOfBudget ∧
      ∃ t, Reaches (next config) (first tree machine) t ∧ budget < t.resumed) := by
  have leads := leads_first config budget tree rest
  unfold eval
  match evaluate config.tailCalls (invoke config budget config.maxDepth) tree Heap.root
      machine.begin, leads with
  | .ok value after, reached => exact .inl ⟨.ok value, after, reached, rfl⟩
  | .error (.failed error) after, reached => exact .inl ⟨.error error, after, reached, rfl⟩
  | .error .outOfBudget after, beyond => exact .inr ⟨rfl, beyond⟩

/-- A moment with no next one is the end if the end can be reached. -/
theorem eq_ending_of_next {outcome : Except Error Value} {last : Machine}
    (ends : Reaches (next config) s ⟨.ending outcome, [], last⟩)
    (reached : Reaches (next config) s t) (no_next : next config t = none) :
    t = ⟨.ending outcome, [], last⟩ := by
  rcases (reaches_ending ends reached).cases_head with same | ⟨u, follows, _⟩
  · exact same
  · simp [no_next] at follows

/-- Two ends of the same evaluation are one. -/
theorem ending_unique {outcome other : Except Error Value} {after last : Machine}
    (ends : Reaches (next config) s ⟨.ending outcome, [], after⟩)
    (reached : Reaches (next config) s ⟨.ending other, [], last⟩) :
    other = outcome ∧ last = after := by
  have same := eq_ending_of_next ends reached (next_ending other last)
  obtain ⟨tasks, _, machines⟩ := Moment.mk.inj same
  exact ⟨Task.ending_injective tasks, machines⟩

/-- Moments that come to an end tell how an evaluation with enough budget ends. -/
theorem seen_eval_of_reaches {machine after : Machine} {outcome : Except Error Value}
    {budget : Nat} (rest : machine.stack = .empty)
    (ends : Reaches (next config) (first tree machine) ⟨.ending outcome, [], after⟩)
    (enough : resumed ⟨.ending outcome, [], after⟩ ≤ budget) :
    seen (eval config budget tree machine) = (outcome.mapError .failed, after.heap) := by
  rcases eval_cases config budget tree rest with ⟨other, last, reached, seen_eq⟩ |
    ⟨_, t, reached, beyond⟩
  · obtain ⟨rfl, rfl⟩ := ending_unique ends reached
    exact seen_eq
  · have kept := resumed_le_of_reaches (reaches_ending ends reached)
    omega

end

end Moment

/-- Failures and running out of budget are told apart. -/
theorem mapError_failed_injective {outcome other : Except Error Value}
    (same : outcome.mapError Stop.failed = other.mapError Stop.failed) : outcome = other := by
  cases outcome <;> cases other <;> simp_all [Except.mapError]

/-- A heap by itself makes a machine with no procedure running. -/
theorem stack_ofHeap (heap : Heap) : (Machine.ofHeap heap).stack = .empty := rfl

/-- An evaluation ends if and only if its moments come to an end. -/
theorem ends_iff_reaches {config : Config} {tree : Expr} {heap : Heap}
    {outcome : Except Error Value} {after : Heap} :
    Ends config tree heap outcome after ↔
      ∃ machine : Machine, machine.heap = after ∧
        Reaches (Moment.next config) (.first tree (.ofHeap heap))
          ⟨.ending outcome, [], machine⟩ := by
  constructor
  · rintro ⟨least, ends⟩
    have seen_eq := ends least (Nat.le_refl _)
    rcases Moment.eval_cases config least tree (stack_ofHeap heap) with
      ⟨other, last, reached, other_eq⟩ | ⟨out, _⟩
    · rw [seen_eq, Prod.mk.injEq] at other_eq
      obtain rfl := mapError_failed_injective other_eq.1
      exact ⟨last, other_eq.2.symm, reached⟩
    · rw [seen_eq] at out
      cases outcome <;> simp [Except.mapError] at out
  · rintro ⟨machine, rfl, reached⟩
    exact ⟨_, fun budget enough =>
      Moment.seen_eval_of_reaches (stack_ofHeap heap) reached enough⟩

end TailScheme
