import TailScheme.Proofs.Histories
import TailScheme.Proofs.Scopes

/-!
# What an evaluation leaves behind

Whatever an evaluation comes to, it leaves a machine at rest: no procedure runs, no call is
deferred, and no mark is set (`Machine.AtRest`). A failure may strike while marks are set and
frames wait for their bodies, and none of them is put back then; but a failure clears the stack
and the mark as a whole. A value is only handed over after all marks were put back, which is shown
along the recursions of `evaluate`, `runCalls` and `invoke` (`Run.LeavesUnmarked`).

So only the heap passes from one evaluation to the next. A failure leaves the heap of the moment
at which it came up, with all that the definitions and assignments before it have written
(`Moment.NothingUndone`).
-/
namespace TailScheme

open StateTransition

namespace Run

/-- If there is a value, the expression evaluated next is not marked as the last of a body. -/
def Unmarked {α : Type} : EStateM.Result Stop Machine α → Prop
  | .ok _ after => after.final = false
  | .error _ _ => True

/-- A step that sets no mark, if it ends with a value. -/
def LeavesUnmarked {α : Type} (run : Run α) : Prop :=
  ∀ machine : Machine, machine.final = false → Unmarked (run machine)

section

variable {α β : Type}

/-- A step on the heap sets no mark. -/
theorem OnHeap.leavesUnmarked {run : Run α} (onHeap : run.OnHeap) : run.LeavesUnmarked := by
  intro machine unmarked
  obtain ⟨act, _, acts⟩ := onHeap
  rw [acts machine]
  rcases act machine.heap with ⟨error | result, heap⟩
  · trivial
  · exact unmarked

/-- Handing a value back sets no mark. -/
theorem leavesUnmarked_pure (value : α) : (pure value : Run α).LeavesUnmarked :=
  fun _ unmarked => unmarked

/-- A failure is no value. -/
theorem leavesUnmarked_fail (error : Error) : (fail error : Run α).LeavesUnmarked :=
  fun _ _ => trivial

/-- Two steps in a row. -/
theorem LeavesUnmarked.bind {run : Run α} {rest : α → Run β} (first : run.LeavesUnmarked)
    (second : ∀ value, (rest value).LeavesUnmarked) : (run >>= rest).LeavesUnmarked := by
  intro machine unmarked
  change Unmarked (EStateM.bind run rest machine)
  unfold EStateM.bind
  match run machine, first machine unmarked with
  | .ok value after, still => exact second value after still
  | .error _ _, _ => trivial

/-- The mark can be taken off. -/
theorem leavesUnmarked_setFinal : (setFinal false).LeavesUnmarked :=
  fun _ _ => rfl

/-- Asking for tail position takes the mark off. -/
theorem leavesUnmarked_takeTailMark (tailCalls : Bool) :
    (takeTailMark tailCalls).LeavesUnmarked :=
  fun _ _ => rfl

/-- Taking a deferred call up sets no mark. -/
theorem leavesUnmarked_takeDeferred : takeDeferred.LeavesUnmarked := by
  intro machine unmarked
  unfold takeDeferred
  cases machine.stack.deferred? <;> exact unmarked

/-- Whatever a body marks, its end puts the marks back. -/
theorem leavesUnmarked_withMarks (final : Bool) (body : Run Value) :
    (withMarks final body).LeavesUnmarked := by
  intro machine unmarked
  unfold withMarks
  cases body (machine.mark final) with
  | ok value after => exact unmarked
  | error stop after => trivial

/-- A frame has nothing to do with the mark of the next expression. -/
theorem LeavesUnmarked.withFrame {body : Run Value} (leaves : body.LeavesUnmarked)
    (running : Closure) : (withFrame running body).LeavesUnmarked := by
  intro machine unmarked
  unfold Run.withFrame
  match body (machine.push running), leaves (machine.push running) unmarked with
  | .ok value after, still => exact still
  | .error _ _, _ => trivial

end

end Run

section

variable {tailCalls : Bool} {invoke : Call → Run Value}

/-- Applying a procedure sets no mark. -/
theorem leavesUnmarked_applyTo (calls : ∀ call, (invoke call).LeavesUnmarked) (tail : Bool)
    (operator : Value) (args : List Value) :
    (applyTo invoke tail operator args).LeavesUnmarked := by
  cases operator with
  | builtin procedure => exact (Run.onHeap_builtin procedure args).leavesUnmarked
  | closure callee =>
    cases tail with
    | true => exact fun _ unmarked => unmarked
    | false => exact calls ⟨callee, args⟩
  | _ => exact fun _ _ => trivial

/-- The body of a branch sets no mark. -/
theorem leavesUnmarked_branch (scope : ScopeId) (tail : Bool) (body : ScopeId → Run Value) :
    (Run.openScope scope [] >>= fun inner => Run.withMarks tail (body inner)).LeavesUnmarked :=
  (Run.onHeap_openScope scope []).leavesUnmarked.bind fun inner =>
    Run.leavesUnmarked_withMarks tail (body inner)

mutual

/-- Evaluating a tree sets no mark. -/
theorem leavesUnmarked_evaluate (calls : ∀ call, (invoke call).LeavesUnmarked) :
    ∀ (e : Expr) (scope : ScopeId), (evaluate tailCalls invoke e scope).LeavesUnmarked
  | .bool value, _ => Run.leavesUnmarked_pure _
  | .int value, _ => Run.leavesUnmarked_pure _
  | .ident name, scope => (Run.onHeap_lookup scope name).leavesUnmarked
  | .quote datum, _ => (Run.onHeap_quoted datum).leavesUnmarked
  | .list items, scope => by
    refine .bind (Run.leavesUnmarked_takeTailMark tailCalls) fun tail => ?_
    refine .bind (leavesUnmarked_evaluateAll calls items scope) fun values => ?_
    cases values with
    | nil => exact Run.leavesUnmarked_fail _
    | cons operator args => exact leavesUnmarked_applyTo calls tail operator args
  | .define name value, scope =>
    .bind Run.leavesUnmarked_setFinal fun _ =>
      .bind (leavesUnmarked_evaluate calls value scope) fun result =>
        .bind (Run.onHeap_define scope name result).leavesUnmarked fun _ =>
          Run.leavesUnmarked_pure _
  | .set name value, scope =>
    .bind Run.leavesUnmarked_setFinal fun _ =>
      .bind (leavesUnmarked_evaluate calls value scope) fun result =>
        .bind (Run.onHeap_assign scope name result).leavesUnmarked fun _ =>
          Run.leavesUnmarked_pure _
  | .lambda params body, scope => (Run.onHeap_close params body scope).leavesUnmarked
  | .cond branches, scope =>
    .bind (Run.leavesUnmarked_takeTailMark tailCalls) fun tail =>
      leavesUnmarked_evaluateBranches calls branches scope tail

/-- Evaluating operands sets no mark. -/
theorem leavesUnmarked_evaluateAll (calls : ∀ call, (invoke call).LeavesUnmarked) :
    ∀ (items : List Expr) (scope : ScopeId),
      (evaluateAll tailCalls invoke items scope).LeavesUnmarked
  | [], _ => Run.leavesUnmarked_pure _
  | item :: items, scope =>
    .bind (leavesUnmarked_evaluate calls item scope) fun _ =>
      .bind (leavesUnmarked_evaluateAll calls items scope) fun _ => Run.leavesUnmarked_pure _

/-- Choosing among branches sets no mark. -/
theorem leavesUnmarked_evaluateBranches (calls : ∀ call, (invoke call).LeavesUnmarked) :
    ∀ (branches : List Branch) (scope : ScopeId) (tail : Bool),
      (evaluateBranches tailCalls invoke branches scope tail).LeavesUnmarked
  | [], _, _ => Run.leavesUnmarked_pure _
  | .otherwise body :: _, scope, tail => leavesUnmarked_branch scope tail _
  | .test guard body :: branches, scope, tail => by
    refine .bind (leavesUnmarked_evaluate calls guard scope) fun value => ?_
    match value with
    | .bool true => exact leavesUnmarked_branch scope tail _
    | .bool false => exact leavesUnmarked_evaluateBranches calls branches scope tail
    | .nil | .int _ | .symbol _ | .builtin _ | .pair _ _ _ | .closure _ =>
      exact fun _ _ => trivial

end

/-- Running the body of a closure sets no mark. -/
theorem leavesUnmarked_enter (call : Call) : (enter tailCalls invoke call).LeavesUnmarked :=
  .bind (Run.onHeap_checkCount call).leavesUnmarked fun _ =>
    .bind (Run.onHeap_openScope _ _).leavesUnmarked fun _ => Run.leavesUnmarked_withMarks true _

/-- Running one deferred call after the other sets no mark. -/
theorem leavesUnmarked_runCalls (budget : Nat) :
    ∀ call : Call, (runCalls tailCalls invoke budget call).LeavesUnmarked := by
  induction budget with
  | zero =>
    intro call
    refine (leavesUnmarked_enter call).bind fun value => ?_
    refine Run.leavesUnmarked_takeDeferred.bind fun deferred => ?_
    cases deferred with
    | none => exact Run.leavesUnmarked_pure value
    | some next => exact fun _ _ => trivial
  | succ budget ih =>
    intro call
    refine (leavesUnmarked_enter call).bind fun value => ?_
    refine Run.leavesUnmarked_takeDeferred.bind fun deferred => ?_
    cases deferred with
    | none => exact Run.leavesUnmarked_pure value
    | some next => exact ih next

end

/-- A call in a frame of its own sets no mark. -/
theorem leavesUnmarked_invoke (config : Config) (budget room : Nat) (call : Call) :
    (invoke config budget room call).LeavesUnmarked := by
  cases room with
  | zero => exact Run.leavesUnmarked_fail _
  | succ room => exact (leavesUnmarked_runCalls budget call).withFrame call.callee

/-- Nothing runs on the machine, no mark is set, and the heap refers to scopes that are there. -/
structure Machine.AtRest (machine : Machine) : Prop where
  stack : machine.stack = .empty
  final : machine.final = false
  heap : machine.heap.Anchored

section

variable {config : Config} {machine : Machine}

/-- An evaluation leaves no mark. -/
theorem final_left_eval (config : Config) (budget : Nat) (tree : Expr) (machine : Machine) :
    (left (eval config budget tree machine)).final = false := by
  have unmarked : Run.Unmarked (evaluate config.tailCalls (invoke config budget config.maxDepth)
      tree Heap.root machine.begin) :=
    leavesUnmarked_evaluate (leavesUnmarked_invoke config budget config.maxDepth) tree Heap.root
      machine.begin rfl
  unfold eval
  match evaluate config.tailCalls (invoke config budget config.maxDepth) tree Heap.root
      machine.begin, unmarked with
  | .ok value after, still => exact still
  | .error stop after, _ => rfl

/-- An evaluation that returns leaves a heap that refers to scopes that are there. -/
theorem anchored_left_eval {budget : Nat} {tree : Expr} (rest : machine.AtRest)
    (returns : (seen (eval config budget tree machine)).1 ≠ .error .outOfBudget) :
    (left (eval config budget tree machine)).heap.Anchored := by
  rcases Moment.eval_cases config budget tree rest.stack with
    ⟨outcome, after, reached, seen_eq⟩ | ⟨out, _⟩
  · rw [← snd_seen, seen_eq]
    exact Moment.heap_of_reaches rest.heap.root (Moment.anchored_first tree rest.stack rest.heap)
      reached
  · exact absurd out returns

/-- An evaluation that returns leaves the machine at rest. -/
theorem Machine.AtRest.left_eval {budget : Nat} {tree : Expr} (rest : machine.AtRest)
    (returns : (seen (eval config budget tree machine)).1 ≠ .error .outOfBudget) :
    (left (eval config budget tree machine)).AtRest :=
  ⟨stack_left_eval config budget tree rest.stack, final_left_eval config budget tree machine,
    anchored_left_eval rest returns⟩

end

/-- The machines of an evaluator: one that starts on some heap, and those that are left after
evaluations that return. Between evaluations the heap may be changed by other means. -/
inductive Evaluated (config : Config) : Machine → Prop where
  | start {heap : Heap} (anchored : heap.Anchored) : Evaluated config (.ofHeap heap)
  | change {machine : Machine} {heap : Heap} (earlier : Evaluated config machine)
      (anchored : heap.Anchored) : Evaluated config { machine with heap }
  | eval {machine : Machine} (earlier : Evaluated config machine) (budget : Nat) (tree : Expr)
      (returns : (seen (eval config budget tree machine)).1 ≠ .error .outOfBudget) :
      Evaluated config (left (eval config budget tree machine))

namespace Evaluated

variable {config : Config} {machine : Machine}

/-- Between evaluations an evaluator is at rest. -/
theorem atRest (evaluated : Evaluated config machine) : machine.AtRest := by
  induction evaluated with
  | start anchored => exact ⟨rfl, rfl, anchored⟩
  | change _ anchored rest => exact ⟨rest.stack, rest.final, anchored⟩
  | eval _ budget tree returns rest => exact rest.left_eval returns

/-- Reading and evaluating one expression after the other is a history of evaluations. -/
theorem of_items (budget : Nat) (items : List (Except ReadError Expr)) :
    ∀ {machine : Machine} (last : Value), Evaluated config machine →
      (seen (evalItems config budget last items machine)).1 ≠ .error .outOfBudget →
      Evaluated config (left (evalItems config budget last items machine)) := by
  induction items with
  | nil => exact fun _ evaluated _ => evaluated
  | cons item items ih =>
    intro machine last evaluated returns
    rcases item with error | raw
    · exact evaluated
    change (seen (EStateM.bind (evalDatum config budget raw) _ machine)).1 ≠ _ at returns
    change Evaluated config (left (EStateM.bind (evalDatum config budget raw) _ machine))
    rcases expanded : raw.expand with keyword | tree
    · simp only [EStateM.bind, evalDatum, expanded, Run.fail]
      exact evaluated
    · have first := evaluated.eval budget tree
      simp only [EStateM.bind, evalDatum, expanded] at returns ⊢
      rcases outcome : TailScheme.eval config budget tree machine with
        ⟨value, after⟩ | ⟨stop, after⟩
      · rw [outcome] at first returns
        exact ih value (first (by rintro ⟨⟩)) returns
      · rw [outcome] at first returns
        exact first returns

/-- Running a program is a history of evaluations. -/
theorem of_program (evaluated : Evaluated config machine) (budget : Nat) (comments : Bool)
    (text : String)
    (returns : (seen (evalProgram config budget comments text machine)).1 ≠
      .error .outOfBudget) :
    Evaluated config (left (evalProgram config budget comments text machine)) :=
  of_items budget _ .nil evaluated returns

end Evaluated

/-- A step that leaves the heap alone if it fails. -/
def Run.FailsInPlace {α : Type} (run : Run α) : Prop := ∀ machine : Machine,
  match run machine with
  | .ok _ _ => True
  | .error _ after => after.heap = machine.heap

namespace Run

/-- Making pairs leaves the heap alone if it fails. -/
theorem failsInPlace_making {α : Type} (make : Value.Making α) : (making make).FailsInPlace := by
  intro machine
  unfold making
  cases make machine.heap.pairs <;> trivial

/-- Looking a name up in vain leaves the heap alone. -/
theorem failsInPlace_lookup (scope : ScopeId) (name : String) :
    (lookup scope name).FailsInPlace := by
  intro machine
  unfold lookup
  cases machine.heap.lookup scope name <;> trivial

/-- Assigning to a name that is not bound leaves the heap alone. -/
theorem failsInPlace_assign (scope : ScopeId) (name : String) (value : Value) :
    (assign scope name value).FailsInPlace := by
  intro machine
  unfold assign Heap.assign
  cases machine.heap.find? scope name <;> trivial

/-- A wrong number of arguments leaves the heap alone. -/
theorem failsInPlace_checkCount (call : Call) : (checkCount call).FailsInPlace := by
  intro machine
  by_cases fits : call.args.length = call.callee.params.length
  · simp only [checkCount, if_pos fits]
  · simp only [checkCount, if_neg fits]

end Run

namespace Moment

section

variable {α : Type} {config : Config} {pending : List Pending} {machine : Machine}

/-- If giving up comes next, then the heap is the one of now. -/
def InPlace (machine : Machine) (t : Moment) : Prop :=
  ∀ cause, t.task = .stop cause → t.machine.heap = machine.heap

/-- A step that leaves the heap alone if it fails, and what comes after it. -/
theorem inPlace_proceed {run : Run α} (fails : run.FailsInPlace) {go : α → Machine → Moment}
    (goes : ∀ result after cause, (go result after).task ≠ .stop cause) :
    InPlace machine (proceed run pending machine go) := by
  have in_place := fails machine
  intro cause stops
  unfold proceed at stops ⊢
  split at stops
  · exact absurd stops (goes _ _ cause)
  · next failed =>
    simpa only [failed] using in_place

/-- Handing over the value of a step that leaves the heap alone if it fails. -/
theorem inPlace_proceedWith {run : Run Value} (fails : run.FailsInPlace) :
    InPlace machine (proceedWith run pending machine) :=
  inPlace_proceed fails (by rintro _ _ _ ⟨⟩)

/-- An expression that fails at once leaves the heap alone. -/
theorem inPlace_evaluating (place : Place) (scope : ScopeId) (e : Expr) :
    InPlace machine (evaluating config place scope pending machine e) := by
  cases e with
  | ident name => exact inPlace_proceedWith (Run.failsInPlace_lookup scope name)
  | quote datum => exact inPlace_proceedWith (Run.failsInPlace_making datum.quoted)
  | lambda params body => rintro _ ⟨⟩
  | _ => exact fun _ _ => rfl

/-- An application that fails leaves the heap alone. -/
theorem inPlace_applying (tail : Bool) (args : List Value) (operator : Value) :
    InPlace machine (applying config tail args pending machine operator) := by
  cases operator with
  | builtin procedure => exact inPlace_proceedWith (Run.failsInPlace_making _)
  | closure callee =>
    simp only [applying]
    split
    · exact fun _ _ => rfl
    · split <;> exact fun _ _ => rfl
  | _ => exact fun _ _ => rfl

/-- A call that fails before its body starts leaves the heap alone. -/
theorem inPlace_entering (call : Call) : InPlace machine (entering call pending machine) :=
  inPlace_proceed (Run.failsInPlace_checkCount call) (by rintro _ _ _ ⟨⟩)

/-- What waits for a value leaves the heap alone if it fails. -/
theorem inPlace_resuming (value : Value) (item : Pending) :
    InPlace machine (resuming value pending machine item) := by
  cases item with
  | define name scope => rintro _ ⟨⟩
  | set name scope =>
    exact inPlace_proceed (Run.failsInPlace_assign scope name value) (by rintro _ _ _ ⟨⟩)
  | choose place index body branches scope tail =>
    simp only [resuming]
    split
    · rintro _ ⟨⟩
    · exact fun _ _ => rfl
    · exact fun _ _ => rfl
  | frame =>
    simp only [resuming]
    split <;> exact fun _ _ => rfl
  | _ => exact fun _ _ => rfl

/-- Giving up leaves the heap alone, at once and with everything that it passes. -/
theorem inPlace_of_next {s t : Moment} (follows : next config s = some t) :
    InPlace s.machine t := by
  revert follows
  fun_cases next config s <;> rintro ⟨⟩
  case case1 place e scope pending machine => exact inPlace_evaluating place scope e
  case case5 place tail operator args pending machine => exact inPlace_applying tail args operator
  case case10 => rintro _ ⟨⟩
  case case12 call pending machine => exact inPlace_entering call
  case case13 value item pending machine => exact inPlace_resuming value item
  case case14 cause item pending machine =>
    cases item <;> exact fun _ _ => rfl
  all_goals exact fun _ _ => rfl

end

section

variable {config : Config} {s t : Moment}

/-- An error comes up at some moment, and the heap stays what it was then. -/
theorem exists_raised {cause : Stop} (reached : Reaches (next config) s t)
    (goes_on : ∀ cause, s.task ≠ .stop cause) (stops : t.task = .stop cause) :
    ∃ u v, Reaches (next config) s u ∧ (∀ cause, u.task ≠ .stop cause) ∧
      next config u = some v ∧ v.task = .stop cause ∧ t.machine.heap = u.machine.heap := by
  induction reached with
  | refl => exact absurd stops (goes_on cause)
  | @tail u v reached follows ih =>
    have same_heap := inPlace_of_next follows cause stops
    -- Either the error was already there and passes what waits, or it comes up with this step.
    by_cases stopped : ∃ other, u.task = .stop other
    · obtain ⟨other, stopped⟩ := stopped
      have still := stop_of_reaches stopped (.single follows)
      obtain rfl := Task.stop.inj (still.symm.trans stops)
      obtain ⟨w, x, before, going, raises, raised, heap_eq⟩ := ih stopped
      exact ⟨w, x, before, going, raises, raised, same_heap.trans heap_eq⟩
    · exact ⟨u, v, reached, not_exists.mp stopped, follows, stops, same_heap⟩

end

/-- A binding is in the heap that is left, unless the name is written again in its scope. -/
def Lasts (config : Config) (s : Moment) (scope : ScopeId) (name : String) (value : Value)
    (left : Heap) : Prop :=
  (left.locals scope).find? name = some value ∨
    ∃ t other, Reaches (next config) s t ∧ t.Writes scope name other

/-- An error came up and left this heap, and of what happened before it nothing was undone. -/
structure NothingUndone (config : Config) (start : Moment) (error : Error) (left : Heap) :
    Prop where
  /-- The heap is the one of the moment at which the error came up. -/
  raised : ∃ s t, Reaches (next config) start s ∧ (∀ cause, s.task ≠ .stop cause) ∧
    next config s = some t ∧ t.task = .stop (.failed error) ∧ left = s.machine.heap
  /-- What was bound at the start still is. -/
  kept : ∀ scope name value, (start.machine.heap.locals scope).find? name = some value →
    Lasts config start scope name value left
  /-- What definitions and assignments have written is bound. -/
  written : ∀ s t scope name value, Reaches (next config) start s → next config s = some t →
    s.Writes scope name value → Lasts config t scope name value left

section

variable {config : Config} {s t : Moment} {scope : ScopeId} {name : String} {value : Value}

/-- What is bound lasts along a run. -/
theorem lasts_of_reaches (reached : Reaches (next config) s t)
    (found : (s.machine.heap.locals scope).find? name = some value) :
    Lasts config s scope name value t.machine.heap := by
  rcases find?_of_reaches reached found with lasts | ⟨u, other, before, _, writes⟩
  · exact .inl lasts
  · exact .inr ⟨u, other, before, writes⟩

/-- An evaluation that fails undoes nothing. -/
theorem nothingUndone_of_reaches {error : Error} {machine : Machine} (anchored : s.Anchored)
    (goes_on : ∀ cause, s.task ≠ .stop cause)
    (fails : Reaches (next config) s ⟨.ending (.error error), [], machine⟩) :
    NothingUndone config s error machine.heap where
  raised := exists_raised fails goes_on rfl
  kept _ _ _ found := lasts_of_reaches fails found
  written u v scope name value reached follows writes := by
    have bound := find?_of_writes (anchored.of_reaches reached) writes follows
    exact lasts_of_reaches (reaches_ending fails (reached.tail follows)) bound

end

end Moment

/-- Nothing but the heap survives an evaluation: an evaluator that evaluated whatever it was given
is at rest, and goes on like one that starts on its heap. An error undoes nothing of what was done
before it. -/
theorem only_heap_survives {config : Config} {machine : Machine}
    (evaluated : Evaluated config machine) :
    machine.depth = 0 ∧ machine.stack = .empty ∧ machine.final = false ∧
    (∀ budget tree,
      eval config budget tree machine = eval config budget tree (.ofHeap machine.heap)) ∧
    (∀ budget sources,
      history config budget sources machine =
        history config budget sources (.ofHeap machine.heap)) ∧
    ∀ budget tree error,
      (seen (eval config budget tree machine)).1 = .error (.failed error) →
      Moment.NothingUndone config (.first tree machine) error
        (left (eval config budget tree machine)).heap := by
  obtain ⟨stack, final, heap⟩ := evaluated.atRest
  refine ⟨congrArg Stack.depth stack, stack, final, fun budget tree => ?_, fun budget sources => ?_,
    fun budget tree error fails => ?_⟩
  · unfold eval
    rw [begin_of_rest stack]
  · rw [history_eq config budget sources machine stack,
      history_eq config budget sources (.ofHeap machine.heap) rfl]
    rfl
  · rcases Moment.eval_cases config budget tree stack with ⟨outcome, after, reached, seen_eq⟩ |
      ⟨out, _⟩
    · rw [← snd_seen, seen_eq]
      have failed : outcome.mapError Stop.failed = .error (.failed error) := by
        rw [← fails, seen_eq]
      obtain rfl : outcome = .error error := mapError_failed_injective failed
      exact Moment.nothingUndone_of_reaches (Moment.anchored_first tree stack heap)
        (by rintro _ ⟨⟩) reached
    · rw [out] at fails
      cases fails

/-- An application fails after one of its operands has defined a name. Then a call fails after it
has assigned to this name. -/
theorem only_heap_survives_of_two_failures :
    let defining : Expr := .list [.define "y" (.int 1), .list []]
    let assigning : Expr := .list [.lambda [] [.set "y" (.int 2), .list []]]
    let machine := left (eval ⟨true, 1⟩ 0 defining .initial)
    let after := left (eval ⟨true, 1⟩ 0 assigning machine)
    Evaluated ⟨true, 1⟩ machine ∧ machine.stack = .empty ∧
    machine.heap.lookup Heap.root "y" = some (.int 1) ∧
    Moment.NothingUndone ⟨true, 1⟩ (.first assigning machine) .missingProcedure after.heap ∧
    after.heap.lookup Heap.root "y" = some (.int 2) := by
  intro defining assigning machine after
  have fails : (seen (eval ⟨true, 1⟩ 0 defining .initial)).1 =
    .error (.failed .missingProcedure) := rfl
  have fails_again : (seen (eval ⟨true, 1⟩ 0 assigning machine)).1 =
    .error (.failed .missingProcedure) := rfl
  have started : Evaluated ⟨true, 1⟩ .initial := .start Heap.anchored_initial
  have evaluated : Evaluated ⟨true, 1⟩ machine :=
    started.eval 0 defining fun out => nomatch fails.symm.trans out
  have survives := only_heap_survives evaluated
  refine ⟨evaluated, survives.2.1, ?_, survives.2.2.2.2.2 0 assigning _ fails_again, ?_⟩
  · decide +kernel
  · decide +kernel

end TailScheme
