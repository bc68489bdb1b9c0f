import TailScheme.Proofs.DepthLimit
import TailScheme.Proofs.TailPosition

/-!
# Evaluations with and without tail calls

Two evaluations of a tree, one with tail calls and one without, go through pairs of moments at
which the same is done next on the same heap (`Paired`). What is pending differs: where a frame was
taken over by a call in tail position, the evaluation without tail calls has a frame for each of the
two procedures, with nothing but the ends of bodies between them (`Shadows`).

From a pair both evaluations come to the next one (`GoesOn`), each in its own number of steps. The
evaluation with tail calls takes more of them where it defers a call, and the other one where a
frame ends.
-/
namespace TailScheme

open StateTransition Relation

/-- The same thing pending, where no call is in tail position. -/
def Pending.plain : Pending → Pending
  | .operands place _ values items scope => .operands place false values items scope
  | .choose place index body branches scope _ => .choose place index body branches scope false
  | item => item

/-- The same thing done next, where no call is in tail position. -/
def Task.plain : Task → Task
  | .operands place _ values items scope => .operands place false values items scope
  | .apply place _ operator args => .apply place false operator args
  | .branches place index left scope _ => .branches place index left scope false
  | task => task

/-- What is pending with tail calls, and what is pending without them. -/
inductive Shadows : List Pending → List Pending → Prop where
  /-- Nothing is pending. -/
  | nil : Shadows [] []
  /-- The same thing is pending first. -/
  | item {item : Pending} {pending shadow : List Pending} (other : item.isMarks = false)
      (rest : Shadows pending shadow) : Shadows (item :: pending) (item.plain :: shadow)
  /-- A body ends first, whatever the marks are. -/
  | marks {frame own frame' own' : Bool} {pending shadow : List Pending}
      (rest : Shadows pending shadow) :
      Shadows (.marks frame own :: pending) (.marks frame' own' :: shadow)
  /-- A frame that was taken over stands for two frames without tail calls. -/
  | call {marks pending shadow : List Pending} (only : ∀ item ∈ marks, item.isMarks = true)
      (rest : Shadows (.frame :: pending) shadow) :
      Shadows (.frame :: pending) (.frame :: (marks ++ shadow))

namespace Shadows

/-- Without tail calls no fewer frames are pending. -/
theorem live_le {pending shadow : List Pending} (shadows : Shadows pending shadow) :
    Pending.live pending ≤ Pending.live shadow := by
  induction shadows with
  | nil => exact Nat.le_refl _
  | @item item pending shadow other rest ih =>
    cases item with
    | frame => exact Nat.succ_le_succ ih
    | _ => exact ih
  | marks rest ih => exact ih
  | @call marks pending shadow only rest ih =>
    have appended := Pending.live_append marks shadow
    simp only [Pending.live] at ih ⊢
    omega

/-- The ends of bodies are the same without tail calls. -/
theorem split {marks pending shadow : List Pending}
    (only : ∀ item ∈ marks, item.isMarks = true) (shadows : Shadows (marks ++ pending) shadow) :
    ∃ marks' rest, shadow = marks' ++ rest ∧ (∀ item ∈ marks', item.isMarks = true) ∧
      Shadows pending rest := by
  induction marks generalizing shadow with
  | nil => exact ⟨[], shadow, rfl, by simp, shadows⟩
  | cons item marks ih =>
    rw [List.forall_mem_cons] at only
    cases item with
    | marks frame own =>
      cases shadows with
      | item other _ => cases other
      | @marks _ _ frame' own' _ shadow rest =>
        obtain ⟨marks', after, rfl, only', shadows⟩ := ih only.2 rest
        exact ⟨.marks frame' own' :: marks', after, rfl,
          List.forall_mem_cons.mpr ⟨rfl, only'⟩, shadows⟩
    | _ => cases only.1

end Shadows

namespace Moment

/-- The same is done next on the same heap, with tail calls and without them. -/
structure Paired (s t : Moment) : Prop where
  task : t.task = s.task.plain
  pending : Shadows s.pending t.pending
  heap : t.machine.heap = s.machine.heap
  undeferred : s.machine.stack.deferred? = none

/-- How two evaluations go on from a pair: both end with the same heap, or both come to another
pair. The latter is left open where a call finds no room. The limit without tail calls makes no
other difference. -/
inductive GoesOn (depth : Nat) (s t : Moment) : Prop where
  /-- Both evaluations end. -/
  | ends {task : Task} {after after' : Machine} (heap : after'.heap = after.heap)
      (reached : Reaches (next ⟨true, depth⟩) s ⟨task, [], after⟩)
      (reached' : ∀ limit, Reaches (next ⟨false, limit⟩) t ⟨task, [], after'⟩)
      (last : ∀ config machine, next config ⟨task, [], machine⟩ = none)
  /-- Both evaluations come to another pair. -/
  | onward {s' t' : Moment} (paired : Paired s' t')
      (later : ¬Overflows ⟨true, depth⟩ s → Reaches₁ (next ⟨true, depth⟩) s s')
      (later' : ∀ limit, ¬Overflows ⟨false, limit⟩ t → Reaches₁ (next ⟨false, limit⟩) t t')

section

variable {depth : Nat} {s t s' t' : Moment} {tree : Expr} {pending shadow : List Pending}
  {machine machine' : Machine}

/-- One step leads from a pair to another. -/
theorem GoesOn.of_next (follows : next ⟨true, depth⟩ s = some s')
    (follows' : ∀ limit, next ⟨false, limit⟩ t = some t') (paired : Paired s' t') :
    GoesOn depth s t :=
  .onward paired (fun _ => .single follows) fun limit _ => .single (follows' limit)

/-- A step on the heap is the same on both sides. -/
theorem paired_proceed {α : Type} {run : Run α} (onHeap : run.OnHeap)
    (heap : machine'.heap = machine.heap) (undeferred : machine.stack.deferred? = none)
    (shadows : Shadows pending shadow) {go go' : α → Machine → Moment}
    (success : ∀ result heap,
      Paired (go result { machine with heap }) (go' result { machine' with heap })) :
    Paired (proceed run pending machine go) (proceed run shadow machine' go') := by
  obtain ⟨act, _, acts⟩ := onHeap
  rw [proceed, proceed, acts machine, acts machine', heap]
  rcases act machine.heap with ⟨error | result, after⟩
  · exact ⟨rfl, shadows, rfl, undeferred⟩
  · exact success result after

/-- A step on the heap whose value is handed over is the same on both sides. -/
theorem paired_proceedWith {run : Run Value} (onHeap : run.OnHeap)
    (heap : machine'.heap = machine.heap) (undeferred : machine.stack.deferred? = none)
    (shadows : Shadows pending shadow) :
    Paired (proceedWith run pending machine) (proceedWith run shadow machine') :=
  paired_proceed onHeap heap undeferred shadows fun _ _ => ⟨rfl, shadows, rfl, undeferred⟩

/-- Starting a body is the same on both sides, whatever the marks are. -/
theorem paired_start (heap : machine'.heap = machine.heap)
    (undeferred : machine.stack.deferred? = none) (shadows : Shadows pending shadow)
    (place : Place) (items : List Expr) (scope : ScopeId) (final final' : Bool) :
    Paired (start place items scope final pending machine)
      (start place items scope final' shadow machine') :=
  ⟨rfl, .marks shadows, heap, (Stack.deferred_mark _).trans undeferred⟩

/-- Choosing a branch is the same on both sides. -/
theorem paired_choose (heap : machine'.heap = machine.heap)
    (undeferred : machine.stack.deferred? = none) (shadows : Shadows pending shadow)
    (place : Place) (index : Nat) (body : List Expr) (scope : ScopeId) (tail tail' : Bool) :
    Paired (choose place index body scope tail pending machine)
      (choose place index body scope tail' shadow machine') := by
  refine paired_proceed (Run.onHeap_openScope scope []) heap undeferred shadows fun inner _ => ?_
  refine paired_start ?_ ?_ shadows (.clause place index) body inner tail tail'
  · rfl
  · exact undeferred

/-- The first step of an expression is the same on both sides. -/
theorem goesOn_evaluate (heap : machine'.heap = machine.heap)
    (undeferred : machine.stack.deferred? = none) (shadows : Shadows pending shadow)
    (place : Place) (e : Expr) (scope : ScopeId) :
    GoesOn depth ⟨.evaluate place e scope, pending, machine⟩
      ⟨.evaluate place e scope, shadow, machine'⟩ := by
  cases e with
  | bool value => exact .of_next rfl (fun _ => rfl) ⟨rfl, shadows, heap, undeferred⟩
  | int value => exact .of_next rfl (fun _ => rfl) ⟨rfl, shadows, heap, undeferred⟩
  | ident name =>
    exact .of_next rfl (fun _ => rfl)
      (paired_proceedWith (Run.onHeap_lookup scope name) heap undeferred shadows)
  | quote datum =>
    exact .of_next rfl (fun _ => rfl)
      (paired_proceedWith (Run.onHeap_quoted datum) heap undeferred shadows)
  | list items =>
    have follows' : ∀ limit, next ⟨false, limit⟩ ⟨.evaluate place (.list items) scope, shadow,
        machine'⟩ = some ⟨.operands place false [] items scope, shadow,
          { machine' with final := false }⟩ := fun _ => rfl
    exact .of_next rfl follows' ⟨rfl, shadows, heap, undeferred⟩
  | define name value =>
    exact .of_next rfl (fun _ => rfl) ⟨rfl, .item rfl shadows, heap, undeferred⟩
  | set name value =>
    exact .of_next rfl (fun _ => rfl) ⟨rfl, .item rfl shadows, heap, undeferred⟩
  | lambda params body =>
    exact .of_next rfl (fun _ => rfl)
      (paired_proceedWith (Run.onHeap_close params body scope) heap undeferred shadows)
  | cond branches =>
    have follows' : ∀ limit, next ⟨false, limit⟩ ⟨.evaluate place (.cond branches) scope, shadow,
        machine'⟩ = some ⟨.branches place 0 branches scope false, shadow,
          { machine' with final := false }⟩ := fun _ => rfl
    exact .of_next rfl follows' ⟨rfl, shadows, heap, undeferred⟩

/-- Operands follow one another on both sides. -/
theorem goesOn_operands (heap : machine'.heap = machine.heap)
    (undeferred : machine.stack.deferred? = none) (shadows : Shadows pending shadow)
    (place : Place) (tail : Bool) (values : List Value) (items : List Expr) (scope : ScopeId) :
    GoesOn depth ⟨.operands place tail values items scope, pending, machine⟩
      ⟨.operands place false values items scope, shadow, machine'⟩ := by
  match items, values with
  | [], [] => exact .of_next rfl (fun _ => rfl) ⟨rfl, shadows, heap, undeferred⟩
  | [], operator :: args => exact .of_next rfl (fun _ => rfl) ⟨rfl, shadows, heap, undeferred⟩
  | item :: items, values =>
    have shadows_item : Shadows (.operands place tail values items scope :: pending)
        (.operands place false values items scope :: shadow) := .item rfl shadows
    exact .of_next rfl (fun _ => rfl) ⟨rfl, shadows_item, heap, undeferred⟩

/-- The expressions of a body follow one another on both sides. -/
theorem goesOn_body (heap : machine'.heap = machine.heap)
    (undeferred : machine.stack.deferred? = none) (shadows : Shadows pending shadow)
    (place : Place) (index : Nat) (items : List Expr) (scope : ScopeId) :
    GoesOn depth ⟨.body place index items scope, pending, machine⟩
      ⟨.body place index items scope, shadow, machine'⟩ := by
  match items with
  | [] => exact .of_next rfl (fun _ => rfl) ⟨rfl, shadows, heap, undeferred⟩
  | [last] => exact .of_next rfl (fun _ => rfl) ⟨rfl, shadows, heap, undeferred⟩
  | item :: another :: rest =>
    exact .of_next rfl (fun _ => rfl) ⟨rfl, .item rfl shadows, heap, undeferred⟩

/-- The branches follow one another on both sides. -/
theorem goesOn_branches (heap : machine'.heap = machine.heap)
    (undeferred : machine.stack.deferred? = none) (shadows : Shadows pending shadow)
    (place : Place) (index : Nat) (branches : List Branch) (scope : ScopeId) (tail : Bool) :
    GoesOn depth ⟨.branches place index branches scope tail, pending, machine⟩
      ⟨.branches place index branches scope false, shadow, machine'⟩ := by
  match branches with
  | [] => exact .of_next rfl (fun _ => rfl) ⟨rfl, shadows, heap, undeferred⟩
  | .otherwise body :: branches =>
    exact .of_next rfl (fun _ => rfl)
      (paired_choose heap undeferred shadows place index body scope tail false)
  | .test guard body :: branches =>
    have shadows_test : Shadows (.choose place index body branches scope tail :: pending)
        (.choose place index body branches scope false :: shadow) := .item rfl shadows
    exact .of_next rfl (fun _ => rfl) ⟨rfl, shadows_test, heap, undeferred⟩

/-- A call that starts is the same on both sides. -/
theorem goesOn_enter (heap : machine'.heap = machine.heap)
    (undeferred : machine.stack.deferred? = none) (shadows : Shadows pending shadow) (call : Call) :
    GoesOn depth ⟨.enter call, pending, machine⟩ ⟨.enter call, shadow, machine'⟩ := by
  refine .of_next rfl (fun _ => rfl) ?_
  refine paired_proceed (Run.onHeap_checkCount call) heap undeferred shadows fun _ _ => ?_
  refine paired_proceed (Run.onHeap_openScope _ _) ?_ ?_ shadows fun scope _ => ?_
  · rfl
  · exact undeferred
  refine paired_start ?_ ?_ shadows .code call.callee.body scope true true
  · rfl
  · exact undeferred

/-- An application is the same on both sides, but for the frame of a call in tail position. -/
theorem goesOn_apply {place : Place} {tail : Bool} {operator : Value} {args : List Value}
    (consistent : Consistent true tree ⟨.apply place tail operator args, pending, machine⟩)
    (heap : machine'.heap = machine.heap) (undeferred : machine.stack.deferred? = none)
    (shadows : Shadows pending shadow) :
    GoesOn depth ⟨.apply place tail operator args, pending, machine⟩
      ⟨.apply place false operator args, shadow, machine'⟩ := by
  cases operator with
  | builtin procedure =>
    exact .of_next rfl (fun _ => rfl)
      (paired_proceedWith (Run.onHeap_builtin procedure args) heap undeferred shadows)
  | closure callee =>
    cases tail with
    | true =>
      have stays : Consistent (Config.tailCalls ⟨true, depth⟩) tree
        ⟨.apply place true (.closure callee) args, pending, machine⟩ := consistent
      obtain ⟨marks, rest, after, only, rfl, same_heap, after_frames, quiet⟩ := quiet_of_tail stays
      obtain ⟨marks', shadow, rfl, only', shadows⟩ := shadows.split only
      have fresh : after.stack.deferred? = none := by
        simp only [Stack.deferred?, after_frames]
      exact .onward ⟨rfl, .call only' shadows, heap.trans same_heap.symm, fresh⟩
        (fun _ => reaches₁_of_quiet quiet)
        fun limit fits => .single (next_of_not_overflows fits)
    | false =>
      exact .onward ⟨rfl, .item rfl shadows, heap, rfl⟩
        (fun fits => .single (next_of_not_overflows fits))
        fun limit fits => .single (next_of_not_overflows fits)
  | _ =>
    refine .of_next rfl (fun _ => rfl) ⟨?_, shadows, heap, undeferred⟩
    change Task.stop (.failed (.notProcedure (machine'.heap.text _))) =
      Task.stop (.failed (.notProcedure (machine.heap.text _)))
    rw [heap]

/-- Without tail calls a value passes the frames of all the procedures that would have taken one
another's place. -/
theorem reaches_past_frame (value : Value) (shadows : Shadows (.frame :: pending) shadow) :
    ∀ machine : Machine, machine.stack.waiting = 0 → ∃ rest after, Shadows pending rest ∧
      after.heap = machine.heap ∧ ∀ config : Config,
        Reaches₁ (next config) ⟨.give value, shadow, machine⟩ ⟨.give value, rest, after⟩ := by
  generalize framed_eq : Pending.frame :: pending = framed at shadows
  -- The induction is on the frames that one frame with tail calls stands for.
  induction shadows with
  | nil => cases framed_eq
  | marks rest => cases framed_eq
  | @item item pending shadow other rest =>
    intro machine none_waits
    obtain ⟨rfl, rfl⟩ := List.cons.inj framed_eq
    exact ⟨shadow, machine.pop, rest, rfl, fun config =>
      .single (next_frame_of_none (Stack.deferred_of_waiting none_waits))⟩
  | @call marks pending shadow only rest ih =>
    intro machine none_waits
    have popped : machine.pop.stack.waiting = 0 :=
      Nat.le_zero.mp (none_waits ▸ Stack.waiting_pop_le machine.stack)
    obtain ⟨between, final, between_heap, stack_eq, quiet⟩ :=
      quiet_past_marks value shadow marks only machine.pop
    have still : between.stack.waiting = 0 := by
      rw [stack_eq, Stack.waiting_mark]
      exact popped
    obtain ⟨last, after, shadows, after_heap, later⟩ := ih framed_eq between still
    refine ⟨last, after, shadows, after_heap.trans between_heap, fun config => ?_⟩
    exact .head (next_frame_of_none (Stack.deferred_of_waiting none_waits))
      ((later config).trans_right (reaches_of_quiet (quiet config)))

/-- A value goes to the same on both sides. -/
theorem goesOn_give {value : Value} (heap : machine'.heap = machine.heap)
    (undeferred : machine.stack.deferred? = none) (shadows : Shadows pending shadow)
    (given : Given true tree pending machine) (none_waits : machine'.stack.waiting = 0) :
    GoesOn depth ⟨.give value, pending, machine⟩ ⟨.give value, shadow, machine'⟩ := by
  cases pending with
  | nil =>
    cases shadows
    exact .ends heap .refl (fun _ => .refl) fun _ _ => rfl
  | cons item pending =>
    cases item with
    | frame =>
      obtain ⟨rest, after, shadows_rest, after_heap, later⟩ :=
        reaches_past_frame value shadows machine' none_waits
      exact .onward ⟨rfl, shadows_rest, after_heap.trans heap, given.undeferred_pop undeferred⟩
        (fun _ => .single (next_frame_of_none undeferred)) fun limit _ => later _
    | marks frame own =>
      cases shadows with
      | item other _ => cases other
      | marks rest =>
        exact .of_next rfl (fun _ => rfl)
          ⟨rfl, rest, heap, (Stack.deferred_mark _).trans undeferred⟩
    | operands place tail values items scope =>
      obtain _ | ⟨_, rest⟩ := shadows
      exact .of_next rfl (fun _ => rfl) ⟨rfl, rest, heap, undeferred⟩
    | sequence place index items scope =>
      obtain _ | ⟨_, rest⟩ := shadows
      exact .of_next rfl (fun _ => rfl) ⟨rfl, rest, heap, undeferred⟩
    | define name scope =>
      obtain _ | ⟨_, rest⟩ := shadows
      refine .of_next rfl (fun _ => rfl) ?_
      simp only [resuming, Pending.plain]
      exact paired_proceed (Run.onHeap_define scope name value) heap undeferred rest fun _ _ =>
        ⟨rfl, rest, rfl, undeferred⟩
    | set name scope =>
      obtain _ | ⟨_, rest⟩ := shadows
      refine .of_next rfl (fun _ => rfl) ?_
      simp only [resuming, Pending.plain]
      exact paired_proceed (Run.onHeap_assign scope name value) heap undeferred rest fun _ _ =>
        ⟨rfl, rest, rfl, undeferred⟩
    | choose place index body branches scope tail =>
      obtain _ | ⟨_, rest⟩ := shadows
      cases value with
      | bool value =>
        cases value with
        | true =>
          exact .of_next rfl (fun _ => rfl)
            (paired_choose heap undeferred rest place index body scope tail false)
        | false => exact .of_next rfl (fun _ => rfl) ⟨rfl, rest, heap, undeferred⟩
      | _ =>
        refine .of_next rfl (fun _ => rfl) ⟨?_, rest, heap, undeferred⟩
        change Task.stop (.failed (.conditionNotBoolean (machine'.heap.text _))) =
          Task.stop (.failed (.conditionNotBoolean (machine.heap.text _)))
        rw [heap]

/-- Giving up ends both sides. -/
theorem goesOn_stop (heap : machine'.heap = machine.heap) (cause : Stop) :
    GoesOn depth ⟨.stop cause, pending, machine⟩ ⟨.stop cause, shadow, machine'⟩ := by
  obtain ⟨last, same_heap, reached⟩ := reaches_end_of_stop cause pending machine
  obtain ⟨last', same_heap', reached'⟩ := reaches_end_of_stop cause shadow machine'
  exact .ends (same_heap'.trans (heap.trans same_heap.symm)) (reached _) (fun _ => reached' _)
    fun _ _ => rfl

/-- From every pair both sides go on to another one or to the same end. -/
theorem Paired.goesOn (depth : Nat) (paired : Paired s t) (consistent : s.Consistent true tree)
    (none_waits : t.machine.stack.waiting = 0) : GoesOn depth s t := by
  obtain ⟨task, pending, machine⟩ := s
  obtain ⟨task', shadow, machine'⟩ := t
  obtain ⟨task_eq, shadows, heap, undeferred⟩ := paired
  obtain rfl : task' = task.plain := task_eq
  cases task with
  | evaluate place e scope => exact goesOn_evaluate heap undeferred shadows place e scope
  | operands place tail values items scope =>
    exact goesOn_operands heap undeferred shadows place tail values items scope
  | apply place tail operator args => exact goesOn_apply consistent heap undeferred shadows
  | body place index items scope =>
    exact goesOn_body heap undeferred shadows place index items scope
  | branches place index branches scope tail =>
    exact goesOn_branches heap undeferred shadows place index branches scope tail
  | enter call => exact goesOn_enter heap undeferred shadows call
  | give value => exact goesOn_give heap undeferred shadows consistent none_waits
  | stop cause => exact goesOn_stop heap cause

end

end Moment

end TailScheme
