import TailScheme.Proofs.Moments
import TailScheme.Proofs.Failures

/-!
# What one step changes

A step of an evaluation starts or ends a frame, defers a call, takes a deferred call up, or leaves
all of this alone (`Counts.Step`); everything that only counts frames and calls follows from
these five cases. So the frames on the stack are those that wait in the list of what is pending,
and a call is taken up only after it was deferred (`Moment.Sound`).

The other steps work on the heap alone (`Run.OnHeap`): their results do not depend on the marks
or the frames.
-/
namespace TailScheme

open StateTransition

namespace Stack

/-- How many frames have a call deferred to them. -/
def waiting (stack : Stack) : Nat := stack.frames.countP fun frame => frame.deferred.isSome

/-- A stack of depth zero is empty. -/
theorem eq_empty_of_depth {stack : Stack} (none_runs : stack.depth = 0) : stack = empty := by
  ext : 1
  exact List.eq_nil_of_length_eq_zero (stack.depth_eq ▸ none_runs)

/-- Where no call waits, none is deferred to the innermost frame. -/
theorem deferred_of_waiting {stack : Stack} (none_waits : stack.waiting = 0) :
    stack.deferred? = none := by
  obtain ⟨frames, depth, counted⟩ := stack
  cases frames with
  | nil => rfl
  | cons top rest =>
    have undeferred := List.countP_eq_zero.mp none_waits top List.mem_cons_self
    simpa [deferred?] using undeferred

/-- Ending a frame defers nothing. -/
theorem waiting_pop_le (stack : Stack) : stack.pop.waiting ≤ stack.waiting :=
  (List.tail_sublist _).countP_le

/-- Marks have nothing to do with deferred calls. -/
@[simp] theorem waiting_mark (stack : Stack) (final : Bool) :
    (stack.mark final).waiting = stack.waiting := by
  obtain ⟨frames, depth, counted⟩ := stack
  cases frames <;> simp [waiting, mark, onTop, List.countP_cons]

/-- Marks leave the number of frames alone. -/
theorem depth_mark (stack : Stack) (final : Bool) : (stack.mark final).depth = stack.depth := rfl

/-- At most one frame more has a deferred call when one is deferred. -/
theorem waiting_defer_le (stack : Stack) (call : Call) :
    (stack.defer call).waiting ≤ stack.waiting + 1 := by
  obtain ⟨frames, depth, counted⟩ := stack
  cases frames <;> simp [waiting, defer, onTop, List.countP_cons]

/-- One frame less has a deferred call when one is taken up. -/
theorem waiting_clearDeferred {stack : Stack} {call : Call}
    (deferred : stack.deferred? = some call) :
    stack.clearDeferred.waiting + 1 = stack.waiting := by
  obtain ⟨frames, depth, counted⟩ := stack
  cases frames with
  | nil => simp [deferred?] at deferred
  | cons top rest =>
    simp only [deferred?] at deferred
    simp [waiting, clearDeferred, onTop, deferred]

end Stack

namespace Run

variable {α : Type}

/-- A step that reads and changes the heap alone, and so is never refused for want of room on the
stack. -/
def OnHeap (run : Run α) : Prop :=
  ∃ act : Heap → Except Error α × Heap, (∀ heap, Harmless (act heap).1) ∧
    ∀ machine : Machine, run machine =
      match act machine.heap with
      | (.ok result, heap) => .ok result { machine with heap }
      | (.error error, heap) => .error (.failed error) { machine with heap }

/-- Making pairs is a matter of the heap. -/
theorem onHeap_making {make : Value.Making α} (harmless : make.AllHarmless) :
    (making make).OnHeap := by
  refine ⟨fun heap => ((make heap.pairs).map Prod.fst,
    { heap with pairs := ((make heap.pairs).map Prod.snd).toOption.getD heap.pairs }),
    fun heap => ?_, fun machine => ?_⟩
  · change Harmless ((make heap.pairs).map Prod.fst)
    have harmless_here := harmless heap.pairs
    generalize make heap.pairs = result at harmless_here
    rcases result with error | made
    · exact harmless_error (harmless_here error rfl)
    · exact harmless_ok made.1
  · simp only [making]
    cases make machine.heap.pairs <;> rfl

/-- Quoting is a matter of the heap. -/
theorem onHeap_quoted (datum : Expr) : (making datum.quoted).OnHeap :=
  onHeap_making datum.allHarmless_quoted

/-- Applying a builtin is a matter of the heap. -/
theorem onHeap_builtin (procedure : Builtin) (args : List Value) :
    (making (procedure.apply args)).OnHeap :=
  onHeap_making (procedure.allHarmless_apply args)

/-- Opening a scope is a matter of the heap. -/
theorem onHeap_openScope (parent : ScopeId) (bindings : Bindings) :
    (openScope parent bindings).OnHeap :=
  ⟨fun heap => (.ok (heap.newScope (some parent) bindings).1,
    (heap.newScope (some parent) bindings).2), fun _ => harmless_ok _, fun _ => rfl⟩

/-- Making a closure is a matter of the heap. -/
theorem onHeap_close (params : List String) (body : List Expr) (scope : ScopeId) :
    (close params body scope).OnHeap :=
  ⟨fun heap => (.ok (.closure (heap.newClosure params body scope).1),
    (heap.newClosure params body scope).2), fun _ => harmless_ok _, fun _ => rfl⟩

/-- Looking a name up is a matter of the heap. -/
theorem onHeap_lookup (scope : ScopeId) (name : String) : (lookup scope name).OnHeap := by
  refine ⟨fun heap => ((heap.lookup scope name).elim (.error (.unbound name)) .ok, heap),
    fun heap => ?_, fun machine => ?_⟩
  · change Harmless ((heap.lookup scope name).elim (.error (.unbound name)) .ok)
    cases heap.lookup scope name with
    | none => exact harmless_error rfl
    | some value => exact harmless_ok value
  · simp only [lookup]
    cases machine.heap.lookup scope name <;> rfl

/-- Defining a name is a matter of the heap. -/
theorem onHeap_define (scope : ScopeId) (name : String) (value : Value) :
    (define scope name value).OnHeap :=
  ⟨fun heap => (.ok (), (heap.giveName value name).insert scope name value),
    fun _ => harmless_ok _, fun _ => rfl⟩

/-- Assigning to a name is a matter of the heap. -/
theorem onHeap_assign (scope : ScopeId) (name : String) (value : Value) :
    (assign scope name value).OnHeap := by
  refine ⟨fun heap => match heap.assign scope name value with
    | (true, heap) => (.ok (), heap.giveName value name)
    | (false, heap) => (.error (.unbound name), heap), fun heap => ?_, fun machine => ?_⟩
  · dsimp only
    split
    · exact harmless_ok ()
    · exact harmless_error rfl
  · simp only [assign]
    rcases machine.heap.assign scope name value with ⟨_ | _, heap⟩ <;> rfl

/-- Checking the number of arguments is a matter of the heap, where the names are. -/
theorem onHeap_checkCount (call : Call) : (checkCount call).OnHeap := by
  refine ⟨fun heap => (if call.args.length = call.callee.params.length then .ok ()
    else .error (.arityMismatch (heap.displayName call.callee) (.exact call.callee.params.length)
      call.args.length), heap), fun heap => ?_, fun machine => ?_⟩
  · dsimp only
    split
    · exact harmless_ok ()
    · exact harmless_error rfl
  · simp only [checkCount]
    split <;> rfl

end Run

/-- How many frames end with what is pending. -/
def Pending.live : List Pending → Nat
  | [] => 0
  | .frame :: pending => live pending + 1
  | _ :: pending => live pending

/-- Whether the end of a body waits, which only puts marks back. -/
def Pending.isMarks : Pending → Bool
  | .marks _ _ => true
  | _ => false

/-- The numbers that a moment has to do with. -/
structure Counts where
  /-- The frames on the stack. -/
  depth : Nat
  /-- The frames that end with what is pending. -/
  live : Nat
  /-- The frames that have a call deferred to them. -/
  waiting : Nat
  /-- The calls that have been deferred. -/
  deferrals : Nat

namespace Counts

/-- What one step does to the numbers, where at most `limit` frames are allowed and `tail` tells
whether the step is a call in tail position. -/
inductive Step (limit : Nat) (tail : Bool) : Counts → Counts → Prop where
  /-- Neither frames nor deferred calls change. -/
  | keep {before after : Counts} (same : after = before) : Step limit tail before after
  /-- A frame starts; there was room for it. -/
  | push {depth live waiting deferrals : Nat} (room : depth < limit) :
    Step limit tail ⟨depth, live, waiting, deferrals⟩ ⟨depth + 1, live + 1, waiting, deferrals⟩
  /-- A frame ends. -/
  | pop {depth live waiting fewer deferrals : Nat} (le : fewer ≤ waiting) :
    Step limit tail ⟨depth, live + 1, waiting, deferrals⟩ ⟨depth - 1, live, fewer, deferrals⟩
  /-- A call is deferred. -/
  | defer {depth live waiting more deferrals : Nat} (is_tail : tail = true)
      (le : more ≤ waiting + 1) :
    Step limit tail ⟨depth, live, waiting, deferrals⟩ ⟨depth, live, more, deferrals + 1⟩
  /-- A deferred call is taken up. -/
  | resume {depth live waiting fewer deferrals : Nat} (eq : fewer + 1 = waiting) :
    Step limit tail ⟨depth, live, waiting, deferrals⟩ ⟨depth, live, fewer, deferrals⟩

/-- The frames on the stack are those that end with what is pending, and no more calls wait than
have been deferred. -/
structure Sound (counts : Counts) : Prop where
  depth_eq : counts.depth = counts.live
  waiting_le : counts.waiting ≤ counts.deferrals

/-- How many of the deferred calls do not wait any longer. -/
def resumed (counts : Counts) : Nat := counts.deferrals - counts.waiting

namespace Step

variable {limit : Nat} {tail : Bool} {before after : Counts}

/-- A step keeps the numbers sound. -/
theorem sound (step : Step limit tail before after) (sound : before.Sound) : after.Sound := by
  obtain ⟨depth_eq, waiting_le⟩ := sound
  cases step with
  | keep same => exact same ▸ ⟨depth_eq, waiting_le⟩
  | push room => exact ⟨congrArg (· + 1) depth_eq, waiting_le⟩
  | pop le => exact ⟨congrArg (· - 1) depth_eq, le.trans waiting_le⟩
  | defer is_tail le => exact ⟨depth_eq, le.trans (Nat.add_le_add_right waiting_le 1)⟩
  | resume eq => exact ⟨depth_eq, (Nat.le_of_lt (Nat.lt_of_succ_le eq.le)).trans waiting_le⟩

/-- A deferred call that does not wait any longer will not wait again. -/
theorem resumed_le (step : Step limit tail before after) : before.resumed ≤ after.resumed := by
  cases step with
  | keep same => exact same ▸ Nat.le_refl _
  | push room => exact Nat.le_refl _
  | pop le => exact Nat.sub_le_sub_left le _
  | defer is_tail le =>
    simp only [resumed]
    omega
  | resume eq =>
    simp only [resumed]
    omega

/-- No step makes more frames than the limit allows. -/
theorem depth_le (step : Step limit tail before after) (bound : before.depth ≤ limit) :
    after.depth ≤ limit := by
  cases step with
  | keep same => exact same ▸ bound
  | push room => exact room
  | pop le => exact (Nat.sub_le _ _).trans bound
  | defer is_tail le => exact bound
  | resume eq => exact bound

/-- Outside tail position no step makes more calls wait. -/
theorem waiting_le (step : Step limit false before after) : after.waiting ≤ before.waiting := by
  cases step with
  | keep same => exact same ▸ Nat.le_refl _
  | push room => exact Nat.le_refl _
  | pop le => exact le
  | defer is_tail le => cases is_tail
  | resume eq => exact Nat.le_of_lt (Nat.lt_of_succ_le eq.le)

/-- Calls are deferred in tail position only. -/
theorem deferrals_eq (step : Step limit false before after) :
    after.deferrals = before.deferrals := by
  cases step with
  | keep same => exact same ▸ rfl
  | defer is_tail le => cases is_tail
  | _ => rfl

end Step

/-- The numbers of a machine and of what is pending. -/
def of (pending : List Pending) (machine : Machine) : Counts :=
  ⟨machine.depth, Pending.live pending, machine.stack.waiting, machine.deferrals⟩

end Counts

namespace Moment

/-- The numbers of a moment. -/
def counts (s : Moment) : Counts := .of s.pending s.machine

section

variable {α : Type} {config : Config} {pending : List Pending} {machine : Machine}

/-- A step on the heap succeeds or fails, and changes nothing but the heap. -/
theorem proceed_onHeap {run : Run α} (onHeap : run.OnHeap) {go : α → Machine → Moment}
    {motive : Moment → Prop} (success : ∀ result heap, motive (go result { machine with heap }))
    (failure : ∀ error heap, error.isRefusal = false →
      motive ⟨.stop (.failed error), pending, { machine with heap }⟩) :
    motive (proceed run pending machine go) := by
  obtain ⟨act, harmless, acts⟩ := onHeap
  rw [proceed, acts machine]
  rcases result_eq : act machine.heap with ⟨error | result, heap⟩
  · exact failure error heap (harmless machine.heap error (by rw [result_eq]))
  · exact success result heap

/-- A step on the heap leaves the numbers to what comes after it. -/
theorem counts_proceed {run : Run α} (onHeap : run.OnHeap) {go : α → Machine → Moment}
    (after : ∀ result heap, (go result { machine with heap }).counts = .of pending machine) :
    (proceed run pending machine go).counts = .of pending machine :=
  proceed_onHeap (motive := fun t => t.counts = .of pending machine) onHeap after
    fun _ _ _ => rfl

/-- Handing over the value of a step on the heap changes no number. -/
theorem counts_proceedWith {run : Run Value} (onHeap : run.OnHeap) :
    (proceedWith run pending machine).counts = .of pending machine :=
  counts_proceed onHeap fun _ _ => rfl

/-- Starting a body in the innermost frame changes no number. -/
theorem counts_start (place : Place) (items : List Expr) (scope : ScopeId) (final : Bool) :
    (start place items scope final pending machine).counts = .of pending machine := by
  simp [start, counts, Counts.of, Pending.live, Machine.mark, Machine.depth, Stack.depth_mark]

/-- Choosing a branch changes no number. -/
theorem counts_choose (place : Place) (index : Nat) (body : List Expr) (scope : ScopeId)
    (tail : Bool) :
    (choose place index body scope tail pending machine).counts = .of pending machine :=
  counts_proceed (Run.onHeap_openScope scope []) fun _ _ => counts_start _ _ _ _

/-- The first step of an expression changes no number. -/
theorem counts_evaluating (place : Place) (scope : ScopeId) (e : Expr) :
    (evaluating config place scope pending machine e).counts = .of pending machine := by
  cases e with
  | ident name => exact counts_proceedWith (Run.onHeap_lookup scope name)
  | quote datum => exact counts_proceedWith (Run.onHeap_quoted datum)
  | lambda params body => exact counts_proceedWith (Run.onHeap_close params body scope)
  | _ => rfl

/-- A call that starts in the innermost frame changes no number. -/
theorem counts_entering (call : Call) :
    (entering call pending machine).counts = .of pending machine :=
  counts_proceed (Run.onHeap_checkCount call) fun _ _ =>
    counts_proceed (Run.onHeap_openScope _ _) fun _ _ => counts_start _ _ _ _

/-- An application starts a frame or defers a call, if it does not end at once. -/
theorem step_applying (tail : Bool) (operator : Value) (args : List Value) :
    Counts.Step config.maxDepth tail (.of pending machine)
      (applying config tail args pending machine operator).counts := by
  cases operator with
  | builtin procedure => exact .keep (counts_proceedWith (Run.onHeap_builtin procedure args))
  | closure callee =>
    simp only [applying]
    split
    · next is_tail => exact .defer is_tail (Stack.waiting_defer_le _ _)
    · split
      · next room => exact .push room
      · exact .keep rfl
  | _ => exact .keep rfl

/-- A value ends the frame that waits for it, unless a call is deferred there. -/
theorem step_resuming (value : Value) (item : Pending) :
    Counts.Step config.maxDepth false (.of (item :: pending) machine)
      (resuming value pending machine item).counts := by
  cases item with
  | define name scope =>
    exact .keep (counts_proceed (Run.onHeap_define scope name value) fun _ _ => rfl)
  | set name scope =>
    exact .keep (counts_proceed (Run.onHeap_assign scope name value) fun _ _ => rfl)
  | choose place index body branches scope tail =>
    simp only [resuming]
    split
    · exact .keep (counts_choose _ _ _ _ _)
    · exact .keep rfl
    · exact .keep rfl
  | marks frame own =>
    refine .keep ?_
    simp [resuming, counts, Counts.of, Pending.live, Machine.mark, Machine.depth, Stack.depth_mark]
  | frame =>
    simp only [resuming]
    split
    · next call deferred => exact .resume (Stack.waiting_clearDeferred deferred)
    · exact .pop (Stack.waiting_pop_le _)
  | _ => exact .keep rfl

/-- Giving up ends the frames that wait, one after the other. -/
theorem step_abandon (cause : Stop) (item : Pending) :
    Counts.Step config.maxDepth false (.of (item :: pending) machine)
      (counts ⟨.stop cause, pending, abandon machine item⟩) := by
  cases item with
  | frame => exact .pop (Stack.waiting_pop_le _)
  | _ => exact .keep rfl

/-- Whether a procedure is applied in tail position. -/
def isTailCall : Moment → Bool
  | ⟨.apply _ tail _ _, _, _⟩ => tail
  | _ => false

/-- What one step does to the numbers. -/
theorem step_of_next {s t : Moment} (follows : next config s = some t) :
    Counts.Step config.maxDepth s.isTailCall s.counts t.counts := by
  revert follows
  fun_cases next config s <;> rintro ⟨⟩
  case case1 place e scope pending machine => exact .keep (counts_evaluating place scope e)
  case case5 place tail operator args pending machine => exact step_applying tail operator args
  case case10 => exact .keep (counts_choose _ _ _ _ _)
  case case12 call pending machine => exact .keep (counts_entering call)
  case case13 value item pending machine => exact step_resuming value item
  case case14 cause item pending machine => exact step_abandon cause item
  all_goals exact .keep rfl

/-- A call outside tail position starts in a frame of its own if there is room for one. -/
theorem next_of_room {place : Place} {callee : Closure} {args : List Value}
    (room : machine.depth < config.maxDepth) :
    next config ⟨.apply place false (.closure callee) args, pending, machine⟩ =
      some ⟨.enter ⟨callee, args⟩, .frame :: pending, machine.push callee⟩ := by
  simp [next, applying, room]

/-- A call outside tail position is refused if there is no room for a frame. -/
theorem next_of_no_room {place : Place} {callee : Closure} {args : List Value}
    (full : ¬machine.depth < config.maxDepth) :
    next config ⟨.apply place false (.closure callee) args, pending, machine⟩ =
      some ⟨.stop (.failed (.callDepthExceeded config.maxDepth)), pending, machine⟩ := by
  simp [next, applying, full]

/-- A frame to which no call is deferred ends with its body. -/
theorem next_frame_of_none {value : Value} (deferred : machine.stack.deferred? = none) :
    next config ⟨.give value, .frame :: pending, machine⟩ =
      some ⟨.give value, pending, machine.pop⟩ := by
  simp only [next, resuming, deferred]

/-- A frame goes on with the call that is deferred to it. -/
theorem next_frame_of_some {value : Value} {call : Call}
    (deferred : machine.stack.deferred? = some call) :
    next config ⟨.give value, .frame :: pending, machine⟩ =
      some ⟨.enter call, .frame :: pending,
        { machine with stack := machine.stack.clearDeferred }⟩ := by
  simp only [next, resuming, deferred]

end

/-- The numbers of a moment are sound. -/
def Sound (s : Moment) : Prop := s.counts.Sound

/-- How many of the deferred calls do not wait any longer. -/
def resumed (s : Moment) : Nat := s.counts.resumed

section

variable {config : Config} {s t : Moment}

/-- All moments that come after a sound one are sound. -/
theorem Sound.of_reaches (sound : s.Sound) (reached : Reaches (next config) s t) : t.Sound := by
  induction reached with
  | refl => exact sound
  | tail _ follows ih => exact (step_of_next follows).sound ih

/-- Calls that do not wait any longer will not wait again. -/
theorem resumed_le_of_reaches (reached : Reaches (next config) s t) : s.resumed ≤ t.resumed := by
  induction reached with
  | refl => exact Nat.le_refl _
  | tail _ follows ih => exact ih.trans (step_of_next follows).resumed_le

/-- An evaluation keeps to the limit of frames. -/
theorem depth_le_of_reaches (reached : Reaches (next config) s t)
    (bound : s.depth ≤ config.maxDepth) : t.depth ≤ config.maxDepth := by
  induction reached with
  | refl => exact bound
  | tail _ follows ih => exact (step_of_next follows).depth_le ih

/-- The first moment of an evaluation that starts without frames is sound. -/
theorem sound_first (tree : Expr) {machine : Machine} (rest : machine.stack = .empty) :
    (first tree machine).Sound := by
  refine ⟨?_, ?_⟩ <;>
    simp [first, counts, Counts.of, Machine.begin, Machine.depth, rest, Stack.empty,
      Stack.waiting, Pending.live]

/-- Taking a number of steps leads to a later moment. -/
theorem reaches_of_steps {n : Nat} :
    ∀ {s : Moment}, (fun u => u.bind (next config))^[n] (some s) = some t →
      Reaches (next config) s t := by
  induction n with
  | zero =>
    intro s same
    exact Option.some.inj same ▸ .refl
  | succ n ih =>
    intro s steps
    rw [Function.iterate_succ_apply, Option.bind_some] at steps
    rcases follows : next config s with _ | u
    · rw [follows, Function.iterate_fixed rfl] at steps
      cases steps
    · rw [follows] at steps
      exact .head follows (ih steps)

/-- From a moment of giving up, only such moments come. -/
theorem stop_of_reaches {cause : Stop} (stops : s.task = .stop cause)
    (reached : Reaches (next config) s t) : t.task = .stop cause := by
  induction reached with
  | refl => exact stops
  | @tail u v _ follows ih =>
    obtain ⟨task, pending, machine⟩ := u
    obtain rfl : task = .stop cause := ih
    cases pending with
    | nil => simp [next] at follows
    | cons item pending =>
      obtain rfl := Option.some.inj follows
      rfl

end

end Moment

end TailScheme
