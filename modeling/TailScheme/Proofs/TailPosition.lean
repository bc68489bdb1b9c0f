import TailScheme.Proofs.Placement

/-!
# Calls in tail position

A closure that is applied in tail position takes over the frame of the procedure that applies it;
anywhere else it runs in a frame of its own, if there is room for one. What is in tail position is
a matter of the code alone (`Place.isTail`).

A call that takes over the frame does not start at once. What is pending up to the end of the
frame comes first, but that is only marks, so nothing is lost by it: `quiet_of_unwinds`.
-/
namespace TailScheme

open StateTransition Relation

/-- The frames that end with two lists of what is pending, one after the other. -/
@[simp] theorem Pending.live_append (first second : List Pending) :
    live (first ++ second) = live first + live second := by
  induction first with
  | nil => simp [live]
  | cons item first ih =>
    cases item with
    | frame =>
      simp only [List.cons_append, live, ih]
      omega
    | _ => exact ih

namespace Moment

variable {config : Config} {tree : Expr} {s t : Moment}

/-- A moment is followed by another one with the same depth and the same heap. -/
def Quiet (config : Config) (s t : Moment) : Prop :=
  next config s = some t ∧ t.depth = s.depth ∧ t.machine.heap = s.machine.heap

/-- A call starts in a frame of its callee on top of other frames. While it runs, the depth is
that of its frame but for the frames of the calls that it makes. -/
structure Runs (config : Config) (call : Call) (below : List Frame) (t : Moment) : Prop where
  entered : t.task = .enter call
  frames : t.machine.stack.frames = ⟨call.callee, none, false⟩ :: below
  depth_eq : ∀ u inner, Reaches (next config) t u → u.pending = inner ++ t.pending →
    u.depth = t.depth + Pending.live inner

/-- A call takes over the innermost frame: it starts at the same depth, and nothing else happens
before. -/
def ReusesFrame (config : Config) (call : Call) (s : Moment) : Prop :=
  ∃ t, ReflTransGen (Quiet config) s t ∧ Runs config call s.machine.stack.frames.tail t

/-- A call runs in a frame of its own, one deeper, and when what was pending before is next again,
the depth is what it was before. -/
def AddsFrame (config : Config) (call : Call) (s : Moment) : Prop :=
  ∃ t, next config s = some t ∧ t.depth = s.depth + 1 ∧
    Runs config call s.machine.stack.frames t ∧
    ∀ u, Reaches (next config) t u → u.pending = s.pending → u.depth = s.depth

/-- At sound moments the depth is known from what is pending. -/
theorem Sound.depth_eq_live (sound : s.Sound) : s.depth = Pending.live s.pending :=
  sound.depth_eq

/-- While a call runs, the depth is that of its frame but for the frames of its own calls. -/
theorem Sound.depth_add (sound : t.Sound) {u : Moment} {inner : List Pending}
    (reached : Reaches (next config) t u) (within : u.pending = inner ++ t.pending) :
    u.depth = t.depth + Pending.live inner := by
  have later := (sound.of_reaches reached).depth_eq_live
  rw [later, within, Pending.live_append, sound.depth_eq_live, Nat.add_comm]

/-- What quiet steps lead to is reached. -/
theorem reaches_of_quiet (quiet : ReflTransGen (Quiet config) s t) :
    Reaches (next config) s t := by
  induction quiet with
  | refl => exact .refl
  | tail _ step ih => exact ih.tail step.1

/-- A value passes the ends of bodies quietly, and only the mark of the frame may change. -/
theorem quiet_past_marks (value : Value) (rest : List Pending) (marks : List Pending)
    (only : ∀ item ∈ marks, item.isMarks = true) :
    ∀ machine : Machine, ∃ (after : Machine) (final : Bool), after.heap = machine.heap ∧
      after.stack = machine.stack.mark final ∧ ∀ config : Config,
        ReflTransGen (Quiet config) ⟨.give value, marks ++ rest, machine⟩
          ⟨.give value, rest, after⟩ := by
  induction marks with
  | nil =>
    intro machine
    exact ⟨machine, machine.stack.isFinal, rfl, (Stack.mark_isFinal _).symm, fun _ => .refl⟩
  | cons item marks ih =>
    intro machine
    rw [List.forall_mem_cons] at only
    cases item with
    | marks frame own =>
      obtain ⟨after, final, same_heap, stack_eq, quiet⟩ :=
        ih only.2 { machine.mark frame with final := own }
      refine ⟨after, final, same_heap, ?_, fun config => .head ⟨rfl, rfl, rfl⟩ (quiet config)⟩
      rw [stack_eq]
      exact Stack.mark_mark _ _ _
    | _ => cases only.1

/-- A call that is deferred starts after the ends of the bodies that wait for it. -/
theorem quiet_of_unwinds (call : Call) (value : Value) {caller : Stack} {pending : List Pending}
    {machine : Machine} {mark : Bool} {below : List Frame}
    (unwinds : Unwinds config.tailCalls tree caller pending)
    (frames : machine.stack.frames = ⟨call.callee, some call, mark⟩ :: below) :
    ∃ marks rest after, (∀ item ∈ marks, item.isMarks = true) ∧
      pending = marks ++ .frame :: rest ∧ after.heap = machine.heap ∧
      after.stack.frames = ⟨call.callee, none, false⟩ :: below ∧
      ReflTransGen (Quiet config) ⟨.give value, pending, machine⟩
        ⟨.enter call, .frame :: rest, after⟩ := by
  obtain ⟨marks, rest, rfl, only⟩ := unwinds.eq_append
  obtain ⟨before, final, same_heap, stack_eq, quiet⟩ :=
    quiet_past_marks value (.marks false false :: .frame :: rest) marks only machine
  let between : Machine := { before.mark false with final := false }
  have between_frames : between.stack.frames = ⟨call.callee, some call, false⟩ :: below := by
    -- The last body to end is that of the procedure, which leaves the mark of its frame off.
    change (before.stack.mark false).frames = _
    rw [stack_eq, Stack.mark_mark]
    simp [Stack.mark, Stack.onTop, frames]
  have deferred : between.stack.deferred? = some call := by
    simp only [Stack.deferred?, between_frames]
  refine ⟨marks ++ [.marks false false], rest,
    { between with stack := between.stack.clearDeferred }, ?_, ?_, same_heap, ?_, ?_⟩
  · intro item member
    rcases List.mem_append.mp member with within | last
    · exact only item within
    · rw [List.mem_singleton.mp last]
      rfl
  · rw [List.append_assoc, List.singleton_append]
  · simp [Stack.clearDeferred, Stack.onTop, between_frames]
  · have one_more := (quiet config).tail ⟨rfl, rfl, rfl⟩
    exact one_more.tail ⟨next_frame_of_some deferred, rfl, rfl⟩

/-- Quiet steps are steps. -/
theorem reaches₁_of_quiet (quiet : TransGen (Quiet config) s t) :
    Reaches₁ (next config) s t := by
  obtain ⟨u, step, later⟩ := TransGen.head'_iff.mp quiet
  exact .head' step.1 (reaches_of_quiet later)

section

variable {place : Place} {callee : Closure} {args : List Value} {pending : List Pending}
  {machine : Machine}

/-- A call in tail position is deferred and starts quietly in the frame that there is. -/
theorem quiet_of_tail
    (consistent : Consistent config.tailCalls tree
      ⟨.apply place true (.closure callee) args, pending, machine⟩) :
    ∃ marks rest after, (∀ item ∈ marks, item.isMarks = true) ∧
      pending = marks ++ .frame :: rest ∧ after.heap = machine.heap ∧
      after.stack.frames = ⟨callee, none, false⟩ :: machine.stack.frames.tail ∧
      TransGen (Quiet config) ⟨.apply place true (.closure callee) args, pending, machine⟩
        ⟨.enter ⟨callee, args⟩, .frame :: rest, after⟩ := by
  obtain ⟨at_, tail_eq, _⟩ := consistent
  obtain ⟨caller, inside, unwinds⟩ := exists_unwinds at_ tail_eq.symm
  obtain ⟨top, below, frames⟩ := List.exists_cons_of_ne_nil
    (Stack.caller_isSome_iff.mp (Option.isSome_of_eq_some inside))
  have deferred : (machine.defer ⟨callee, args⟩).stack.frames =
      ⟨callee, some ⟨callee, args⟩, false⟩ :: below := Stack.frames_defer ⟨callee, args⟩ frames
  obtain ⟨marks, rest, after, only, pending_eq, same_heap, after_frames, quiet⟩ :=
    quiet_of_unwinds ⟨callee, args⟩ .nil unwinds deferred
  refine ⟨marks, rest, after, only, pending_eq, same_heap, ?_, .head' ⟨rfl, rfl, rfl⟩ quiet⟩
  rw [after_frames, frames, List.tail_cons]

/-- A call in tail position takes over the frame. -/
theorem reusesFrame_of_tail
    (sound : Sound ⟨.apply place true (.closure callee) args, pending, machine⟩)
    (consistent : Consistent config.tailCalls tree
      ⟨.apply place true (.closure callee) args, pending, machine⟩) :
    ReusesFrame config ⟨callee, args⟩
      ⟨.apply place true (.closure callee) args, pending, machine⟩ := by
  obtain ⟨marks, rest, after, _, _, _, after_frames, quiet⟩ := quiet_of_tail consistent
  have path := quiet.to_reflTransGen
  have sound_after := sound.of_reaches (reaches_of_quiet path)
  exact ⟨_, path, rfl, after_frames, fun u inner reached within =>
    sound_after.depth_add reached within⟩

/-- A call outside tail position adds a frame if there is room for it. -/
theorem addsFrame_of_room
    (sound : Sound ⟨.apply place false (.closure callee) args, pending, machine⟩)
    (room : machine.depth < config.maxDepth) :
    AddsFrame config ⟨callee, args⟩
      ⟨.apply place false (.closure callee) args, pending, machine⟩ := by
  have sound_after := sound.of_reaches (.single (next_of_room room))
  refine ⟨_, next_of_room room, rfl, ⟨rfl, rfl, fun u inner reached within =>
    sound_after.depth_add reached within⟩, fun u reached same => ?_⟩
  rw [(sound_after.of_reaches reached).depth_eq_live, same]
  exact sound.depth_eq_live.symm

/-- A call outside tail position never takes over the frame. -/
theorem not_reusesFrame :
    ¬ReusesFrame config ⟨callee, args⟩
      ⟨.apply place false (.closure callee) args, pending, machine⟩ := by
  rintro ⟨t, path, entered, _, _⟩
  rcases path.cases_head with rfl | ⟨u, ⟨follows, same_depth, _⟩, path⟩
  · cases entered
  · by_cases room : machine.depth < config.maxDepth
    · rw [next_of_room room] at follows
      cases follows
      simp [depth, Machine.depth, Machine.push, Stack.push] at same_depth
    · rw [next_of_no_room room] at follows
      cases follows
      have stops := stop_of_reaches rfl (reaches_of_quiet path)
      rw [entered] at stops
      cases stops

/-- A call takes over the frame if it was told to be a tail call. -/
theorem frame_of_apply {tail : Bool}
    (sound : Sound ⟨.apply place tail (.closure callee) args, pending, machine⟩)
    (consistent : Consistent config.tailCalls tree
      ⟨.apply place tail (.closure callee) args, pending, machine⟩) :
    ReusesFrame config ⟨callee, args⟩
      ⟨.apply place tail (.closure callee) args, pending, machine⟩ ↔ tail = true := by
  cases tail with
  | true => exact iff_of_true (reusesFrame_of_tail sound consistent) rfl
  | false => exact iff_of_false not_reusesFrame Bool.false_ne_true

end

/-- A closure that is applied takes over the frame of the procedure that runs if and only if tail
calls are on and the application is in tail position in the code of that procedure. Otherwise its
call adds a frame or, at the limit, is refused. This holds in every evaluation that starts with no
procedure running, as all do after whatever came before. -/
theorem reusesFrame_iff_isTail (config : Config) (tree : Expr) {machine : Machine} {s : Moment}
    {place : Place} {tail : Bool} {callee : Closure} {args : List Value}
    (rest : machine.stack = .empty) (reached : Reaches (next config) (first tree machine) s)
    (applies : s.task = .apply place tail (.closure callee) args) :
    (∃ items, items.length = args.length + 1 ∧ place.expr? (s.code tree) = some (.list items)) ∧
    (ReusesFrame config ⟨callee, args⟩ s ↔
      config.tailCalls = true ∧ s.machine.stack.frames ≠ [] ∧
        place.isTail (s.code tree) = true) ∧
    (¬ReusesFrame config ⟨callee, args⟩ s →
      s.depth < config.maxDepth ∧ AddsFrame config ⟨callee, args⟩ s ∨
      s.depth = config.maxDepth ∧ next config s =
        some ⟨.stop (.failed (.callDepthExceeded config.maxDepth)), s.pending, s.machine⟩) := by
  have sound : s.Sound := (sound_first tree rest).of_reaches reached
  have consistent : s.Consistent config.tailCalls tree :=
    (consistent_first config.tailCalls tree rest).of_reaches reached
  have bound : s.depth ≤ config.maxDepth := by
    refine depth_le_of_reaches reached ?_
    simp [first, depth, Machine.depth, Machine.begin, rest, Stack.empty]
  obtain ⟨task, pending, after⟩ := s
  obtain rfl : task = .apply place tail (.closure callee) args := applies
  have reuses := frame_of_apply sound consistent
  obtain ⟨at_, tail_eq, quiet, items, count, found⟩ := consistent
  refine ⟨⟨items, count, found⟩, ?_, fun adds => ?_⟩
  · rw [reuses, tail_eq, Level.tail, Bool.and_eq_true, Bool.and_eq_true, and_assoc,
      Stack.caller_isSome_iff]
    rfl
  · obtain rfl : tail = false := by simpa [reuses] using adds
    rcases Nat.lt_or_eq_of_le bound with room | full
    · exact .inl ⟨room, addsFrame_of_room sound room⟩
    · exact .inr ⟨full, next_of_no_room (Nat.not_lt.mpr full.ge)⟩

/-- In `((lambda () ((lambda () 1))))` the inner procedure takes over the frame of the outer one. -/
theorem reusesFrame_of_nested_call :
    let config : Config := ⟨true, 1⟩
    let outer : Closure := ⟨0, [], [.list [.lambda [] [.int 1]]], 0⟩
    let inner : Closure := ⟨1, [], [.int 1], 1⟩
    let tree : Expr := .list [.lambda [] [.list [.lambda [] [.int 1]]]]
    let s : Moment := ⟨.apply (.item .code 0) true (.closure inner) [],
      [.marks false false, .frame],
      ⟨⟨Heap.initial.scopes.push ⟨some 0, []⟩, #[none, none], 0⟩, ⟨[⟨outer, none, true⟩], 1, rfl⟩,
        false, 1, 0⟩⟩
    Reaches (next config) (first tree .initial) s ∧ ReusesFrame config ⟨inner, []⟩ s := by
  intro config outer inner tree s
  have path : Reaches (next config) (first tree .initial) s :=
    reaches_of_steps (n := 13) rfl
  exact ⟨path, (reusesFrame_iff_isTail config tree rfl path rfl).2.1.mpr
    ⟨rfl, List.cons_ne_nil _ _, by decide⟩⟩

end Moment

end TailScheme
