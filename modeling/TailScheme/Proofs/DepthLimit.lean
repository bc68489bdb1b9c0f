import TailScheme.Proofs.Course
import Mathlib.Order.Lattice.Nat

/-!
# The call depth limit

Two evaluations of a tree that differ in the limit alone go through the same moments up to the
first call that finds no room under the smaller limit. There the evaluation with the smaller limit
fails, and with the larger limit one more frame is live than the smaller one allows. So the limit
decides by the peak of an evaluation whether it comes through, and changes nothing otherwise.
-/
namespace TailScheme

open StateTransition

namespace Moment

/-- A call that needs a frame finds no room for it. -/
def Overflows (config : Config) (s : Moment) : Prop :=
  ∃ place callee args, s.task = .apply place false (.closure callee) args ∧
    config.maxDepth ≤ s.depth

/-- The most frames that are live at once. -/
structure IsPeak (config : Config) (start : Moment) (peak : Nat) : Prop where
  bound : ∀ s, Reaches (next config) start s → s.depth ≤ peak
  attained : ∃ s, Reaches (next config) start s ∧ s.depth = peak

section

variable {config : Config} {s t start : Moment}

/-- A call that finds no room fails. -/
theorem next_of_overflows (overflows : Overflows config s) :
    next config s =
      some ⟨.stop (.failed (.callDepthExceeded config.maxDepth)), s.pending, s.machine⟩ := by
  obtain ⟨place, callee, args, applies, full⟩ := overflows
  obtain ⟨task, pending, machine⟩ := s
  subst applies
  exact next_of_no_room (Nat.not_lt.mpr full)

/-- A call that finds room starts in a frame of its own. -/
theorem next_of_not_overflows {place : Place} {callee : Closure} {args : List Value}
    {pending : List Pending} {machine : Machine}
    (fits : ¬Overflows config ⟨.apply place false (.closure callee) args, pending, machine⟩) :
    next config ⟨.apply place false (.closure callee) args, pending, machine⟩ =
      some ⟨.enter ⟨callee, args⟩, .frame :: pending, machine.push callee⟩ := by
  refine next_of_room (Nat.not_le.mp fun full => fits ?_)
  exact ⟨place, callee, args, rfl, full⟩

/-- An evaluation that gives up comes to its end with the heap that it has. -/
theorem reaches_end_of_stop (cause : Stop) (pending : List Pending) :
    ∀ machine : Machine, ∃ last : Machine, last.heap = machine.heap ∧ ∀ config : Config,
      Reaches (next config) ⟨.stop cause, pending, machine⟩ ⟨.stop cause, [], last⟩ := by
  induction pending with
  | nil => exact fun machine => ⟨machine, rfl, fun _ => .refl⟩
  | cons item pending ih =>
    intro machine
    obtain ⟨last, same_heap, reached⟩ := ih (abandon machine item)
    have kept : (abandon machine item).heap = machine.heap := by cases item <;> rfl
    exact ⟨last, same_heap.trans kept, fun config => .head rfl (reached config)⟩

/-- From a call that finds no room, an evaluation comes to its end with the heap that it has. -/
theorem reaches_end_of_overflows (overflows : Overflows config s) :
    ∃ last : Machine, last.heap = s.machine.heap ∧ Reaches (next config) s
      ⟨.ending (.error (.callDepthExceeded config.maxDepth)), [], last⟩ := by
  obtain ⟨last, same_heap, ends⟩ :=
    reaches_end_of_stop (.failed (.callDepthExceeded config.maxDepth)) s.pending s.machine
  exact ⟨last, same_heap, .head (next_of_overflows overflows) (ends config)⟩

/-- An evaluation with a call that finds no room fails for that. -/
theorem ends_of_overflows {tree : Expr} {heap : Heap}
    (reached : Reaches (next config) (first tree (.ofHeap heap)) s)
    (overflows : Overflows config s) :
    Ends config tree heap (.error (.callDepthExceeded config.maxDepth)) s.machine.heap := by
  obtain ⟨last, same_heap, ends⟩ := reaches_end_of_overflows overflows
  exact ends_iff_reaches.mpr ⟨last, same_heap, reached.trans ends⟩

/-- An evaluation that comes through has no call that finds no room. -/
theorem not_overflows_of_ends {outcome : Except Error Value} {last : Machine}
    (ends : Reaches (next config) s ⟨.ending outcome, [], last⟩)
    (accepted : outcome ≠ .error (.callDepthExceeded config.maxDepth)) :
    ¬Overflows config s := by
  intro overflows
  obtain ⟨_, _, refused⟩ := reaches_end_of_overflows overflows
  exact accepted (ending_unique refused ends).1

/-- A step on the heap does not fail for want of room. -/
theorem proceed_ne_refusal {α : Type} {run : Run α} (onHeap : run.OnHeap)
    {pending : List Pending} {machine : Machine} {go : α → Machine → Moment} {limit : Nat}
    (goes_on : ∀ result heap, (go result { machine with heap }).task ≠
      .stop (.failed (.callDepthExceeded limit))) :
    (proceed run pending machine go).task ≠ .stop (.failed (.callDepthExceeded limit)) := by
  refine proceed_onHeap (motive := fun t => t.task ≠ .stop (.failed (.callDepthExceeded limit)))
    onHeap goes_on fun error heap other refused => ?_
  obtain rfl := Stop.failed.inj (Task.stop.inj refused)
  cases other

/-- Handing over the value of a step on the heap is no failure for want of room. -/
theorem proceedWith_ne_refusal {run : Run Value} (onHeap : run.OnHeap) {pending : List Pending}
    {machine : Machine} {limit : Nat} :
    (proceedWith run pending machine).task ≠ .stop (.failed (.callDepthExceeded limit)) :=
  proceed_ne_refusal onHeap fun _ _ refused => by cases refused

/-- An evaluation begins to fail for want of room only with a call that finds none. -/
theorem overflows_of_next {limit : Nat} (follows : next config s = some t)
    (refused : t.task = .stop (.failed (.callDepthExceeded limit))) :
    s.task = .stop (.failed (.callDepthExceeded limit)) ∨ Overflows config s := by
  revert follows refused
  fun_cases next config s <;> rintro ⟨⟩ refused
  case case1 place e scope pending machine =>
    cases e with
    | ident name => exact absurd refused (proceedWith_ne_refusal (Run.onHeap_lookup _ _))
    | quote datum => exact absurd refused (proceedWith_ne_refusal (Run.onHeap_quoted _))
    | lambda params body => exact absurd refused (proceedWith_ne_refusal (Run.onHeap_close _ _ _))
    | _ => cases refused
  case case5 place tail operator args pending machine =>
    cases operator with
    | builtin procedure =>
      exact absurd refused (proceedWith_ne_refusal (Run.onHeap_builtin _ _))
    | closure callee =>
      simp only [applying] at refused
      split at refused
      · cases refused
      · next not_tail =>
        obtain rfl := Bool.eq_false_of_not_eq_true not_tail
        split at refused
        · cases refused
        · next full => exact .inr ⟨place, callee, args, rfl, Nat.not_lt.mp full⟩
    | _ => cases refused
  case case12 call pending machine =>
    refine absurd refused (proceed_ne_refusal (Run.onHeap_checkCount call) fun _ _ => ?_)
    exact proceed_ne_refusal (Run.onHeap_openScope _ _) fun _ _ refused => by cases refused
  case case13 value item pending machine =>
    cases item with
    | define name scope =>
      exact absurd refused (proceed_ne_refusal (Run.onHeap_define _ _ _) fun _ _ refused => by
        cases refused)
    | set name scope =>
      exact absurd refused (proceed_ne_refusal (Run.onHeap_assign _ _ _) fun _ _ refused => by
        cases refused)
    | choose | frame =>
      simp only [resuming] at refused
      split at refused <;> cases refused
    | _ => cases refused
  case case14 => exact .inl refused
  all_goals cases refused

/-- An evaluation fails for want of room only with a call that finds none. -/
theorem overflows_of_reaches {limit : Nat} (reached : Reaches (next config) s t)
    (refused : t.task = .stop (.failed (.callDepthExceeded limit))) :
    s.task = .stop (.failed (.callDepthExceeded limit)) ∨
      ∃ u, Reaches (next config) s u ∧ Overflows config u := by
  induction reached with
  | refl => exact .inl refused
  | @tail u v before follows ih =>
    rcases overflows_of_next follows refused with already | overflows
    · exact ih already
    · exact .inr ⟨u, before, overflows⟩

/-- A peak is found if there is a bound. -/
theorem exists_isPeak {limit : Nat}
    (bound : ∀ s, Reaches (next config) start s → s.depth ≤ limit) :
    ∃ peak, IsPeak config start peak := by
  let depths : Set Nat := {depth | ∃ s, Reaches (next config) start s ∧ s.depth = depth}
  have some_depth : depths.Nonempty := ⟨start.depth, start, .refl, rfl⟩
  have bounded : BddAbove depths := by
    refine ⟨limit, ?_⟩
    rintro depth ⟨s, reached, rfl⟩
    exact bound s reached
  refine ⟨sSup depths, fun s reached => ?_, Nat.sSup_mem some_depth bounded⟩
  exact le_csSup bounded ⟨s, reached, rfl⟩

end

section

variable {tailCalls : Bool} {small large : Nat} {s t start : Moment}

/-- The limit changes nothing where there is no call without room. -/
theorem next_eq_of_not_overflows (le : small ≤ large)
    (fits : ¬Overflows ⟨tailCalls, small⟩ s) :
    next ⟨tailCalls, small⟩ s = next ⟨tailCalls, large⟩ s := by
  revert fits
  fun_cases next ⟨tailCalls, small⟩ s <;> intro fits
  case case1 place e scope pending machine => cases e <;> rfl
  case case5 place tail operator args pending machine =>
    cases operator with
    | closure callee =>
      cases tail with
      | true => rfl
      | false =>
        have fits_large : ¬Overflows ⟨tailCalls, large⟩
            ⟨.apply place false (.closure callee) args, pending, machine⟩ := by
          rintro ⟨_, _, _, _, full⟩
          exact fits ⟨place, callee, args, rfl, le.trans full⟩
        exact (next_of_not_overflows fits).trans (next_of_not_overflows fits_large).symm
    | _ => rfl
  all_goals rfl

/-- Under the smaller limit an evaluation comes through all the moments under the larger limit, or
to a call that finds no room. In the latter case the moments are the same up to that call. -/
theorem reaches_or_overflows (le : small ≤ large)
    (reached : Reaches (next ⟨tailCalls, large⟩) start t) :
    Reaches (next ⟨tailCalls, small⟩) start t ∨
      ∃ s, Reaches (next ⟨tailCalls, small⟩) start s ∧ Overflows ⟨tailCalls, small⟩ s ∧
        Reaches (next ⟨tailCalls, large⟩) start s ∧ Reaches₁ (next ⟨tailCalls, large⟩) s t := by
  induction reached with
  | refl => exact .inl .refl
  | @tail u v before follows ih =>
    -- Once a call has found no room, only the evaluation with the larger limit goes on.
    rcases ih with same | ⟨s, reached, overflows, also, later⟩
    · by_cases overflows : Overflows ⟨tailCalls, small⟩ u
      · exact .inr ⟨u, same, overflows, before, .single follows⟩
      · have steps : next ⟨tailCalls, small⟩ u = some v :=
          (next_eq_of_not_overflows le overflows).trans follows
        exact .inl (same.tail steps)
    · exact .inr ⟨s, reached, overflows, also, later.tail follows⟩

/-- What comes after a call that finds no room under the smaller limit: more frames than that, or
the failure under the larger limit. -/
theorem deeper_or_stop_of_overflows (overflows : Overflows ⟨tailCalls, small⟩ s)
    (follows : next ⟨tailCalls, large⟩ s = some t) :
    small < t.depth ∨ t.task = .stop (.failed (.callDepthExceeded large)) := by
  by_cases full : large ≤ s.depth
  · obtain ⟨place, callee, args, applies, _⟩ := overflows
    have refused : Overflows ⟨tailCalls, large⟩ s := ⟨place, callee, args, applies, full⟩
    rw [next_of_overflows refused] at follows
    obtain rfl := Option.some.inj follows
    exact .inr rfl
  · obtain ⟨place, callee, args, applies, deep⟩ := overflows
    obtain ⟨task, pending, machine⟩ := s
    subst applies
    have room : machine.depth < large := Nat.not_le.mp full
    rw [next_of_room room] at follows
    obtain rfl := Option.some.inj follows
    exact .inl (Nat.lt_succ_of_le deep)

end

end Moment

/-- The limit is exact and otherwise invisible. No more frames are live than it allows. An
evaluation that does not fail for want of room under a larger limit comes to the same end under a
smaller one if its peak is within the smaller one, and fails for want of room if it is not. What
fails for want of room under a larger limit does so under a smaller one. -/
theorem depth_limit_exact (tailCalls : Bool) (tree : Expr) (heap : Heap) {small large : Nat}
    (le : small ≤ large) :
    (∀ s, Reaches (Moment.next ⟨tailCalls, small⟩) (.first tree (.ofHeap heap)) s →
      s.depth ≤ small) ∧
    (∀ outcome after, Ends ⟨tailCalls, large⟩ tree heap outcome after →
      outcome ≠ .error (.callDepthExceeded large) →
      ∃ peak, Moment.IsPeak ⟨tailCalls, large⟩ (.first tree (.ofHeap heap)) peak ∧
        (peak ≤ small → Ends ⟨tailCalls, small⟩ tree heap outcome after) ∧
        (small < peak → ∃ last,
          Ends ⟨tailCalls, small⟩ tree heap (.error (.callDepthExceeded small)) last)) ∧
    (∀ after, Ends ⟨tailCalls, large⟩ tree heap (.error (.callDepthExceeded large)) after →
      ∃ last, Ends ⟨tailCalls, small⟩ tree heap (.error (.callDepthExceeded small)) last) := by
  have within : ∀ limit s,
      Reaches (Moment.next ⟨tailCalls, limit⟩) (.first tree (.ofHeap heap)) s →
      s.depth ≤ limit :=
    fun limit s reached => Moment.depth_le_of_reaches reached (Nat.zero_le limit)
  refine ⟨within small, fun outcome after ends accepted => ?_, fun after ends => ?_⟩
  · obtain ⟨peak, is_peak⟩ := Moment.exists_isPeak (within large)
    obtain ⟨machine, rfl, reached⟩ := ends_iff_reaches.mp ends
    refine ⟨peak, is_peak, fun fits => ?_, fun deep => ?_⟩
    · rcases Moment.reaches_or_overflows le reached with same | ⟨s, _, overflows, before, later⟩
      · exact ends_iff_reaches.mpr ⟨machine, rfl, same⟩
      · obtain ⟨t, follows, later⟩ := Relation.TransGen.head'_iff.mp later
        rcases Moment.deeper_or_stop_of_overflows overflows follows with deep | refused
        · have within_peak := is_peak.bound t (before.tail follows)
          omega
        · exact absurd (Task.ending_injective (Moment.stop_of_reaches refused later)) accepted
    · obtain ⟨s, reached_s, rfl⟩ := is_peak.attained
      rcases Moment.reaches_or_overflows le reached_s with same | ⟨u, before, overflows, _⟩
      · exact absurd (within small s same) (Nat.not_le.mpr deep)
      · exact ⟨_, Moment.ends_of_overflows before overflows⟩
  · obtain ⟨machine, rfl, reached⟩ := ends_iff_reaches.mp ends
    rcases Moment.reaches_or_overflows le reached with same | ⟨u, before, overflows, _⟩
    · rcases Moment.overflows_of_reaches same rfl with impossible | ⟨u, before, overflows⟩
      · cases impossible
      · exact ⟨_, Moment.ends_of_overflows before overflows⟩
    · exact ⟨_, Moment.ends_of_overflows before overflows⟩

/-- One call comes through under the limit one, where it is at its peak, but not under the limit
zero. -/
theorem depth_limit_of_one_call :
    let tree : Expr := .list [.lambda [] [.int 1]]
    ∃ last, 0 ≤ 1 ∧ Ends ⟨true, 0⟩ tree .initial (.error (.callDepthExceeded 0)) last := by
  intro tree
  let after : Heap := ⟨Heap.initial.scopes.push ⟨some 0, []⟩, #[none], 0⟩
  let machine : Machine := ⟨after, .empty, false, 1, 0⟩
  have reached : Reaches (Moment.next ⟨true, 1⟩) (.first tree (.ofHeap .initial))
      ⟨.ending (.ok (.int 1)), [], machine⟩ := Moment.reaches_of_steps (n := 11) rfl
  have ends : Ends ⟨true, 1⟩ tree .initial (.ok (.int 1)) after :=
    ends_iff_reaches.mpr ⟨machine, rfl, reached⟩
  obtain ⟨peak, is_peak, _, refused⟩ :=
    (depth_limit_exact true tree .initial (Nat.zero_le 1)).2.1 _ after ends fun same => by
      cases same
  have deep := is_peak.bound _ (Moment.reaches_of_steps (n := 6) rfl)
  obtain ⟨last, fails⟩ := refused deep
  exact ⟨last, Nat.zero_le 1, fails⟩

end TailScheme
