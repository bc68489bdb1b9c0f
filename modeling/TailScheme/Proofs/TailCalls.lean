import TailScheme.Proofs.Pairing
import TailScheme.Proofs.Successive
import TailScheme.Proofs.Termination

/-!
# Tail calls cannot be observed

With tail calls and without them, an evaluation comes to the same value or failure and leaves the
same heap, as long as there is room on the stack. Where there is room without tail calls, there is
room with them. The other way round this need not be so, but some larger limit will do.

Both directions go along the evaluation that is known to end, from one pair of moments to the next
(`Paired.goesOn`); what a tree comes to carries over to programs by `eventually_historyOn`.
-/
namespace TailScheme

open StateTransition Relation Filter

namespace Moment

/-- A pair of moments of two evaluations of a tree, each with what holds of it by itself. -/
structure Linked (tree : Expr) (s t : Moment) : Prop where
  paired : Paired s t
  consistent : s.Consistent true tree
  sound : s.Sound
  consistent' : t.Consistent false tree
  sound' : t.Sound
  none_waits : t.machine.stack.waiting = 0

section

variable {config : Config} {tree : Expr} {s t s' t' : Moment} {depth limit : Nat}

/-- Without tail calls no call ever waits. -/
theorem waiting_of_reaches (consistent : t.Consistent false tree)
    (none_waits : t.machine.stack.waiting = 0) (reached : Reaches (next ⟨false, limit⟩) t t') :
    t'.machine.stack.waiting = 0 := by
  induction reached with
  | refl => exact none_waits
  | @tail u v before follows ih =>
    have starts : t.Consistent (Config.tailCalls ⟨false, limit⟩) tree := consistent
    have step := step_of_next follows
    rw [(starts.of_reaches before).isTailCall_eq rfl] at step
    exact Nat.le_zero.mp (ih ▸ step.waiting_le)

/-- The first moments of two evaluations are a pair. -/
theorem linked_first (tree : Expr) (heap : Heap) :
    Linked tree (first tree (.ofHeap heap)) (first tree (.ofHeap heap)) := by
  have rest := stack_ofHeap heap
  exact ⟨⟨rfl, .nil, rfl, rfl⟩, consistent_first true tree rest, sound_first tree rest,
    consistent_first false tree rest, sound_first tree rest, rfl⟩

/-- Later moments that are a pair have what holds of them by themselves. -/
theorem Linked.of_reaches (linked : Linked tree s t) (paired : Paired s' t')
    (later : Reaches (next ⟨true, depth⟩) s s') (later' : Reaches (next ⟨false, limit⟩) t t') :
    Linked tree s' t' := by
  have starts : s.Consistent (Config.tailCalls ⟨true, depth⟩) tree := linked.consistent
  have starts' : t.Consistent (Config.tailCalls ⟨false, limit⟩) tree := linked.consistent'
  exact ⟨paired, starts.of_reaches later, linked.sound.of_reaches later,
    starts'.of_reaches later', linked.sound'.of_reaches later',
    waiting_of_reaches linked.consistent' linked.none_waits later'⟩

/-- Without tail calls no fewer frames are live. -/
theorem Linked.depth_le (linked : Linked tree s t) : s.depth ≤ t.depth := by
  rw [linked.sound.depth_eq_live, linked.sound'.depth_eq_live]
  exact linked.paired.pending.live_le

/-- A call that finds no room with tail calls finds none without them. -/
theorem Linked.overflows (linked : Linked tree s t) (overflows : Overflows ⟨true, depth⟩ s) :
    Overflows ⟨false, depth⟩ t := by
  obtain ⟨place, callee, args, applies, full⟩ := overflows
  refine ⟨place, callee, args, ?_, full.trans linked.depth_le⟩
  rw [linked.paired.task, applies]
  rfl

/-- What holds of a moment that comes to an end if it holds of all moments after it, holds. -/
theorem end_induction {outcome : Except Error Value} {last : Machine} {motive : Moment → Prop}
    (step : ∀ s, Reaches (next config) s ⟨.ending outcome, [], last⟩ →
      (∀ t, Reaches₁ (next config) s t → motive t) → motive s)
    (ends : Reaches (next config) s ⟨.ending outcome, [], last⟩) : motive s := by
  -- A pair may be several steps after the one before, so all later moments are covered at once.
  have all : ∀ u, Reaches (next config) s u → motive u := by
    induction ends using ReflTransGen.head_induction_on with
    | refl =>
      intro u reached
      rcases reached.cases_head with rfl | ⟨v, follows, _⟩
      · refine step _ .refl fun t later => ?_
        obtain ⟨v, follows, _⟩ := TransGen.head'_iff.mp later
        simp [next_ending] at follows
      · simp [next_ending] at follows
    | @head u v follows ends ih =>
      intro w reached
      rcases reached.cases_head with rfl | ⟨v', follows', later⟩
      · refine step _ (.head follows ends) fun t later => ?_
        obtain ⟨v', follows', later⟩ := TransGen.head'_iff.mp later
        obtain rfl := Option.mem_unique follows follows'
        exact ih t later
      · obtain rfl := Option.mem_unique follows follows'
        exact ih w later
  exact all s .refl

/-- An evaluation that comes through without tail calls comes to the same with them. -/
theorem Linked.reaches_end {outcome : Except Error Value} {last' : Machine}
    (linked : Linked tree s t)
    (ends : Reaches (next ⟨false, depth⟩) t ⟨.ending outcome, [], last'⟩)
    (accepted : outcome ≠ .error (.callDepthExceeded depth)) :
    ∃ last : Machine, last.heap = last'.heap ∧
      Reaches (next ⟨true, depth⟩) s ⟨.ending outcome, [], last⟩ := by
  refine end_induction (motive := fun t => ∀ s, Linked tree s t → ∃ last : Machine,
    last.heap = last'.heap ∧ Reaches (next ⟨true, depth⟩) s ⟨.ending outcome, [], last⟩)
    (fun t ends ih s linked => ?_) ends s linked
  rcases linked.paired.goesOn depth linked.consistent linked.none_waits with
    ⟨heap, reached, reached', no_next⟩ | ⟨paired, later, later'⟩
  · obtain ⟨rfl, _, rfl⟩ := Moment.mk.inj
      (eq_ending_of_next ends (reached' depth) (no_next _ _))
    exact ⟨_, heap.symm, reached⟩
  · have fits' := not_overflows_of_ends ends accepted
    have fits := fun overflows => fits' (linked.overflows overflows)
    have onward := later fits
    have onward' := later' depth fits'
    obtain ⟨last, heap, reached⟩ := ih _ onward' _
      (linked.of_reaches paired onward.to_reflTransGen onward'.to_reflTransGen)
    exact ⟨last, heap, onward.to_reflTransGen.trans reached⟩

/-- An evaluation that comes through with tail calls comes to the same without them, for all limits
from some limit on. -/
theorem Linked.exists_limit {outcome : Except Error Value} {last : Machine}
    (linked : Linked tree s t)
    (ends : Reaches (next ⟨true, depth⟩) s ⟨.ending outcome, [], last⟩)
    (accepted : outcome ≠ .error (.callDepthExceeded depth)) :
    ∃ least, ∀ limit, least ≤ limit → ∃ last' : Machine, last'.heap = last.heap ∧
      Reaches (next ⟨false, limit⟩) t ⟨.ending outcome, [], last'⟩ := by
  refine end_induction (motive := fun s => ∀ t, Linked tree s t → ∃ least, ∀ limit, least ≤ limit →
    ∃ last' : Machine, last'.heap = last.heap ∧
      Reaches (next ⟨false, limit⟩) t ⟨.ending outcome, [], last'⟩)
    (fun s ends ih t linked => ?_) ends t linked
  rcases linked.paired.goesOn depth linked.consistent linked.none_waits with
    ⟨heap, reached, reached', no_next⟩ | ⟨paired, later, later'⟩
  · obtain ⟨rfl, _, rfl⟩ := Moment.mk.inj (eq_ending_of_next ends reached (no_next _ _))
    exact ⟨0, fun limit _ => ⟨_, heap, reached' limit⟩⟩
  · have onward := later (not_overflows_of_ends ends accepted)
    -- The limit must leave room for the call that may come next and for all that comes after it.
    have roomy : ∀ limit, t.depth < limit → ¬Overflows ⟨false, limit⟩ t := by
      rintro limit room ⟨_, _, _, _, full⟩
      exact Nat.not_le.mpr room full
    have onward' := fun limit room => later' limit (roomy limit room)
    obtain ⟨least, reached⟩ := ih _ onward _ (linked.of_reaches paired onward.to_reflTransGen
      (onward' _ (Nat.lt_succ_self _)).to_reflTransGen)
    refine ⟨max least (t.depth + 1), fun limit enough => ?_⟩
    obtain ⟨last', heap, reached'⟩ := reached limit ((Nat.le_max_left _ _).trans enough)
    have room : t.depth < limit := (Nat.le_max_right _ _).trans enough
    exact ⟨last', heap, (onward' limit room).to_reflTransGen.trans reached'⟩

end

end Moment

/-- What comes through without tail calls ends in the same way with them. -/
theorem ends_of_ends_plain {depth : Nat} {tree : Expr} {heap after : Heap}
    {outcome : Except Error Value} (ends : Ends ⟨false, depth⟩ tree heap outcome after)
    (accepted : outcome ≠ .error (.callDepthExceeded depth)) :
    Ends ⟨true, depth⟩ tree heap outcome after := by
  obtain ⟨machine, rfl, reached⟩ := ends_iff_reaches.mp ends
  obtain ⟨last, same_heap, reached⟩ := (Moment.linked_first tree heap).reaches_end reached accepted
  exact ends_iff_reaches.mpr ⟨last, same_heap, reached⟩

/-- What comes through with tail calls ends in the same way without them, for all limits from some
limit on. -/
theorem exists_limit_of_ends {depth : Nat} {tree : Expr} {heap after : Heap}
    {outcome : Except Error Value} (ends : Ends ⟨true, depth⟩ tree heap outcome after)
    (accepted : outcome ≠ .error (.callDepthExceeded depth)) :
    ∃ least, ∀ limit, least ≤ limit → Ends ⟨false, limit⟩ tree heap outcome after := by
  obtain ⟨machine, rfl, reached⟩ := ends_iff_reaches.mp ends
  obtain ⟨least, reached⟩ := (Moment.linked_first tree heap).exists_limit reached accepted
  exact ⟨least, fun limit enough => ends_iff_reaches.mpr (reached limit enough)⟩

/-- Without tail calls the budget does not matter, so how an evaluation ends is seen with each. -/
theorem Ends.evalOn_eq {config : Config} {tree : Expr} {heap after : Heap}
    {outcome : Except Error Value} (ends : Ends config tree heap outcome after)
    (plain : config.tailCalls = false) (budget : Nat) :
    evalOn config budget tree heap = (outcome.mapError .failed, after) := by
  obtain ⟨least, seen_eq⟩ := ends
  obtain ⟨other, last, always⟩ := evalOn_of_plain plain tree heap
  exact (always budget).trans ((always least).symm.trans (seen_eq least (Nat.le_refl _)))

/-- Without tail calls the budget makes no difference at all. -/
theorem evalOn_plain_eq (limit budget other : Nat) :
    evalOn ⟨false, limit⟩ budget = evalOn ⟨false, limit⟩ other := by
  have plain : Config.tailCalls ⟨false, limit⟩ = false := rfl
  funext tree heap
  obtain ⟨outcome, after, always⟩ := evalOn_of_plain plain tree heap
  exact (always budget).trans (always other).symm

/-- An evaluation that is within its budget ends as it is seen to end. -/
theorem ends_of_evalOn {config : Config} {budget : Nat} {tree : Expr} {heap : Heap}
    (within : (evalOn config budget tree heap).1 ≠ .error .outOfBudget) :
    ∃ (outcome : Except Error Value) (after : Heap),
      evalOn config budget tree heap = (outcome.mapError .failed, after) ∧
        Ends config tree heap outcome after := by
  rcases Moment.eval_cases config budget tree (stack_ofHeap heap) with
    ⟨outcome, last, reached, seen_eq⟩ | ⟨out, _⟩
  · exact ⟨outcome, last.heap, seen_eq, ends_iff_reaches.mpr ⟨last, rfl, reached⟩⟩
  · exact absurd out within

/-- What comes through without tail calls is seen with them too, once the budget is large enough. -/
theorem eventually_evalOn_tail {depth budget : Nat} (tree : Expr) (heap : Heap)
    (accepted : (evalOn ⟨false, depth⟩ budget tree heap).1 ≠
      .error (.failed (.callDepthExceeded depth))) :
    ∀ᶠ enough in atTop,
      evalOn ⟨true, depth⟩ enough tree heap = evalOn ⟨false, depth⟩ budget tree heap := by
  have plain : Config.tailCalls ⟨false, depth⟩ = false := rfl
  obtain ⟨outcome, after, always⟩ := evalOn_of_plain plain tree heap
  have ends : Ends ⟨false, depth⟩ tree heap outcome after := ⟨0, fun budget _ => always budget⟩
  have fits : outcome ≠ .error (.callDepthExceeded depth) := by
    rintro rfl
    exact accepted (congrArg Prod.fst (always budget))
  rw [always budget]
  exact eventually_atTop.mpr (ends_of_ends_plain ends fits)

/-- What comes through with tail calls is seen without them too, once the limit is large enough. -/
theorem eventually_evalOn_plain {depth budget : Nat} (any : Nat) (tree : Expr) (heap : Heap)
    (within : (evalOn ⟨true, depth⟩ budget tree heap).1 ≠ .error .outOfBudget ∧
      (evalOn ⟨true, depth⟩ budget tree heap).1 ≠ .error (.failed (.callDepthExceeded depth))) :
    ∀ᶠ limit in atTop,
      evalOn ⟨false, limit⟩ any tree heap = evalOn ⟨true, depth⟩ budget tree heap := by
  obtain ⟨outcome, after, seen_eq, ends⟩ := ends_of_evalOn within.1
  have accepted : outcome ≠ .error (.callDepthExceeded depth) := by
    rintro rfl
    exact within.2 (congrArg Prod.fst seen_eq)
  obtain ⟨least, ends_plain⟩ := exists_limit_of_ends ends accepted
  rw [seen_eq]
  exact eventually_atTop.mpr
    ⟨least, fun limit enough => (ends_plain limit enough).evalOn_eq rfl any⟩

/-- Tail calls cannot be observed. If no source of a program fails for want of room without tail
calls, then with them each source comes to the same value or failure and to the same heap, under the
same limit. If a program comes through with tail calls, then it comes to the same without them,
under every limit from some limit on. -/
theorem tail_calls_unobservable (depth : Nat) (sources : List (Bool × String)) :
    (∀ budget, (∀ result ∈ history ⟨false, depth⟩ budget sources .initial,
        result.1 ≠ .error (.failed (.callDepthExceeded depth))) →
      ∃ least, ∀ enough, least ≤ enough →
        history ⟨true, depth⟩ enough sources .initial =
          history ⟨false, depth⟩ budget sources .initial) ∧
    (∀ budget, (∀ result ∈ history ⟨true, depth⟩ budget sources .initial,
        result.1 ≠ .error .outOfBudget ∧
          result.1 ≠ .error (.failed (.callDepthExceeded depth))) →
      ∃ least, ∀ limit, least ≤ limit → ∀ any,
        history ⟨false, limit⟩ any sources .initial =
          history ⟨true, depth⟩ budget sources .initial) := by
  have rest : Machine.initial.stack = .empty := rfl
  have on_heap := fun config budget => history_eq config budget sources .initial rest
  have values : ∀ value stop, (.ok value : Except Stop Value) ≠ .error stop := by
    intro value stop same
    cases same
  refine ⟨fun budget accepted => ?_, fun budget accepted => ?_⟩
  · simp only [on_heap] at accepted ⊢
    exact eventually_atTop.mp (eventually_historyOn
      (fun result => result ≠ .error (.failed (.callDepthExceeded depth)))
      (fun value => values value _)
      eventually_evalOn_tail sources _ accepted)
  · simp only [on_heap] at accepted ⊢
    obtain ⟨least, agrees⟩ := eventually_atTop.mp (eventually_historyOn
      (fun result => result ≠ .error .outOfBudget ∧
        result ≠ .error (.failed (.callDepthExceeded depth)))
      (fun value => ⟨values value _, values value _⟩)
      (eventually_evalOn_plain 0) sources _ accepted)
    refine ⟨least, fun limit enough any => ?_⟩
    rw [evalOn_plain_eq limit any 0]
    exact agrees limit enough

/-- A procedure calls itself in tail position once, and then a builtin is refused its argument. With
tail calls this needs one frame, and without them two. -/
theorem tail_calls_unobservable_of_choice :
    let sources := [(true, "(define f (lambda (x) (cond (x (f #f)) (else 7))))"), (true, "(f #t)"),
      (true, "(car 5)")]
    (history ⟨true, 1⟩ 1 sources .initial).map Prod.fst =
      [.ok .nil, .ok (.int 7), .error (.failed (.typeMismatch .car .pair .integer))] ∧
    (history ⟨false, 2⟩ 0 sources .initial).map Prod.fst =
      [.ok .nil, .ok (.int 7), .error (.failed (.typeMismatch .car .pair .integer))] ∧
    (history ⟨false, 1⟩ 0 sources .initial).map Prod.fst =
      [.ok .nil, .error (.failed (.callDepthExceeded 1)),
        .error (.failed (.typeMismatch .car .pair .integer))] ∧
    (∃ least, ∀ enough, least ≤ enough →
      history ⟨true, 2⟩ enough sources .initial = history ⟨false, 2⟩ 0 sources .initial) ∧
    ∃ least, ∀ limit, least ≤ limit → ∀ any,
      history ⟨false, limit⟩ any sources .initial = history ⟨true, 1⟩ 1 sources .initial := by
  intro sources
  let call (argument : Expr) : Expr := .list [.ident "f", argument]
  let refused : Except Stop Value := .error (.failed (.typeMismatch .car .pair .integer))
  have first : (Reader.ofString true "(define f (lambda (x) (cond (x (f #f)) (else 7))))").items =
      [.ok (.list [.ident "define", .ident "f", .list [.ident "lambda", .list [.ident "x"],
        .list [.ident "cond", .list [.ident "x", call (.bool false)],
          .list [.ident "else", .int 7]]]])] := Reader.items_eq_iff.mpr (by decide +kernel)
  have second : (Reader.ofString true "(f #t)").items = [.ok (call (.bool true))] :=
    Reader.items_eq_iff.mpr (by decide +kernel)
  have third : (Reader.ofString true "(car 5)").items = [.ok (.list [.ident "car", .int 5])] :=
    Reader.items_eq_iff.mpr (by decide +kernel)
  have runs (config : Config) (budget : Nat) : history config budget sources .initial =
      historyOn (evalOn config budget) sources Heap.initial :=
    history_eq config budget sources .initial rfl
  have tail : (history ⟨true, 1⟩ 1 sources .initial).map Prod.fst =
      [.ok .nil, .ok (.int 7), refused] := by
    simp only [runs, sources, historyOn, first, second, third]
    decide +kernel
  have plain : (history ⟨false, 2⟩ 0 sources .initial).map Prod.fst =
      [.ok .nil, .ok (.int 7), refused] := by
    simp only [runs, sources, historyOn, first, second, third]
    decide +kernel
  have narrow : (history ⟨false, 1⟩ 0 sources .initial).map Prod.fst =
      [.ok .nil, .error (.failed (.callDepthExceeded 1)), refused] := by
    simp only [runs, sources, historyOn, first, second, third]
    decide +kernel
  refine ⟨tail, plain, narrow, (tail_calls_unobservable 2 sources).1 0 ?_,
    (tail_calls_unobservable 1 sources).2 1 ?_⟩
  · intro result among
    have listed := List.mem_map_of_mem (f := Prod.fst) among
    rw [plain] at listed
    intro same
    simp [same, refused] at listed
  · intro result among
    have listed := List.mem_map_of_mem (f := Prod.fst) among
    rw [tail] at listed
    refine ⟨fun same => ?_, fun same => ?_⟩ <;> simp [same, refused] at listed

end TailScheme
