import TailScheme.Proofs.Placement
import TailScheme.Proofs.Histories

/-!
# Termination

The only way to run forever is to defer calls forever. The tree, the room on the stack and the
calls that may still be deferred to a frame are the measures of the three recursions of an
evaluation, so an evaluation with a budget always comes back; and it comes back without a result
only if its moments have taken up more calls than the budget is large. So an evaluation that
defers only so many calls ends, and without tail calls every evaluation does. The other way round,
an evaluation for which no budget is enough runs forever (`endless_iff_outOfBudget`).
-/
namespace TailScheme

open StateTransition Relation

namespace Moment

variable {config : Config} {tree : Expr} {s t : Moment}

/-- Without tail calls nothing is deferred. -/
theorem Consistent.deferrals_eq (consistent : s.Consistent config.tailCalls tree)
    (plain : config.tailCalls = false) (reached : Reaches (next config) s t) :
    t.machine.deferrals = s.machine.deferrals := by
  induction reached with
  | refl => rfl
  | @tail u v before follows ih =>
    have step := step_of_next follows
    rw [(consistent.of_reaches before).isTailCall_eq plain] at step
    exact step.deferrals_eq.trans ih

/-- Of the calls that have been deferred, not more than all of them are taken up. -/
theorem resumed_le_deferrals (s : Moment) : s.resumed ≤ s.machine.deferrals := Nat.sub_le _ _

/-- A moment that an endless run leads to is one of the run. -/
theorem exists_of_reaches {run : Nat → Moment}
    (endless : ∀ n, next config (run n) = some (run (n + 1)))
    (reached : Reaches (next config) (run 0) t) : ∃ n, run n = t := by
  induction reached with
  | refl => exact ⟨0, rfl⟩
  | tail _ follows ih =>
    obtain ⟨n, rfl⟩ := ih
    have same : some (run (n + 1)) = some _ := (endless n).symm.trans follows
    exact ⟨n + 1, Option.some.inj same⟩

/-- An endless run does not come to an end. -/
theorem not_ends_of_endless {run : Nat → Moment} {outcome : Except Error Value} {after : Machine}
    (endless : ∀ n, next config (run n) = some (run (n + 1))) :
    ¬Reaches (next config) (run 0) ⟨.ending outcome, [], after⟩ := by
  intro ends
  obtain ⟨n, last⟩ := exists_of_reaches endless ends
  have no_next : next config ⟨.ending outcome, [], after⟩ = none := next_ending outcome after
  rw [← last, endless n] at no_next
  cases no_next

/-- An endless run goes beyond every budget. -/
theorem exists_deferrals_gt {run : Nat → Moment} {machine : Machine}
    (rest : machine.stack = .empty) (starts : run 0 = first tree machine)
    (endless : ∀ n, next config (run n) = some (run (n + 1))) (bound : Nat) :
    ∃ n, bound < (run n).machine.deferrals := by
  -- An evaluation with this budget ends, which an endless run excludes, or goes beyond it.
  rcases eval_cases config bound tree rest with ⟨outcome, after, ends, _⟩ | ⟨_, t, reached, beyond⟩
  · exact absurd (starts ▸ ends) (not_ends_of_endless endless)
  · obtain ⟨n, rfl⟩ := exists_of_reaches endless (starts ▸ reached)
    exact ⟨n, beyond.trans_le (resumed_le_deferrals _)⟩

/-- Where there is always a next moment, there is an endless run. -/
theorem exists_endless (goes_on : ∀ t, Reaches (next config) s t → next config t ≠ none) :
    ∃ run : Nat → Moment, run 0 = s ∧ ∀ n, next config (run n) = some (run (n + 1)) := by
  let run : Nat → Moment := fun n => (fun t => (next config t).getD t)^[n] s
  have follows : ∀ n, Reaches (next config) s (run n) →
      next config (run n) = some (run (n + 1)) := by
    intro n reached
    obtain ⟨t, after⟩ := Option.ne_none_iff_exists'.mp (goes_on _ reached)
    have next_eq : run (n + 1) = (next config (run n)).getD (run n) :=
      Function.iterate_succ_apply' _ n s
    rw [next_eq, after, Option.getD_some]
  have reached : ∀ n, Reaches (next config) s (run n) := by
    intro n
    induction n with
    | zero => exact .refl
    | succ n ih => exact ih.tail (follows n ih)
  exact ⟨run, rfl, fun n => follows n (reached n)⟩

/-- An evaluation that leads to a moment of some kind, from where another one of that kind comes
after at least one step, always goes on. -/
theorem next_ne_none_of_again {kind : Moment → Prop} {start : Moment}
    (again : ∀ u, kind u → ∃ v, kind v ∧ Reaches₁ (next config) u v) (starts : kind start)
    (leads : Reaches (next config) s start) (reached : Reaches (next config) s t) :
    next config t ≠ none := by
  have onward : ∀ u, (∃ v, kind v ∧ Reaches (next config) u v) →
      ∃ w, next config u = some w ∧ ∃ v, kind v ∧ Reaches (next config) w v := by
    rintro u ⟨v, is_kind, later⟩
    rcases later.cases_head with rfl | ⟨w, follows, later⟩
    · obtain ⟨v, is_kind, later⟩ := again u is_kind
      obtain ⟨w, follows, later⟩ := TransGen.head'_iff.mp later
      exact ⟨w, follows, v, is_kind, later⟩
    · exact ⟨w, follows, v, is_kind, later⟩
  have leads_there : ∃ v, kind v ∧ Reaches (next config) t v := by
    induction reached with
    | refl => exact ⟨start, starts, leads⟩
    | tail _ follows ih =>
      obtain ⟨w, follows', later⟩ := onward _ ih
      obtain rfl := Option.mem_unique follows follows'
      exact later
  obtain ⟨w, follows, _⟩ := onward t leads_there
  rw [follows]
  exact Option.some_ne_none w

end Moment

/-- An evaluation that defers no more calls than its budget ends with a value or a failure, which
a larger budget does not change. -/
theorem evalOn_of_bounded {config : Config} {tree : Expr} {heap : Heap} {bound : Nat}
    (bounded : ∀ s, Reaches (Moment.next config) (.first tree (.ofHeap heap)) s →
      s.machine.deferrals ≤ bound) :
    ∃ (outcome : Except Error Value) (after : Heap), ∀ budget, bound ≤ budget →
      evalOn config budget tree heap = (outcome.mapError .failed, after) := by
  have rest := stack_ofHeap heap
  rcases Moment.eval_cases config bound tree rest with
    ⟨outcome, after, ends, _⟩ | ⟨_, t, reached, beyond⟩
  · refine ⟨outcome, after.heap, fun budget enough =>
      Moment.seen_eval_of_reaches rest ends ?_⟩
    exact ((Moment.resumed_le_deferrals _).trans (bounded _ ends)).trans enough
  · have within := (Moment.resumed_le_deferrals t).trans (bounded t reached)
    omega

/-- Without tail calls an evaluation ends with a value or a failure, whatever the budget. -/
theorem evalOn_of_plain {config : Config} (plain : config.tailCalls = false) (tree : Expr)
    (heap : Heap) : ∃ (outcome : Except Error Value) (after : Heap), ∀ budget,
      evalOn config budget tree heap = (outcome.mapError .failed, after) := by
  have rest := stack_ofHeap heap
  have consistent := Moment.consistent_first config.tailCalls tree rest
  have none_deferred : ∀ s, Reaches (Moment.next config) (.first tree (.ofHeap heap)) s →
      s.machine.deferrals ≤ 0 := fun s reached => (consistent.deferrals_eq plain reached).le
  obtain ⟨outcome, after, ends⟩ := evalOn_of_bounded none_deferred
  exact ⟨outcome, after, fun budget => ends budget (Nat.zero_le _)⟩

/-- An evaluation runs forever if and only if no budget is enough for it. -/
theorem endless_iff_outOfBudget {config : Config} {tree : Expr} {heap : Heap} :
    (∃ run : Nat → Moment, run 0 = .first tree (.ofHeap heap) ∧
        ∀ n, Moment.next config (run n) = some (run (n + 1))) ↔
      ∀ budget, (evalOn config budget tree heap).1 = .error .outOfBudget := by
  have rest := stack_ofHeap heap
  constructor
  · rintro ⟨run, starts, endless⟩ budget
    rcases Moment.eval_cases config budget tree rest with ⟨outcome, after, ends, _⟩ | ⟨out, _⟩
    · exact absurd (starts ▸ ends) (Moment.not_ends_of_endless endless)
    · exact out
  · intro out
    refine Moment.exists_endless fun t reached stuck => ?_
    -- The budget is what has been taken up where it is said to stop; more than that never is.
    rcases Moment.eval_cases config t.resumed tree rest with
      ⟨outcome, after, _, seen_eq⟩ | ⟨_, u, later, beyond⟩
    · have failed := (congrArg Prod.fst seen_eq).symm.trans (out t.resumed)
      cases outcome <;> cases failed
    · rcases reaches_total reached later with onward | before
      · rcases onward.cases_head with rfl | ⟨v, follows, _⟩
        · exact absurd beyond (Nat.lt_irrefl _)
        · rw [stuck] at follows
          cases follows
      · exact absurd beyond (Nat.not_lt.mpr (Moment.resumed_le_of_reaches before))

/-- Deferring calls without end is the only way to run forever. An endless run defers more calls
than any bound; an evaluation that keeps to a bound ends with a value or a failure, which every
budget from there on shows; and no budget is exhausted but by as many deferred calls. In
particular, without tail calls every evaluation ends, and so does every program. -/
theorem ends_unless_deferrals_unbounded (config : Config) (tree : Expr) (heap : Heap) :
    (∀ run : Nat → Moment, run 0 = .first tree (.ofHeap heap) →
      (∀ n, Moment.next config (run n) = some (run (n + 1))) →
      ∀ bound, ∃ n, bound < (run n).machine.deferrals) ∧
    (∀ bound, (∀ s, Reaches (Moment.next config) (.first tree (.ofHeap heap)) s →
        s.machine.deferrals ≤ bound) →
      ∃ (outcome : Except Error Value) (after : Heap), ∀ budget, bound ≤ budget →
        evalOn config budget tree heap = (outcome.mapError .failed, after)) ∧
    (∀ budget, (∃ outcome : Except Error Value,
        (evalOn config budget tree heap).1 = outcome.mapError .failed) ∨
      (evalOn config budget tree heap).1 = .error .outOfBudget ∧
        ∃ s, Reaches (Moment.next config) (.first tree (.ofHeap heap)) s ∧
          budget < s.machine.deferrals) ∧
    (config.tailCalls = false →
      (∃ (outcome : Except Error Value) (after : Heap), ∀ budget,
        evalOn config budget tree heap = (outcome.mapError .failed, after)) ∧
      ∀ (budget : Nat) (sources : List (Bool × String)),
        ∀ result ∈ history config budget sources .initial,
          ∃ outcome : Except Error Value, result.1 = outcome.mapError .failed) := by
  have rest := stack_ofHeap heap
  refine ⟨fun run starts endless => Moment.exists_deferrals_gt rest starts endless,
    fun bound => evalOn_of_bounded, fun budget => ?_, fun plain =>
    ⟨evalOn_of_plain plain tree heap, fun budget sources => ?_⟩⟩
  · rcases Moment.eval_cases config budget tree rest with
      ⟨outcome, after, _, seen_eq⟩ | ⟨out, s, reached, beyond⟩
    · exact .inl ⟨outcome, congrArg Prod.fst seen_eq⟩
    · exact .inr ⟨out, s, reached, beyond.trans_le (Moment.resumed_le_deferrals s)⟩
  · have initial_rest : Machine.initial.stack = .empty := rfl
    rw [history_eq config budget sources .initial initial_rest]
    refine historyOn_ends (fun e heap => ?_) sources _
    obtain ⟨outcome, after, ends⟩ := evalOn_of_plain plain e heap
    exact ⟨outcome, congrArg Prod.fst (ends budget)⟩

/-- A procedure that calls its argument with itself is called with itself, in the frame of the
procedure: the start of a round of a loop. -/
def Moment.selfCall (heap : Heap) (deferrals : Nat) : Moment :=
  let callee : Closure := ⟨1, ["x"], [.list [.ident "x", .ident "x"]], Heap.root⟩
  ⟨.enter ⟨callee, [.closure callee]⟩, [.frame],
    ⟨heap, ⟨[⟨callee, none, false⟩], 1, rfl⟩, false, 1, deferrals⟩⟩

/-- A round of the loop defers the call that is the next one. -/
theorem Moment.reaches_selfCall (heap : Heap) (deferrals : Nat) :
    ∃ after, Reaches₁ (next ⟨true, 1⟩) (selfCall heap deferrals)
      (selfCall after (deferrals + 1)) := by
  let callee : Closure := ⟨1, ["x"], [.list [.ident "x", .ident "x"]], Heap.root⟩
  let opened := (heap.newScope (some Heap.root) [("x", .closure callee)]).2
  let scope := heap.scopes.size
  let machine : Machine := ⟨opened, ⟨[⟨callee, none, true⟩], 1, rfl⟩, false, 1, deferrals⟩
  let item : Place := .item .code 0
  let ends : List Pending := [.marks false false, .frame]
  have seen : opened.lookup scope "x" = some (.closure callee) := by
    simp [opened, scope, Heap.lookup, Heap.find?, Heap.chain, Heap.chainWithin, Heap.newScope,
      Heap.findAlong, Heap.locals, Bindings.find?]
  have looked_up (index : Nat) (pending : List Pending) :
      next ⟨true, 1⟩ ⟨.evaluate (.operand item index) (.ident "x") scope, pending, machine⟩ =
        some ⟨.give (.closure callee), pending, machine⟩ := by
    simp [next, evaluating, proceedWith, proceed, Run.lookup, machine, seen]
  have operator : Reaches (next ⟨true, 1⟩) (selfCall heap deferrals)
      ⟨.evaluate (.operand item 0) (.ident "x") scope,
        .operands item true [] [.ident "x"] scope :: ends, machine⟩ :=
    reaches_of_steps (n := 4) rfl
  have operand : Reaches (next ⟨true, 1⟩)
      ⟨.give (.closure callee), .operands item true [] [.ident "x"] scope :: ends, machine⟩
      ⟨.evaluate (.operand item 1) (.ident "x") scope,
        .operands item true [.closure callee] [] scope :: ends, machine⟩ :=
    reaches_of_steps (n := 2) rfl
  have applied : Reaches (next ⟨true, 1⟩)
      ⟨.give (.closure callee), .operands item true [.closure callee] [] scope :: ends, machine⟩
      (selfCall opened (deferrals + 1)) := reaches_of_steps (n := 5) rfl
  have whole := (TransGen.tail' operator (looked_up 0 _)).trans_left operand
  exact ⟨opened, (whole.tail (looked_up 1 _)).trans_left applied⟩

/-- With tail calls, `((lambda (x) (x x)) (lambda (x) (x x)))` runs forever, and defers more calls
than any bound. Without them it defers none, and ends. -/
theorem ends_unless_deferrals_unbounded_of_selfCall :
    let again : Expr := .lambda ["x"] [.list [.ident "x", .ident "x"]]
    let tree : Expr := .list [again, again]
    (∃ run : Nat → Moment, run 0 = .first tree (.ofHeap .initial) ∧
      (∀ n, Moment.next ⟨true, 1⟩ (run n) = some (run (n + 1))) ∧
      ∀ bound, ∃ n, bound < (run n).machine.deferrals) ∧
    (∀ s, Reaches (Moment.next ⟨false, 1⟩) (.first tree (.ofHeap .initial)) s →
      s.machine.deferrals ≤ 0) ∧
    ∃ (outcome : Except Error Value) (after : Heap), ∀ budget, 0 ≤ budget →
      evalOn ⟨false, 1⟩ budget tree .initial = (outcome.mapError .failed, after) := by
  intro again tree
  let second : Value := .closure ⟨1, ["x"], [.list [.ident "x", .ident "x"]], Heap.root⟩
  let first : Heap :=
    ⟨Heap.initial.scopes.push ⟨some Heap.root, [("x", second)]⟩, #[none, none], 0⟩
  have starts : Reaches (Moment.next ⟨true, 1⟩) (.first tree (.ofHeap .initial))
      (.selfCall first 1) :=
    Moment.reaches_of_steps (n := 22) rfl
  have round : ∀ u, (∃ heap deferrals, u = Moment.selfCall heap deferrals) →
      ∃ v, (∃ heap deferrals, v = Moment.selfCall heap deferrals) ∧
        Reaches₁ (Moment.next ⟨true, 1⟩) u v := by
    rintro _ ⟨heap, deferrals, rfl⟩
    obtain ⟨after, later⟩ := Moment.reaches_selfCall heap deferrals
    exact ⟨_, ⟨after, _, rfl⟩, later⟩
  obtain ⟨run, from_start, endless⟩ := Moment.exists_endless fun t =>
    Moment.next_ne_none_of_again round ⟨_, _, rfl⟩ starts
  have none_deferred : ∀ s, Reaches (Moment.next ⟨false, 1⟩) (.first tree (.ofHeap .initial)) s →
      s.machine.deferrals ≤ 0 := fun s reached =>
    ((Moment.consistent_first false tree rfl).deferrals_eq rfl reached).le
  exact ⟨⟨run, from_start, endless,
      (ends_unless_deferrals_unbounded ⟨true, 1⟩ tree .initial).1 run from_start endless⟩,
    none_deferred,
    (ends_unless_deferrals_unbounded ⟨false, 1⟩ tree .initial).2.1 0 none_deferred⟩

end TailScheme
