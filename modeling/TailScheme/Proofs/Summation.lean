import TailScheme.Proofs.Successive
import TailScheme.Proofs.Views
import Mathlib.Tactic.Ring

/-!
# A loop in tail position

The procedure `sum` defines a loop `iter` with an accumulator and calls it in tail position. A round
of the loop gives the accumulator (`enter_iter_zero`) or ends with the call of the next round
(`enter_iter_succ`). With tail calls, that call is deferred, so one frame runs all rounds
(`runCalls_iter`); without them, every round needs one frame more than the one after it
(`invoke_iter`). A call of the procedure leaves the heap such that it can be called again
(`evalOn_sumCall`).
-/
namespace TailScheme

/-- Defines a procedure that adds up the numbers from one to `n`. -/
def sumSource : String :=
  "(define sum
     (lambda (n)
       (define iter
         (lambda (i acc)
           (cond ((= i 0) acc)
                 (else (iter (- i 1) (+ acc i))))))
       (iter n 0)))"

/-- Calls the procedure. -/
def sumCall (n : Int64) : Expr := .list [.ident "sum", .int n]

/-- The texts that define the procedure and call it on each of these numbers, with or without
comments. -/
def sumTexts (comments : Bool) (numbers : List Int64) : List (Bool × String) :=
  (comments, sumSource) :: numbers.map fun n => (comments, (sumCall n).text)

/-- `n (n + 1) / 2`, wrapped. -/
def triangular (n : Int64) : Int64 := .ofInt (n.toInt * (n.toInt + 1) / 2)

/-- The test of the loop. -/
def iterTest : Expr := .list [.ident "=", .ident "i", .int 0]

/-- The call of the next round of the loop. -/
def iterCall : Expr :=
  .list [.ident "iter", .list [.ident "-", .ident "i", .int 1],
    .list [.ident "+", .ident "acc", .ident "i"]]

/-- The body of the loop. -/
def iterBody : List Expr := [.cond [.test iterTest [.ident "acc"], .otherwise [iterCall]]]

/-- The body of the procedure. -/
def sumBody : List Expr :=
  [.define "iter" (.lambda ["i", "acc"] iterBody), .list [.ident "iter", .ident "n", .int 0]]

/-- The definition as it is read. -/
def sumDefinition : Expr :=
  .list [.ident "define", .ident "sum", .list [.ident "lambda", .list [.ident "n"],
    .list [.ident "define", .ident "iter", .list [.ident "lambda",
      .list [.ident "i", .ident "acc"],
      .list [.ident "cond", .list [iterTest, .ident "acc"], .list [.ident "else", iterCall]]]],
    .list [.ident "iter", .ident "n", .int 0]]]

/-- The loop that is made in this scope. -/
def iterClosure (id : Nat) (scope : ScopeId) : Closure := ⟨id, ["i", "acc"], iterBody, scope⟩

/-- The procedure, as the first one that an evaluator makes. -/
def sumClosure : Closure := ⟨0, ["n"], sumBody, Heap.root⟩

/-- The builtins that the loop needs. -/
def arithmetic : Bindings := [("=", .builtin .eq), ("-", .builtin .sub), ("+", .builtin .add)]

/-- What a call of the procedure needs to see from the top level. -/
def sumView : Bindings := ("sum", .closure sumClosure) :: arithmetic

/-- What the procedure sees once the loop is defined. -/
def bodyView (id : Nat) (scope : ScopeId) (n : Int64) : Bindings :=
  ("iter", .closure (iterClosure id scope)) :: ("n", .int n) :: sumView

/-- What the loop needs to see from the scope that it was made in. -/
def iterView (id : Nat) (scope : ScopeId) : Bindings :=
  ("iter", .closure (iterClosure id scope)) :: arithmetic

/-- What a round of the loop sees. -/
def roundView (id : Nat) (scope : ScopeId) (i acc : Int64) : Bindings :=
  [("i", .int i), ("acc", .int acc)] ++ iterView id scope

section

variable {tailCalls : Bool} {invoke : Call → Run Value} {machine : Machine} {caller : Stack}
  {running : Closure} {id : Nat} {scope : ScopeId} {i acc : Int64}

/-- The test of the loop compares the counter with zero. -/
theorem denotes_iterTest :
    Denotes tailCalls invoke (roundView id scope i acc) iterTest (.bool (i == 0)) := by
  have operator : (roundView id scope i acc).find? "=" = some (.builtin .eq) := rfl
  refine denotes_builtin operator (.cons (denotes_ident rfl) (.cons (denotes_int 0) .nil)) ?_
  intro stamp
  rw [← Bool.and_true (i == 0)]
  rfl

/-- The next round has the counter less one and the accumulator plus the counter. -/
theorem denotes_iterOperands :
    List.Forall₂ (Denotes tailCalls invoke (roundView id scope i acc))
      [.list [.ident "-", .ident "i", .int 1], .list [.ident "+", .ident "acc", .ident "i"]]
      [.int (i - 1), .int (acc + i)] := by
  have sub : (roundView id scope i acc).find? "-" = some (.builtin .sub) := rfl
  have add : (roundView id scope i acc).find? "+" = some (.builtin .add) := rfl
  have counter : Denotes tailCalls invoke (roundView id scope i acc) (.ident "i") (.int i) :=
    denotes_ident rfl
  have accumulator :
      Denotes tailCalls invoke (roundView id scope i acc) (.ident "acc") (.int acc) :=
    denotes_ident rfl
  have less := denotes_builtin sub (.cons counter (.cons (denotes_int 1) .nil)) fun _ => rfl
  refine .cons less (.cons (denotes_builtin add (.cons accumulator (.cons counter .nil)) ?_) .nil)
  intro stamp
  have added : Builtin.add.apply [.int acc, .int i] stamp = .ok (.int (0 + acc + i), stamp) := rfl
  rwa [Int64.zero_add] at added

variable (tailCalls invoke i acc) in
/-- A round of the loop opens a scope for the arguments and one for the branch that the counter
chooses. -/
theorem enter_iter (shows : machine.heap.Shows scope (iterView id scope))
    (runs : machine.stack = caller.push running) :
    ∃ heap inner, machine.heap.Extends heap ∧ heap.Shows inner (roundView id scope i acc) ∧
      enter tailCalls invoke ⟨iterClosure id scope, [.int i, .int acc]⟩ machine =
        Run.withMarks tailCalls
          (evaluateBody tailCalls invoke [if i == 0 then .ident "acc" else iterCall] inner)
          { machine with heap } := by
  have outer := shows.newScope [("i", .int i), ("acc", .int acc)]
  have extended := ((Heap.Extends.refl shows.forest).newScope shows.there
    [("i", .int i), ("acc", .int acc)]).newScope outer.there []
  exact ⟨_, _, extended, outer.newScope [], enter_cond rfl rfl rfl runs denotes_iterTest outer⟩

variable (tailCalls invoke acc) in
/-- A round of the loop gives the accumulator if the counter is zero. -/
theorem enter_iter_zero (shows : machine.heap.Shows scope (iterView id scope))
    (runs : machine.stack = caller.push running) :
    ∃ heap, machine.heap.Extends heap ∧
      enter tailCalls invoke ⟨iterClosure id scope, [.int 0, .int acc]⟩ machine =
        .ok (.int acc) { machine with heap } := by
  obtain ⟨heap, inner, extended, inner_shows, entered⟩ :=
    enter_iter tailCalls invoke 0 acc shows runs
  have found : (roundView id scope 0 acc).find? "acc" = some (.int acc) := rfl
  exact ⟨heap, extended, entered.trans (withMarks_ident found inner_shows _)⟩

variable (tailCalls invoke acc) in
/-- Any other round of the loop ends with the call of the next one. -/
theorem enter_iter_succ (shows : machine.heap.Shows scope (iterView id scope))
    (runs : machine.stack = caller.push running) (more : i ≠ 0) :
    ∃ heap, machine.heap.Extends heap ∧
      enter tailCalls invoke ⟨iterClosure id scope, [.int i, .int acc]⟩ machine =
        Run.withMarks tailCalls (fun inner =>
          applyTo invoke tailCalls (.closure (iterClosure id scope)) [.int (i - 1), .int (acc + i)]
            { inner with final := false }) { machine with heap } := by
  obtain ⟨heap, inner, extended, inner_shows, entered⟩ :=
    enter_iter tailCalls invoke i acc shows runs
  rw [beq_eq_false_iff_ne.mpr more, if_neg Bool.false_ne_true] at entered
  have found : (roundView id scope i acc).find? "iter" =
      some (.closure (iterClosure id scope)) := rfl
  have called : Run.withMarks tailCalls (evaluateBody tailCalls invoke [iterCall] inner)
      { machine with heap } = _ :=
    withMarks_call { machine with heap } found denotes_iterOperands inner_shows runs tailCalls
  rw [Bool.and_self] at called
  exact ⟨heap, extended, entered.trans called⟩

variable (tailCalls invoke) in
/-- The procedure defines the loop in the scope of the call and ends with the call of its first
round. -/
theorem enter_sum (n : Int64) (shows : machine.heap.Shows Heap.root sumView)
    (runs : machine.stack = caller.push running) :
    ∃ heap id scope, machine.heap.Extends heap ∧ heap.Shows scope (iterView id scope) ∧
      enter tailCalls invoke ⟨sumClosure, [.int n]⟩ machine = Run.withMarks true (fun inner =>
        applyTo invoke tailCalls (.closure (iterClosure id scope)) [.int n, .int 0]
          { inner with final := false }) { machine with heap } := by
  have opened := shows.newScope [("n", .int n)]
  have made : Heap.Shows _ _ (bodyView machine.heap.names.size machine.heap.scopes.size n) :=
    opened.define "iter" ["i", "acc"] iterBody
  have extended := ((Heap.Extends.refl shows.forest).newScope shows.there [("n", .int n)]).define
    (Nat.le_refl _) "iter" ["i", "acc"] iterBody
  have operator : (bodyView machine.heap.names.size machine.heap.scopes.size n).find? "iter" =
      some (.closure (iterClosure machine.heap.names.size machine.heap.scopes.size)) := rfl
  have operands : List.Forall₂ (Denotes tailCalls invoke
      (bodyView machine.heap.names.size machine.heap.scopes.size n))
      [.ident "n", .int 0] [.int n, .int 0] :=
    .cons (denotes_ident rfl) (.cons (denotes_int 0) .nil)
  refine ⟨_, machine.heap.names.size, _, extended, .of_entries made.forest made.there ?_, ?_⟩
  · simp only [iterView, arithmetic, List.forall_mem_cons]
    exact ⟨made.seen _ _ rfl, made.seen _ _ rfl, made.seen _ _ rfl, made.seen _ _ rfl,
      List.forall_mem_nil _⟩
  · have called := withMarks_call { machine with heap := _ } operator operands made runs true
    rw [Bool.and_true] at called
    rw [enter_eq rfl]
    exact (withMarks_define true).trans called

end

/-- The sum of the numbers up to `k`, wrapped. -/
def sumUpTo (k : Nat) : Int64 := .ofNat (k * (k + 1) / 2)

section

variable {k : Nat}

/-- The sum of no numbers adds nothing. -/
theorem add_sumUpTo_zero (acc : Int64) : acc + sumUpTo 0 = acc := Int64.add_zero acc

/-- The sum of one number more is that number more. -/
theorem sumUpTo_succ (k : Nat) : sumUpTo (k + 1) = .ofNat (k + 1) + sumUpTo k := by
  have doubled : (k + 1) * (k + 1 + 1) = 2 * (k + 1) + k * (k + 1) := by ring
  rw [sumUpTo, sumUpTo, doubled, Nat.mul_add_div (by decide), Int64.ofNat_add]

/-- The sum is what the formula says. -/
theorem triangular_ofNat (small : k < 2 ^ 63) : triangular (.ofNat k) = sumUpTo k := by
  have same : (k : Int) * ((k : Int) + 1) / 2 = ((k * (k + 1) / 2 : Nat) : Int) := by simp
  rw [triangular, Int64.toInt_ofNat_of_lt small, same, Int64.ofInt_eq_ofNat, sumUpTo]

/-- A number that is not the first is not zero, and the one before it is one less. -/
theorem ofNat_succ (small : k + 1 < 2 ^ 63) :
    Int64.ofNat (k + 1) ≠ 0 ∧ Int64.ofNat (k + 1) - 1 = .ofNat k := by
  constructor
  · intro zero
    have value := congrArg Int64.toInt zero
    rw [Int64.toInt_ofNat_of_lt small, Int64.toInt_zero] at value
    omega
  · rw [Int64.ofNat_add]
    exact Int64.add_sub_cancel _ _

/-- A number that is not negative is that of a natural number. -/
theorem exists_ofNat {n : Int64} (natural : 0 ≤ n) :
    ∃ k < 2 ^ 63, n = .ofNat k ∧ n.toInt = k := by
  have small := n.toNatClampNeg_lt
  have same := (Int64.ofNat_toNatClampNeg n natural).symm
  have value := Int64.toInt_ofNat_of_lt small
  rw [← same] at value
  exact ⟨n.toNatClampNeg, small, same, value⟩

end

section

variable {machine : Machine} {caller : Stack} {id : Nat} {scope : ScopeId}

/-- With tail calls, one frame runs all rounds of the loop, the counter going down to zero. -/
theorem runCalls_iter (invoke : Call → Run Value) (k : Nat) : ∀ (budget : Nat) (acc : Int64)
    (machine : Machine) (running : Closure), k < 2 ^ 63 → k ≤ budget →
    machine.heap.Shows scope (iterView id scope) → machine.stack = caller.push running →
    ∃ after, machine.heap.Extends after.heap ∧
      runCalls true invoke budget ⟨iterClosure id scope, [.int (.ofNat k), .int acc]⟩ machine =
        .ok (.int (acc + sumUpTo k)) after := by
  induction k with
  | zero =>
    intro budget acc machine running _ _ shows runs
    obtain ⟨heap, extended, entered⟩ := enter_iter_zero true invoke acc shows runs
    have undeferred : machine.stack.deferred? = none := by
      rw [runs]
      rfl
    rw [add_sumUpTo_zero]
    exact ⟨_, extended, runCalls_of_value entered undeferred⟩
  | succ k ih =>
    intro budget acc machine running small granted shows runs
    obtain ⟨budget, rfl⟩ := Nat.exists_eq_succ_of_ne_zero (Nat.ne_zero_of_lt granted)
    obtain ⟨more, next⟩ := ofNat_succ small
    obtain ⟨heap, extended, entered⟩ := enter_iter_succ true invoke acc shows runs more
    rw [runCalls_of_tail_call entered runs, next, sumUpTo_succ, ← Int64.add_assoc]
    obtain ⟨after, also, returned⟩ := ih budget (acc + .ofNat (k + 1))
      { machine with
        heap, stack := caller.push (iterClosure id scope), deferrals := machine.deferrals + 1 }
      (iterClosure id scope) (by omega) (by omega) (shows.of_extends extended) rfl
    exact ⟨after, extended.trans also, returned⟩

/-- Without tail calls, the loop needs a frame for every round, the one with counter zero
included. -/
theorem invoke_iter (limit budget room : Nat) : ∀ (k : Nat) (acc : Int64) (machine : Machine),
    k < 2 ^ 63 → machine.heap.Shows scope (iterView id scope) →
    (k < room → ∃ heap peak, machine.heap.Extends heap ∧
      invoke ⟨false, limit⟩ budget room
        ⟨iterClosure id scope, [.int (.ofNat k), .int acc]⟩ machine =
          .ok (.int (acc + sumUpTo k)) { machine with heap, peak }) ∧
    (room ≤ k → ∃ after, machine.heap.Extends after.heap ∧
      invoke ⟨false, limit⟩ budget room
        ⟨iterClosure id scope, [.int (.ofNat k), .int acc]⟩ machine =
          .error (.failed (.callDepthExceeded limit)) after) := by
  induction room with
  | zero =>
    intro k acc machine small shows
    exact ⟨fun none => absurd none (Nat.not_lt_zero k),
      fun _ => ⟨machine, .refl shows.forest, rfl⟩⟩
  | succ room ih =>
    intro k acc machine small shows
    have shows_inside : (machine.push (iterClosure id scope)).heap.Shows scope
        (iterView id scope) := shows
    cases k with
    | zero =>
      refine ⟨fun _ => ?_, fun none => absurd none (Nat.not_succ_le_zero room)⟩
      obtain ⟨heap, extended, entered⟩ := enter_iter_zero false
        (invoke ⟨false, limit⟩ budget room) acc shows_inside rfl
      rw [add_sumUpTo_zero]
      exact ⟨heap, _, extended, invoke_of_value entered⟩
    | succ k =>
      obtain ⟨more, next⟩ := ofNat_succ small
      obtain ⟨heap, extended, entered⟩ := enter_iter_succ false
        (invoke ⟨false, limit⟩ budget room) acc shows_inside rfl more
      rw [next] at entered
      obtain ⟨returns, fails⟩ := ih k (acc + .ofNat (k + 1))
        { machine.push (iterClosure id scope) with
          heap, stack := (machine.push (iterClosure id scope)).stack.mark false, final := false }
        (by omega) (shows.of_extends extended)
      constructor
      · intro enough
        obtain ⟨last, peak, also, returned⟩ := returns (by omega)
        rw [Int64.add_assoc, ← sumUpTo_succ] at returned
        have ended := entered.trans (withMarks_of_value returned)
        exact ⟨last, peak, extended.trans also, invoke_of_value ended⟩
      · intro full
        obtain ⟨after, also, failed⟩ := fails (by omega)
        have ended := entered.trans (withMarks_of_error failed)
        exact ⟨after.pop, extended.trans also, invoke_of_error ended⟩

variable {k : Nat} (small : k < 2 ^ 63) (shows : machine.heap.Shows Heap.root sumView)

include small shows

/-- With tail calls, one frame is enough for the procedure. -/
theorem invoke_sum_of_tail_calls (limit room : Nat) {budget : Nat} (granted : k < budget) :
    ∃ after, machine.heap.Extends after.heap ∧
      invoke ⟨true, limit⟩ budget (room + 1) ⟨sumClosure, [.int (.ofNat k)]⟩ machine =
        .ok (.int (sumUpTo k)) after := by
  obtain ⟨budget, rfl⟩ := Nat.exists_eq_succ_of_ne_zero (Nat.ne_zero_of_lt granted)
  have shows_inside : (machine.push sumClosure).heap.Shows Heap.root sumView := shows
  obtain ⟨heap, id, scope, extended, inside, entered⟩ :=
    enter_sum true (invoke ⟨true, limit⟩ (budget + 1) room) (.ofNat k) shows_inside rfl
  obtain ⟨after, also, returned⟩ := runCalls_iter (invoke ⟨true, limit⟩ (budget + 1) room) k
    budget 0
    { machine with
      heap, stack := machine.stack.push (iterClosure id scope),
      peak := (machine.push sumClosure).peak, deferrals := machine.deferrals + 1 }
    (iterClosure id scope) small (by omega) inside rfl
  have went_on := (runCalls_of_tail_call entered rfl).trans returned
  rw [Int64.zero_add] at went_on
  refine ⟨after.pop, extended.trans also, ?_⟩
  rw [invoke, Run.withFrame, went_on]

/-- Without tail calls, the procedure needs a frame besides those of the loop. -/
theorem invoke_sum_of_no_tail_calls (limit budget room : Nat) :
    (k + 1 < room → ∃ after, machine.heap.Extends after.heap ∧
      invoke ⟨false, limit⟩ budget room ⟨sumClosure, [.int (.ofNat k)]⟩ machine =
        .ok (.int (sumUpTo k)) after) ∧
    (room ≤ k + 1 → ∃ after, machine.heap.Extends after.heap ∧
      invoke ⟨false, limit⟩ budget room ⟨sumClosure, [.int (.ofNat k)]⟩ machine =
        .error (.failed (.callDepthExceeded limit)) after) := by
  cases room with
  | zero =>
    exact ⟨fun none => absurd none (Nat.not_lt_zero _),
      fun _ => ⟨machine, .refl shows.forest, rfl⟩⟩
  | succ room =>
    have shows_inside : (machine.push sumClosure).heap.Shows Heap.root sumView := shows
    obtain ⟨heap, id, scope, extended, inside, entered⟩ :=
      enter_sum false (invoke ⟨false, limit⟩ budget room) (.ofNat k) shows_inside rfl
    obtain ⟨returns, fails⟩ := invoke_iter limit budget room k 0
      { machine.push sumClosure with
        heap, stack := (machine.push sumClosure).stack.mark true, final := false } small inside
    constructor
    · intro enough
      obtain ⟨last, peak, also, returned⟩ := returns (by omega)
      rw [Int64.zero_add] at returned
      have ended := entered.trans (withMarks_of_value returned)
      exact ⟨_, extended.trans also, invoke_of_value ended⟩
    · intro full
      obtain ⟨after, also, failed⟩ := fails (by omega)
      have ended := entered.trans (withMarks_of_error failed)
      exact ⟨after.pop, extended.trans also, invoke_of_error ended⟩

end

/-- How many frames a call of the procedure takes. -/
def sumFrames (tailCalls : Bool) (n : Int64) : Int := if tailCalls then 1 else n.toInt + 2

/-- What a call of the procedure comes to. -/
def sumAnswer (config : Config) (n : Int64) : Except Stop Value :=
  if sumFrames config.tailCalls n ≤ config.maxDepth then .ok (.int (triangular n))
  else .error (.failed (.callDepthExceeded config.maxDepth))

section

variable {config : Config} {budget : Nat} {heap : Heap} {n : Int64} {comments : Bool}

/-- A call of the procedure gives the sum if there are enough frames, and it can be called again. -/
theorem evalOn_sumCall (natural : 0 ≤ n) (granted : config.tailCalls = true → n.toInt < budget)
    (shows : heap.Shows Heap.root sumView) :
    (evalOn config budget (sumCall n) heap).1 = sumAnswer config n ∧
      heap.Extends (evalOn config budget (sumCall n) heap).2 := by
  obtain ⟨k, small, rfl, value⟩ := exists_ofNat natural
  have called : evalOn config budget (sumCall (.ofNat k)) heap = _ :=
    evalOn_call rfl (.cons (denotes_int _) .nil) shows
  have shows_begin : (Machine.ofHeap heap).begin.heap.Shows Heap.root sumView := shows
  rw [called, sumAnswer, sumFrames, value, triangular_ofNat small]
  obtain ⟨_ | _, limit⟩ := config
  · obtain ⟨returns, fails⟩ :=
      invoke_sum_of_no_tail_calls small shows_begin limit budget limit
    by_cases enough : k + 1 < limit
    · obtain ⟨after, extended, returned⟩ := returns enough
      rw [returned, if_neg Bool.false_ne_true, if_pos (by push_cast; omega)]
      exact ⟨rfl, extended⟩
    · obtain ⟨after, extended, failed⟩ := fails (by omega)
      rw [failed, if_neg Bool.false_ne_true, if_neg (by push_cast; omega)]
      exact ⟨rfl, extended⟩
  · cases limit with
    | zero => exact ⟨rfl, .refl shows.forest⟩
    | succ room =>
      have granted_here : (k : Int) < budget := value ▸ granted rfl
      obtain ⟨after, extended, returned⟩ :=
        invoke_sum_of_tail_calls small shows_begin (room + 1) room (Int.ofNat_lt.mp granted_here)
      rw [returned, if_pos rfl, if_pos (by push_cast; omega)]
      exact ⟨rfl, extended⟩

/-- Defining the procedure on a fresh evaluator makes it visible. -/
theorem evalOn_sumDefinition (config : Config) (budget : Nat) :
    (evalOn config budget (.define "sum" (.lambda ["n"] sumBody)) .initial).1 = .ok .nil ∧
      (evalOn config budget (.define "sum" (.lambda ["n"] sumBody)) .initial).2.Shows Heap.root
        sumView := by
  have forest : Heap.initial.Forest := .newScope .empty (by rintro outer ⟨⟩) _
  have builtins : Heap.initial.Shows Heap.root arithmetic := by
    refine .of_entries forest (by decide) ?_
    simp only [arithmetic, List.forall_mem_cons]
    exact ⟨rfl, rfl, rfl, List.forall_mem_nil _⟩
  exact ⟨rfl, builtins.define "sum" ["n"] sumBody⟩

/-- The text of the definition is read as the definition. -/
theorem single_sumSource (comments : Bool) :
    Reader.single comments sumSource = .ok sumDefinition := by
  cases comments <;> decide +kernel

/-- The definition is expanded. -/
theorem expand_sumDefinition :
    sumDefinition.expand = .ok (.define "sum" (.lambda ["n"] sumBody)) := by
  decide +kernel

/-- The text of a call is read as the call. -/
theorem single_sumCall (comments : Bool) (n : Int64) :
    Reader.single comments (sumCall n).text = .ok (sumCall n) := by
  refine single_text_of_readable (.list (by decide) ?_) comments
  simp only [List.forall_mem_cons]
  exact ⟨.ident (by decide) (by decide) (by decide) (by decide), .int n (by decide),
    List.forall_mem_nil _⟩

/-- Calls are expanded as they are. -/
theorem expand_sumCall (n : Int64) : (sumCall n).expand = .ok (sumCall n) := rfl

/-- A text that is read as one expression comes to what the expression comes to. -/
theorem itemsOn_of_single {step : Expr → Heap → Except Stop Value × Heap} {last : Value}
    {text : String} {raw e : Expr} (read : Reader.single comments text = .ok raw)
    (expanded : raw.expand = .ok e) :
    itemsOn step last (Reader.ofString comments text).items heap = step e heap := by
  have items : (Reader.ofString comments text).items = [raw].map .ok :=
    Reader.items_eq_ok_iff.mpr (Grammar.sequence_singleton_iff.mpr (program_of_single read))
  rw [items]
  simp only [List.map_cons, List.map_nil, itemsOn, expanded]
  rcases step e heap with ⟨_ | _, after⟩ <;> rfl

/-- Every call in a row comes to its own answer, whatever the ones before have come to. -/
theorem historyOn_sumCalls (comments : Bool) {numbers : List Int64}
    (natural : ∀ n ∈ numbers, 0 ≤ n)
    (granted : config.tailCalls = true → ∀ n ∈ numbers, n.toInt < budget) :
    ∀ heap : Heap, heap.Shows Heap.root sumView →
      (historyOn (evalOn config budget) (numbers.map fun n => (comments, (sumCall n).text))
        heap).map Prod.fst = numbers.map (sumAnswer config) := by
  induction numbers with
  | nil => exact fun _ _ => rfl
  | cons n numbers ih =>
    intro heap shows
    obtain ⟨n_natural, others_natural⟩ := List.forall_mem_cons.mp natural
    obtain ⟨answer, extended⟩ := evalOn_sumCall n_natural
      (fun on => (List.forall_mem_cons.mp (granted on)).1) shows
    have later := ih others_natural (fun on => (List.forall_mem_cons.mp (granted on)).2) _
      (shows.of_extends extended)
    simp only [List.map_cons, historyOn,
      itemsOn_of_single (single_sumCall comments n) (expand_sumCall n), answer, later]

/-- The definition comes to nothing, and every call after it to its answer. -/
theorem history_sum (config : Config) (budget : Nat) (comments : Bool) {numbers : List Int64}
    (natural : ∀ n ∈ numbers, 0 ≤ n)
    (granted : config.tailCalls = true → ∀ n ∈ numbers, n.toInt < budget) :
    (history config budget (sumTexts comments numbers) .initial).map Prod.fst =
      .ok .nil :: numbers.map (sumAnswer config) := by
  obtain ⟨defined, shows⟩ := evalOn_sumDefinition config budget
  have calls := historyOn_sumCalls comments natural granted _ shows
  rw [history_eq config budget _ _ rfl]
  simp only [sumTexts, historyOn, List.map_cons,
    itemsOn_of_single (single_sumSource comments) expand_sumDefinition]
  exact congrArg₂ List.cons defined calls

end

/-- A loop in tail position runs in one frame, however often it goes round. With tail calls, calls
of the procedure in a row each give the sum of the numbers up to `n`, wrapped, under any limit that
admits one frame, once more than `n` calls may be deferred. Without tail calls, each of them gives
the same if the limit admits `n + 2` frames, and is refused for want of room otherwise. -/
theorem tail_loop_runs_in_one_frame (comments : Bool) (numbers : List Int64)
    (natural : ∀ n ∈ numbers, 0 ≤ n) :
    (∀ limit budget : Nat, 1 ≤ limit → (∀ n ∈ numbers, n.toInt < (budget : Int)) →
      (history ⟨true, limit⟩ budget (sumTexts comments numbers) .initial).map Prod.fst =
        .ok .nil :: numbers.map fun n : Int64 => .ok (.int (triangular n))) ∧
    ∀ limit budget : Nat,
      (history ⟨false, limit⟩ budget (sumTexts comments numbers) .initial).map Prod.fst =
        .ok .nil :: numbers.map fun n : Int64 =>
          if n.toInt + 2 ≤ (limit : Int) then .ok (.int (triangular n))
          else .error (.failed (.callDepthExceeded limit)) := by
  constructor
  · intro limit budget some_frame granted
    have enough : (1 : Int) ≤ (limit : Int) := by omega
    have answer : sumAnswer ⟨true, limit⟩ = fun n : Int64 => .ok (.int (triangular n)) :=
      funext fun n => if_pos enough
    have answers := history_sum ⟨true, limit⟩ budget comments natural fun _ => granted
    rwa [answer] at answers
  · intro limit budget
    have off : Config.tailCalls ⟨false, limit⟩ = true → ∀ n ∈ numbers, n.toInt < (budget : Int) :=
      fun on => absurd on Bool.false_ne_true
    exact history_sum ⟨false, limit⟩ budget comments natural off

/-- Sums up to ten, a hundred and twenty: one frame is enough with tail calls, and without them
fifty frames are too few for the second one only. -/
theorem tail_loop_runs_in_one_frame_of_three_sums :
    (history ⟨true, 1⟩ 101 (sumTexts true [10, 100, 20]) .initial).map Prod.fst =
      [.ok .nil, .ok (.int 55), .ok (.int 5050), .ok (.int 210)] ∧
    (history ⟨false, 50⟩ 0 (sumTexts true [10, 100, 20]) .initial).map Prod.fst =
      [.ok .nil, .ok (.int 55), .error (.failed (.callDepthExceeded 50)), .ok (.int 210)] := by
  have natural : ∀ n ∈ [(10 : Int64), 100, 20], 0 ≤ n := by
    simp only [List.forall_mem_cons]
    exact ⟨by decide, by decide, by decide, List.forall_mem_nil _⟩
  have granted : ∀ n ∈ [(10 : Int64), 100, 20], n.toInt < ((101 : Nat) : Int) := by
    simp only [List.forall_mem_cons]
    exact ⟨by decide, by decide, by decide, List.forall_mem_nil _⟩
  obtain ⟨on, off⟩ := tail_loop_runs_in_one_frame true [10, 100, 20] natural
  exact ⟨on 1 101 (by decide) granted, off 50 0⟩

end TailScheme
