import TailScheme.Proofs.Building

/-!
# How builtins answer

A builtin answers in a fixed order of checks: a wrong number of arguments is reported before
anything else, then the first argument of a wrong kind, then a zero among the divisors; if nothing
is wrong, there is a value (`Builtin.Answers`). What the arguments are is decided for all of them
before anything is computed, so it does not matter where in the row the faults stand. The checks of
the count that the builtins make on their own never answer.
-/
namespace TailScheme

open Value (Making)

namespace Builtin

/-- The kind that all arguments have to be of, if the builtin asks for one. -/
def kind? : Builtin → Option Kind
  | .add | .sub | .mul | .div | .rem | .eq | .lt | .le | .gt | .ge => some .integer
  | .and | .or | .not => some .boolean
  | .car | .cdr => some .pair
  | .cons | .list | .isNull | .identical | .equal => none

/-- Whether the builtin accepts an argument of this kind. -/
def takes (builtin : Builtin) (kind : Kind) : Bool :=
  builtin.kind?.all fun expected => kind == expected

/-- The arguments by which the builtin divides: the sole argument of a division or, if there are
more, all but the first one. -/
def divisors : Builtin → List Value → List Value
  | .div, [divisor] => [divisor]
  | .div, _ :: divisors | .rem, _ :: divisors => divisors
  | _, _ => []

/-- What comes of a call of the builtin, as told by the arguments. -/
structure Answers {α : Type} (builtin : Builtin) (args : List Value) (result : Except Error α) :
    Prop where
  count_iff : (∃ procedure expected got,
      result = .error (.arityMismatch procedure expected got)) ↔
    builtin.arity.accepts args.length = false
  count : builtin.arity.accepts args.length = false →
    result = .error (.arityMismatch builtin.name builtin.arity args.length)
  kind_iff : builtin.arity.accepts args.length = true →
    ((∃ procedure expected got, result = .error (.typeMismatch procedure expected got)) ↔
      ∃ arg ∈ args, builtin.takes arg.kind = false)
  kind : builtin.arity.accepts args.length = true → ∀ before arg after,
    args = before ++ arg :: after → (∀ other ∈ before, builtin.takes other.kind = true) →
    builtin.takes arg.kind = false →
    ∃ expected ∈ builtin.kind?, result = .error (.typeMismatch builtin expected arg.kind)
  divisor_iff : builtin.arity.accepts args.length = true →
    (∀ arg ∈ args, builtin.takes arg.kind = true) →
    ((∃ procedure, result = .error (.divisionByZero procedure)) ↔
      .int 0 ∈ builtin.divisors args)
  divisor : builtin.arity.accepts args.length = true →
    (∀ arg ∈ args, builtin.takes arg.kind = true) → .int 0 ∈ builtin.divisors args →
    result = .error (.divisionByZero builtin)
  value : builtin.arity.accepts args.length = true →
    (∀ arg ∈ args, builtin.takes arg.kind = true) → .int 0 ∉ builtin.divisors args →
    ∃ value, result = .ok value

/-- The arguments are converted from left to right, and the first one of another kind is
reported. -/
structure Converts {α : Type} (builtin : Builtin) (kind : Kind) (embed : α → Value)
    (convert : List Value → Except Error (List α)) : Prop where
  exists_embed : ∀ arg : Value, arg.kind = kind → ∃ value, arg = embed value
  nil : convert [] = .ok []
  cons : ∀ value rest, convert (embed value :: rest) = (convert rest).map (value :: ·)
  other : ∀ arg rest, arg.kind ≠ kind →
    convert (arg :: rest) = .error (.typeMismatch builtin kind arg.kind)

section

variable {α : Type} {builtin : Builtin} {kind : Kind} {embed : α → Value}
  {convert : List Value → Except Error (List α)} {args before after : List Value} {arg : Value}

/-- Arguments of the right kind are converted. -/
theorem Converts.eq_ok (converts : Converts builtin kind embed convert)
    (right : ∀ arg ∈ args, arg.kind = kind) :
    ∃ values, args = values.map embed ∧ convert args = .ok values := by
  induction args with
  | nil => exact ⟨[], rfl, converts.nil⟩
  | cons arg args ih =>
    obtain ⟨arg_right, others_right⟩ := List.forall_mem_cons.mp right
    obtain ⟨value, rfl⟩ := converts.exists_embed arg arg_right
    obtain ⟨values, rfl, converted⟩ := ih others_right
    exact ⟨value :: values, rfl, by rw [converts.cons, converted]; rfl⟩

/-- The first argument of another kind is reported. -/
theorem Converts.eq_error (converts : Converts builtin kind embed convert)
    (right : ∀ other ∈ before, other.kind = kind) (wrong : arg.kind ≠ kind) :
    convert (before ++ arg :: after) = .error (.typeMismatch builtin kind arg.kind) := by
  induction before with
  | nil => exact converts.other arg after wrong
  | cons other before ih =>
    obtain ⟨other_right, others_right⟩ := List.forall_mem_cons.mp right
    obtain ⟨value, rfl⟩ := converts.exists_embed other other_right
    rw [List.cons_append, converts.cons, ih others_right]
    rfl

/-- Integers are taken out of the arguments. -/
theorem converts_integers (builtin : Builtin) :
    Converts builtin .integer Value.int (integers builtin) where
  exists_embed arg right := by
    cases arg <;> cases right
    exact ⟨_, rfl⟩
  nil := rfl
  cons value rest := by
    rw [integers]
    cases integers builtin rest <;> rfl
  other arg rest wrong := by
    cases arg <;> first | rfl | exact absurd rfl wrong

/-- Booleans are taken out of the arguments. -/
theorem converts_booleans (builtin : Builtin) :
    Converts builtin .boolean Value.bool (booleans builtin) where
  exists_embed arg right := by
    cases arg <;> cases right
    exact ⟨_, rfl⟩
  nil := rfl
  cons value rest := by
    rw [booleans]
    cases booleans builtin rest <;> rfl
  other arg rest wrong := by
    cases arg <;> first | rfl | exact absurd rfl wrong

/-- Dividing by several integers gives a value unless one of them is zero. -/
theorem exists_divideAll {values : List Int64} (no_zero : 0 ∉ values) :
    ∀ value, ∃ result, divideAll value values = .ok result := by
  induction values with
  | nil => exact fun value => ⟨value, rfl⟩
  | cons divisor values ih =>
    intro value
    rw [List.mem_cons, not_or] at no_zero
    obtain ⟨result, divided⟩ := ih no_zero.2 (value / divisor)
    exact ⟨result, by rw [divideAll, divide, if_neg (Ne.symm no_zero.1)]; exact divided⟩

/-- Dividing by several integers of which one is zero fails. -/
theorem divideAll_eq_error {values : List Int64} (zero : 0 ∈ values) :
    ∀ value, divideAll value values = .error (.divisionByZero .div) := by
  induction values with
  | nil => cases zero
  | cons divisor values ih =>
    intro value
    rw [divideAll, divide]
    by_cases is_zero : divisor = 0
    · rw [if_pos is_zero]
      rfl
    · rw [if_neg is_zero]
      exact ih ((List.mem_cons.mp zero).resolve_left (Ne.symm is_zero)) _

/-- There is a quotient if no divisor is zero. -/
theorem exists_quotient {first : Int64} {rest : List Int64}
    (no_zero : .int 0 ∉ divisors .div ((first :: rest).map Value.int)) :
    ∃ result, quotient first rest = .ok result := by
  cases rest with
  | nil =>
    have not_zero : first ≠ 0 := fun zero => no_zero (by simp [divisors, zero])
    exact ⟨1 / first, by rw [quotient, divide, if_neg not_zero]⟩
  | cons divisor others =>
    have none_zero : 0 ∉ divisor :: others := fun zero => no_zero (List.mem_map_of_mem zero)
    exact exists_divideAll none_zero first

/-- An integer is among integer arguments if it is among the integers. -/
theorem mem_map_int {value : Int64} {values : List Int64} :
    Value.int value ∈ values.map Value.int ↔ value ∈ values := by
  simp

variable {expected : Kind} {stamp : Nat}

/-- The first argument of a wrong kind is reported whatever else there is. -/
theorem compute_of_kind (asked : builtin.kind? = some expected)
    (fits : builtin.arity.accepts (before ++ arg :: after).length = true)
    (right : ∀ other ∈ before, other.kind = expected) (wrong : arg.kind ≠ expected) :
    builtin.compute (before ++ arg :: after) stamp =
      .error (.typeMismatch builtin expected arg.kind) := by
  cases builtin with
  | add | sub | mul | div | rem | eq | lt | le | gt | ge =>
    cases asked
    rw [compute, (converts_integers _).eq_error right wrong]
    rfl
  | and | or | not =>
    cases asked
    rw [compute, (converts_booleans _).eq_error right wrong]
    rfl
  | car | cdr =>
    cases asked
    have single : before.length + (after.length + 1) = 1 := by
      simpa [arity, Arity.accepts] using fits
    obtain rfl : before = [] := List.eq_nil_of_length_eq_zero (by omega)
    obtain rfl : after = [] := List.eq_nil_of_length_eq_zero (by omega)
    cases arg <;> first | rfl | exact absurd rfl wrong
  | cons | list | isNull | identical | equal => cases asked

/-- A zero among the divisors is reported if all arguments are of the right kind. -/
theorem compute_of_zero (fits : builtin.arity.accepts args.length = true)
    (right : ∀ arg ∈ args, builtin.takes arg.kind = true) (zero : .int 0 ∈ builtin.divisors args) :
    builtin.compute args stamp = .error (.divisionByZero builtin) := by
  cases builtin with
  | div =>
    have integral : ∀ arg ∈ args, arg.kind = .integer := by simpa [takes, kind?] using right
    obtain ⟨values, rfl, converted⟩ := (converts_integers .div).eq_ok integral
    rw [compute, converted]
    rcases values with _ | ⟨value, _ | ⟨divisor, others⟩⟩
    · cases zero
    · have same : 0 ∈ [value] := mem_map_int.mp zero
      obtain rfl := List.mem_singleton.mp same
      rfl
    · have divided : quotient value (divisor :: others) = .error (.divisionByZero .div) :=
        divideAll_eq_error (mem_map_int.mp zero) value
      change (liftM (quotient value (divisor :: others)) >>= fun result =>
        pure (Value.int result) : Making Value) stamp = _
      rw [divided]
      rfl
  | rem =>
    have integral : ∀ arg ∈ args, arg.kind = .integer := by simpa [takes, kind?] using right
    obtain ⟨values, rfl, converted⟩ := (converts_integers .rem).eq_ok integral
    rw [compute, converted]
    obtain ⟨value, divisor, rfl⟩ : ∃ value divisor, values = [value, divisor] :=
      List.length_eq_two.mp (by simpa [arity, Arity.accepts] using fits)
    have same : 0 ∈ [divisor] := mem_map_int.mp zero
    obtain rfl := List.mem_singleton.mp same
    rfl
  | _ => cases zero

/-- If nothing is wrong with the arguments, there is a value. -/
theorem exists_compute (fits : builtin.arity.accepts args.length = true)
    (right : ∀ arg ∈ args, builtin.takes arg.kind = true)
    (no_zero : .int 0 ∉ builtin.divisors args) :
    ∃ result, builtin.compute args stamp = .ok result := by
  have integral (asked : builtin.kind? = some .integer) :
      ∃ values, args = values.map Value.int ∧ integers builtin args = .ok values :=
    (converts_integers builtin).eq_ok (by simpa [takes, asked] using right)
  have logical (asked : builtin.kind? = some .boolean) :
      ∃ values, args = values.map Value.bool ∧ booleans builtin args = .ok values :=
    (converts_booleans builtin).eq_ok (by simpa [takes, asked] using right)
  cases builtin with
  | add | mul | eq | lt | le | gt | ge =>
    obtain ⟨values, -, converted⟩ := integral rfl
    rw [compute, converted]
    exact ⟨_, rfl⟩
  | and | or =>
    obtain ⟨values, -, converted⟩ := logical rfl
    rw [compute, converted]
    exact ⟨_, rfl⟩
  | sub =>
    obtain ⟨values, rfl, converted⟩ := integral rfl
    rw [compute, converted]
    rcases values with _ | ⟨first, rest⟩
    · cases fits
    · exact ⟨_, rfl⟩
  | div =>
    obtain ⟨values, rfl, converted⟩ := integral rfl
    rw [compute, converted]
    rcases values with _ | ⟨first, rest⟩
    · cases fits
    · obtain ⟨result, divided⟩ := exists_quotient no_zero
      change ∃ made, (liftM (quotient first rest) >>= fun result =>
        pure (Value.int result) : Making Value) stamp = .ok made
      rw [divided]
      exact ⟨_, rfl⟩
  | rem =>
    obtain ⟨values, rfl, converted⟩ := integral rfl
    rw [compute, converted]
    obtain ⟨value, divisor, rfl⟩ : ∃ value divisor, values = [value, divisor] :=
      List.length_eq_two.mp (by simpa [arity, Arity.accepts] using fits)
    have not_zero : divisor ≠ 0 := fun zero => no_zero (by simp [divisors, zero])
    change ∃ made, (liftM (remainder value divisor) >>= fun result =>
      pure (Value.int result) : Making Value) stamp = .ok made
    rw [remainder, if_neg not_zero]
    exact ⟨_, rfl⟩
  | not =>
    obtain ⟨values, rfl, converted⟩ := logical rfl
    rw [compute, converted]
    obtain ⟨value, rfl⟩ : ∃ value, values = [value] :=
      List.length_eq_one_iff.mp (by simpa [arity, Arity.accepts] using fits)
    exact ⟨_, rfl⟩
  | cons | identical | equal =>
    obtain ⟨first, second, rfl⟩ : ∃ first second, args = [first, second] :=
      List.length_eq_two.mp (by simpa [arity, Arity.accepts] using fits)
    exact ⟨_, rfl⟩
  | isNull =>
    obtain ⟨value, rfl⟩ : ∃ value, args = [value] :=
      List.length_eq_one_iff.mp (by simpa [arity, Arity.accepts] using fits)
    exact ⟨_, rfl⟩
  | car | cdr =>
    obtain ⟨value, rfl⟩ : ∃ value, args = [value] :=
      List.length_eq_one_iff.mp (by simpa [arity, Arity.accepts] using fits)
    cases value with
    | pair id first second => exact ⟨_, rfl⟩
    | _ => cases right _ (List.mem_singleton_self _)
  | list => exact ⟨_, Value.ofList_eq stamp args⟩

/-- A builtin that is given the wrong number of arguments says so. -/
theorem apply_of_count (wrong : builtin.arity.accepts args.length = false) :
    builtin.apply args stamp =
      .error (.arityMismatch builtin.name builtin.arity args.length) := by
  have refused : builtin.arity.check builtin.name args.length =
      .error (.arityMismatch builtin.name builtin.arity args.length) := by
    rw [Arity.check, wrong, if_neg Bool.false_ne_true]
  rw [apply, refused]
  rfl

/-- A builtin that is given the right number of arguments computes. -/
theorem apply_of_fits (fits : builtin.arity.accepts args.length = true) :
    builtin.apply args stamp = builtin.compute args stamp := by
  have accepted : builtin.arity.check builtin.name args.length = .ok () := by
    rw [Arity.check, if_pos fits]
  rw [apply, accepted]
  rfl

/-- Either all arguments are of the right kind, or one of them is the first that is not. -/
theorem exists_first_wrong (builtin : Builtin) (args : List Value) :
    (∀ arg ∈ args, builtin.takes arg.kind = true) ∨
      ∃ before arg after, args = before ++ arg :: after ∧
        (∀ other ∈ before, builtin.takes other.kind = true) ∧ builtin.takes arg.kind = false := by
  cases found : args.find? fun arg => !builtin.takes arg.kind with
  | none => exact .inl (by simpa using found)
  | some arg =>
    obtain ⟨wrong, before, after, split, right⟩ := List.find?_eq_some_iff_append.mp found
    exact .inr ⟨before, arg, after, split, by simpa using right, by simpa using wrong⟩

/-- Answers that come in the order of the checks come only if they have a cause, because the causes
exclude each other. -/
theorem Answers.of_causes {α : Type} {result : Except Error α}
    (count : builtin.arity.accepts args.length = false →
      result = .error (.arityMismatch builtin.name builtin.arity args.length))
    (kind : builtin.arity.accepts args.length = true → ∀ before arg after,
      args = before ++ arg :: after → (∀ other ∈ before, builtin.takes other.kind = true) →
      builtin.takes arg.kind = false →
      ∃ expected ∈ builtin.kind?, result = .error (.typeMismatch builtin expected arg.kind))
    (divisor : builtin.arity.accepts args.length = true →
      (∀ arg ∈ args, builtin.takes arg.kind = true) → .int 0 ∈ builtin.divisors args →
      result = .error (.divisionByZero builtin))
    (value : builtin.arity.accepts args.length = true →
      (∀ arg ∈ args, builtin.takes arg.kind = true) → .int 0 ∉ builtin.divisors args →
      ∃ value, result = .ok value) : Answers builtin args result where
  count := count
  kind := kind
  divisor := divisor
  value := value
  count_iff := by
    refine ⟨?_, fun wrong => ⟨_, _, _, count wrong⟩⟩
    rintro ⟨procedure, expected, got, rfl⟩
    by_contra fits
    rw [Bool.not_eq_false] at fits
    obtain right | ⟨before, arg, after, split, right, wrong⟩ := builtin.exists_first_wrong args
    · by_cases zero : .int 0 ∈ builtin.divisors args
      · cases divisor fits right zero
      · obtain ⟨_, same⟩ := value fits right zero
        cases same
    · obtain ⟨_, _, same⟩ := kind fits before arg after split right wrong
      cases same
  kind_iff fits := by
    constructor
    · rintro ⟨procedure, expected, got, rfl⟩
      obtain right | ⟨before, arg, after, split, right, wrong⟩ := builtin.exists_first_wrong args
      · by_cases zero : .int 0 ∈ builtin.divisors args
        · cases divisor fits right zero
        · obtain ⟨_, same⟩ := value fits right zero
          cases same
      · exact ⟨arg, by simp [split], wrong⟩
    · rintro ⟨found, among, wrong⟩
      obtain right | ⟨before, arg, after, split, right, wrong⟩ := builtin.exists_first_wrong args
      · rw [right found among] at wrong
        cases wrong
      · obtain ⟨_, _, same⟩ := kind fits before arg after split right wrong
        exact ⟨_, _, _, same⟩
  divisor_iff fits right := by
    refine ⟨?_, fun zero => ⟨_, divisor fits right zero⟩⟩
    rintro ⟨procedure, rfl⟩
    by_contra zero
    obtain ⟨_, same⟩ := value fits right zero
    cases same

/-- A builtin answers in the order of its checks. -/
theorem answers_apply (builtin : Builtin) (args : List Value) (stamp : Nat) :
    Answers builtin args (builtin.apply args stamp) := by
  refine .of_causes apply_of_count ?_ ?_ ?_
  · rintro fits before arg after rfl right wrong
    rw [apply_of_fits fits]
    cases asked : builtin.kind? with
    | none =>
      rw [takes, asked] at wrong
      cases wrong
    | some expected =>
      have others_right : ∀ other ∈ before, other.kind = expected := by
        simpa [takes, asked] using right
      have arg_wrong : arg.kind ≠ expected := by simpa [takes, asked] using wrong
      exact ⟨expected, rfl, compute_of_kind asked fits others_right arg_wrong⟩
  · intro fits right zero
    rw [apply_of_fits fits]
    exact compute_of_zero fits right zero
  · intro fits right no_zero
    rw [apply_of_fits fits]
    exact exists_compute fits right no_zero

end

end Builtin

/-- A combination applies its operator to the operands once all its parts have their values. -/
theorem evaluate_list {tailCalls : Bool} {invoke : Call → Run Value} {items : List Expr}
    {scope : ScopeId} {machine after : Machine} {operator : Value} {args : List Value}
    (evaluated : evaluateAll tailCalls invoke items scope { machine with final := false } =
      .ok (operator :: args) after) :
    evaluate tailCalls invoke (.list items) scope machine =
      applyTo invoke (tailCalls && machine.stack.isFinal && machine.final) operator args after := by
  simp only [evaluate, Bind.bind, EStateM.bind, Run.takeTailMark, evaluated]

/-- Whatever a builtin is given, it fails or gives a value in the order of its checks: the number of
arguments comes first, then the first argument of a wrong kind, then a zero among the divisors. What
it computes from an accepted number of arguments never complains of their number. A combination
whose operator is a builtin is no different: once its parts have their values, the builtin
answers. -/
theorem builtins_answer_in_order (builtin : Builtin) (args : List Value) :
    (∀ stamp, builtin.Answers args (builtin.apply args stamp)) ∧
    (builtin.arity.accepts args.length = true → ∀ stamp procedure expected got,
      builtin.compute args stamp ≠ .error (.arityMismatch procedure expected got)) ∧
    ∀ tailCalls invoke items scope machine after,
      evaluateAll tailCalls invoke items scope { machine with final := false } =
        .ok (.builtin builtin :: args) after →
      evaluate tailCalls invoke (.list items) scope machine =
        Run.making (builtin.apply args) after := by
  refine ⟨builtin.answers_apply args, ?_, ?_⟩
  · intro fits stamp procedure expected got failed
    have unfit := (builtin.answers_apply args stamp).count_iff.mp
      ⟨procedure, expected, got, by rw [Builtin.apply_of_fits fits, failed]⟩
    rw [fits] at unfit
    cases unfit
  · intro tailCalls invoke items scope machine after evaluated
    exact evaluate_list evaluated

/-- A division of one by zero and by a truth value complains of the truth value, both in a direct
call and in a program, although the zero comes first. -/
theorem builtins_answer_in_order_of_mixed_division :
    Builtin.div.apply [.int 1, .int 0, .bool true] 0 =
      .error (.typeMismatch .div .integer .boolean) ∧
    evaluate true (fun _ => pure .nil) (.list [.ident "/", .int 1, .int 0, .bool true]) Heap.root
      Machine.initial = .error (.failed (.typeMismatch .div .integer .boolean)) Machine.initial ∧
    Builtin.div.compute [.int 1, .int 0, .bool true] 0 ≠
      .error (.arityMismatch "/" (.atLeast 1) 3) := by
  have accepted : Builtin.div.arity.accepts 3 = true := by decide
  have answers := builtins_answer_in_order .div [.int 1, .int 0, .bool true]
  obtain ⟨_, ⟨⟩, mismatch⟩ := (answers.1 0).kind accepted [.int 1, .int 0] (.bool true) [] rfl
    (by decide) rfl
  have evaluated := answers.2.2 true (fun _ => pure .nil)
    [.ident "/", .int 1, .int 0, .bool true] Heap.root Machine.initial Machine.initial rfl
  refine ⟨mismatch, ?_, answers.2.1 accepted 0 _ _ _⟩
  rw [evaluated, Run.making]
  have none_made : Machine.initial.heap.pairs = 0 := rfl
  rw [none_made, mismatch]
  rfl

end TailScheme
