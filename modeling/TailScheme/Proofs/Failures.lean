import TailScheme.Evaluation

/-!
# Results and failures of the builtins and of quoting

What builtins compute and what quoted data stands for is a matter of their arguments and the data.
Builtins make their results from nothing but their arguments and fail only when they are misused
(`Builtin.yields_apply`). So neither they nor quoting fail for want of room on the stack: that
failure is left to calls of closures.
-/
namespace TailScheme

namespace Error

/-- Whether a failure is the refusal of a call for want of room on the stack. -/
def isRefusal : Error → Bool
  | .callDepthExceeded _ => true
  | _ => false

/-- A builtin is given arguments that it cannot take. -/
inductive IsMisuse : Error → Prop where
  | kind (procedure : Builtin) (expected got : Kind) :
      IsMisuse (.typeMismatch procedure expected got)
  | count (procedure : Builtin) (expected : Arity) (got : Nat) :
      IsMisuse (.arityMismatch procedure.name expected got)
  | divisor (procedure : Builtin) : IsMisuse (.divisionByZero procedure)

/-- Quoted data contains a form that is already expanded. -/
inductive IsUnquotable : Error → Prop where
  | form (shown : String) : IsUnquotable (.unquotable shown)

end Error

/-- A result that is no refusal. -/
def Harmless {α : Type} (result : Except Error α) : Prop :=
  ∀ error, result = .error error → error.isRefusal = false

/-- A good result or a failure that is allowed. -/
def Yields {α : Type} (allowed : Error → Prop) (good : α → Prop) : Except Error α → Prop
  | .ok value => good value
  | .error error => allowed error

section

variable {α β : Type} {allowed : Error → Prop} {good : α → Prop} {better : β → Prop}

/-- A value is no refusal. -/
theorem harmless_ok (value : α) : Harmless (.ok value : Except Error α) :=
  fun _ same => by cases same

/-- Any other failure is no refusal. -/
theorem harmless_error {error : Error} (other : error.isRefusal = false) :
    Harmless (.error error : Except Error α) :=
  fun _ same => Except.error.inj same ▸ other

/-- A good value is used for the next result. -/
theorem Yields.bind {first : Except Error α} {second : α → Except Error β}
    (yields : Yields allowed good first)
    (then_yields : ∀ value, good value → Yields allowed better (second value)) :
    Yields allowed better (first >>= second) := by
  cases first with
  | error error => exact yields
  | ok value => exact then_yields value yields

end

/-- More failures may be allowed. -/
theorem Yields.mono {α : Type} {allowed more : Error → Prop} {good : α → Prop}
    {result : Except Error α} (yields : Yields allowed good result)
    (is_allowed : ∀ error, allowed error → more error) : Yields more good result := by
  cases result with
  | error error => exact is_allowed error yields
  | ok value => exact yields

namespace Value

namespace Making

variable {α β : Type} {allowed : Error → Prop} {good : α → Prop} {better : β → Prop}

/-- A computation with pairs whose results are no refusals. -/
def AllHarmless (make : Making α) : Prop := ∀ stamp, Harmless (make stamp)

/-- A computation with pairs that has good results or fails as is allowed. -/
def Yields (allowed : Error → Prop) (good : α → Prop) (make : Making α) : Prop :=
  ∀ stamp, TailScheme.Yields allowed (fun made => good made.1) (make stamp)

/-- A computation is harmless if no refusal is allowed. -/
theorem Yields.allHarmless {make : Making α} (yields : make.Yields allowed good)
    (no_refusal : ∀ error, allowed error → error.isRefusal = false) : make.AllHarmless := by
  intro stamp error failed
  have failure := yields stamp
  rw [failed] at failure
  exact no_refusal error failure

/-- A good value is handed back. -/
theorem yields_pure {value : α} (is_good : good value) :
    (pure value : Making α).Yields allowed good :=
  fun _ => is_good

/-- A good value is used for the next result. -/
theorem Yields.bind {first : Making α} {second : α → Making β} (yields : first.Yields allowed good)
    (then_yields : ∀ value, good value → (second value).Yields allowed better) :
    (first >>= second).Yields allowed better :=
  fun stamp => (yields stamp).bind fun made is_good => then_yields made.1 is_good made.2

/-- A computation without pairs is as good as its result. -/
theorem yields_lift {result : Except Error α} (yields : TailScheme.Yields allowed good result) :
    (liftM result : Making α).Yields allowed good :=
  fun _ => yields.bind fun _ is_good => is_good

/-- An allowed failure is reported. -/
theorem yields_throw {error : Error} (is_allowed : allowed error) :
    (throw error : Making α).Yields allowed good :=
  fun _ => is_allowed

end Making

/-- A property of values that atoms other than symbols have, and that pairs have exactly if both of
their values have it. Nothing is said of symbols and closures. -/
structure Composite (good : Value → Prop) : Prop where
  nil : good .nil
  bool : ∀ value, good (.bool value)
  int : ∀ value, good (.int value)
  builtin : ∀ procedure, good (.builtin procedure)
  pair_iff : ∀ id first second, good (.pair id first second) ↔ good first ∧ good second

/-- A property of values that all atoms have, and that pairs have exactly if both of their values
have it. Nothing is said of closures. -/
structure Hereditary (good : Value → Prop) : Prop extends Composite good where
  symbol : ∀ name, good (.symbol name)

/-- All values together have every property. -/
theorem hereditary_true : Hereditary fun _ => True where
  nil := trivial
  bool _ := trivial
  int _ := trivial
  symbol _ := trivial
  builtin _ := trivial
  pair_iff _ _ _ := ⟨fun _ => ⟨trivial, trivial⟩, fun _ => trivial⟩

/-- A list of good values is good, and making it does not fail. -/
theorem yields_ofList {allowed : Error → Prop} {good : Value → Prop} (composite : Composite good)
    {values : List Value} (all_good : ∀ value ∈ values, good value) :
    (ofList values).Yields allowed good := by
  induction values with
  | nil => exact Making.yields_pure composite.nil
  | cons value values ih =>
    rw [List.forall_mem_cons] at all_good
    refine (ih all_good.2).bind fun tail tail_good => ?_
    exact fun stamp => (composite.pair_iff stamp value tail).mpr ⟨all_good.1, tail_good⟩

end Value

open Value (Composite Hereditary)
open Value.Making

namespace Expr

/-- Whether a tree is an expanded special form other than a quote. -/
def isForm : Expr → Bool
  | .define _ _ | .set _ _ | .lambda _ _ | .cond _ => true
  | _ => false

/-- What is asked of quoted data (`data`), of the values that it stands for (`good`) and of the
failures (`allowed`) fits together: what is quoted inside data is data, its names are good symbols,
and a form in it may be reported. -/
structure Quotable (data : Expr → Prop) (allowed : Error → Prop) (good : Value → Prop) : Prop where
  composite : Composite good
  symbol : ∀ name, data (.ident name) → good (.symbol name)
  items : ∀ items, data (.list items) → ∀ item ∈ items, data item
  quote : ∀ datum, data (.quote datum) → good (.symbol "quote") ∧ data datum
  form : ∀ e, data e → e.isForm = true → allowed (.unquotable e.text)

section

variable {data : Expr → Prop} {allowed : Error → Prop} {good : Value → Prop}

mutual

/-- Quoting data makes a good value or fails as is allowed. -/
theorem Quotable.yields_quoted (quotable : Quotable data allowed good) :
    ∀ e : Expr, data e → e.quoted.Yields allowed good
  | .bool value, _ => yields_pure (quotable.composite.bool value)
  | .int value, _ => yields_pure (quotable.composite.int value)
  | .ident name, is_data => yields_pure (quotable.symbol name is_data)
  | .list items, is_data =>
    (quotable.yields_quotedAll items (quotable.items items is_data)).bind fun _ all_good =>
      Value.yields_ofList quotable.composite all_good
  | .quote datum, is_data =>
    have ⟨symbol_good, inner⟩ := quotable.quote datum is_data
    (quotable.yields_quoted datum inner).bind fun _ is_good =>
      Value.yields_ofList quotable.composite (List.forall_mem_cons.mpr
        ⟨symbol_good, List.forall_mem_singleton.mpr is_good⟩)
  | .define _ _, is_data | .set _ _, is_data | .lambda _ _, is_data | .cond _, is_data =>
    yields_throw (quotable.form _ is_data rfl)

/-- Quoting several pieces of data makes good values or fails as is allowed. -/
theorem Quotable.yields_quotedAll (quotable : Quotable data allowed good) :
    ∀ items : List Expr, (∀ item ∈ items, data item) →
      (quotedAll items).Yields allowed fun values => ∀ value ∈ values, good value
  | [], _ => yields_pure (List.forall_mem_nil _)
  | item :: items, each => by
    rw [List.forall_mem_cons] at each
    refine (quotable.yields_quoted item each.1).bind fun value is_good => ?_
    refine (quotable.yields_quotedAll items each.2).bind fun values all_good => ?_
    exact yields_pure (List.forall_mem_cons.mpr ⟨is_good, all_good⟩)

end

/-- Whatever is quoted, its atoms become good values, and only a form that is already expanded
fails. -/
theorem yields_quoted (hereditary : Hereditary good) (e : Expr) :
    e.quoted.Yields Error.IsUnquotable good := by
  have quotable : Quotable (fun _ => True) Error.IsUnquotable good := {
    composite := hereditary.toComposite
    symbol := fun name _ => hereditary.symbol name
    items := fun _ _ _ _ => trivial
    quote := fun _ _ => ⟨hereditary.symbol "quote", trivial⟩
    form := fun _ _ _ => .form _ }
  exact quotable.yields_quoted e trivial

end

/-- Quoting is harmless. -/
theorem allHarmless_quoted (e : Expr) : e.quoted.AllHarmless :=
  (yields_quoted Value.hereditary_true e).allHarmless fun _ ⟨_⟩ => rfl

end Expr

namespace Builtin

variable (builtin : Builtin) {args : List Value} {good : Value → Prop}

/-- Arguments that are no integers are misuse. -/
theorem yields_integers (args : List Value) :
    Yields Error.IsMisuse (fun _ => True) (integers builtin args) := by
  induction args with
  | nil => exact trivial
  | cons value rest ih =>
    cases value with
    | int value => exact ih.bind fun _ _ => trivial
    | _ => exact .kind _ _ _

/-- Arguments that are no booleans are misuse. -/
theorem yields_booleans (args : List Value) :
    Yields Error.IsMisuse (fun _ => True) (booleans builtin args) := by
  induction args with
  | nil => exact trivial
  | cons value rest ih =>
    cases value with
    | bool value => exact ih.bind fun _ _ => trivial
    | _ => exact .kind _ _ _

/-- Dividing by zero is misuse. -/
theorem yields_divide (value divisor : Int64) :
    Yields Error.IsMisuse (fun _ => True) (divide value divisor) := by
  unfold divide
  split
  · exact .divisor _
  · exact trivial

/-- Dividing by several integers of which one is zero is misuse. -/
theorem yields_divideAll (divisors : List Int64) :
    ∀ value, Yields Error.IsMisuse (fun _ => True) (divideAll value divisors) := by
  induction divisors with
  | nil => exact fun _ => trivial
  | cons divisor rest ih =>
    exact fun value => (yields_divide value divisor).bind fun quotient _ => ih quotient

/-- A quotient that does not exist is misuse. -/
theorem yields_quotient (first : Int64) (rest : List Int64) :
    Yields Error.IsMisuse (fun _ => True) (quotient first rest) := by
  cases rest with
  | nil => exact yields_divide 1 first
  | cons divisor rest => exact yields_divideAll (divisor :: rest) first

/-- A remainder that does not exist is misuse. -/
theorem yields_remainder (value divisor : Int64) :
    Yields Error.IsMisuse (fun _ => True) (remainder value divisor) := by
  unfold remainder
  split
  · exact .divisor _
  · exact trivial

/-- A wrong number of arguments is misuse. -/
theorem yields_wrongCount (count : Nat) :
    (throw (wrongCount builtin count) : Value.Making Value).Yields Error.IsMisuse good :=
  yields_throw (.count _ _ _)

/-- What a builtin computes from good arguments is good, or the builtin is misused. -/
theorem yields_compute (composite : Composite good) (args_good : ∀ arg ∈ args, good arg) :
    (builtin.compute args).Yields Error.IsMisuse good := by
  have integers_yield := fun builtin => yields_lift (yields_integers builtin args)
  have booleans_yield := fun builtin => yields_lift (yields_booleans builtin args)
  cases builtin with
  | add | mul =>
    exact (integers_yield _).bind fun _ _ => yields_pure (composite.int _)
  | eq | lt | le | gt | ge =>
    exact (integers_yield _).bind fun _ _ => yields_pure (composite.bool _)
  | sub =>
    refine (integers_yield _).bind fun values _ => ?_
    cases values with
    | nil => exact yields_wrongCount .sub 0
    | cons first rest => exact yields_pure (composite.int _)
  | div =>
    refine (integers_yield _).bind fun values _ => ?_
    cases values with
    | nil => exact yields_wrongCount .div 0
    | cons first rest =>
      exact (yields_lift (yields_quotient first rest)).bind fun _ _ =>
        yields_pure (composite.int _)
  | rem =>
    refine (integers_yield _).bind fun values _ => ?_
    split
    · exact (yields_lift (yields_remainder _ _)).bind fun _ _ => yields_pure (composite.int _)
    · exact yields_wrongCount .rem _
  | and | or => exact (booleans_yield _).bind fun _ _ => yields_pure (composite.bool _)
  | not =>
    refine (booleans_yield _).bind fun values _ => ?_
    split
    · exact yields_pure (composite.bool _)
    · exact yields_wrongCount .not _
  | cons =>
    simp only [compute]
    split
    · next first second =>
      have first_good := args_good first (by simp)
      have second_good := args_good second (by simp)
      exact fun stamp => (composite.pair_iff stamp first second).mpr ⟨first_good, second_good⟩
    · exact yields_wrongCount .cons _
  | car =>
    simp only [compute]
    split
    · next id first second =>
      have pair_good := args_good (.pair id first second) (by simp)
      exact yields_pure ((composite.pair_iff id first second).mp pair_good).1
    · exact yields_throw (.kind _ _ _)
    · exact yields_wrongCount _ _
  | cdr =>
    simp only [compute]
    split
    · next id first second =>
      have pair_good := args_good (.pair id first second) (by simp)
      exact yields_pure ((composite.pair_iff id first second).mp pair_good).2
    · exact yields_throw (.kind _ _ _)
    · exact yields_wrongCount _ _
  | list => exact Value.yields_ofList composite args_good
  | isNull | identical | equal =>
    simp only [compute]
    split
    · exact yields_pure (composite.bool _)
    · exact yields_wrongCount _ _

/-- What a builtin makes of good arguments is good, or the builtin is misused. -/
theorem yields_apply (composite : Composite good) (args_good : ∀ arg ∈ args, good arg) :
    (builtin.apply args).Yields Error.IsMisuse good := by
  have counted : Yields Error.IsMisuse (fun _ => True)
      (builtin.arity.check builtin.name args.length) := by
    unfold Arity.check
    split
    · exact trivial
    · exact .count _ _ _
  exact (yields_lift counted).bind fun _ _ => yields_compute builtin composite args_good

/-- Calling a builtin is harmless. -/
theorem allHarmless_apply (args : List Value) : (builtin.apply args).AllHarmless := by
  have yields : (builtin.apply args).Yields Error.IsMisuse fun _ => True :=
    builtin.yields_apply Value.hereditary_true.toComposite fun _ _ => trivial
  refine yields.allHarmless fun error misuse => ?_
  cases misuse <;> rfl

end Builtin

end TailScheme
