import TailScheme.Proofs.Answers
import Mathlib.Data.Int.ModEq
import Mathlib.Algebra.BigOperators.Group.List.Basic

/-!
# Arithmetic up to multiples of 2⁶⁴

Sums, products and differences are computed from left to right and wrap at every step, any number of
times and in either direction. What comes of it is told by the exact result alone: it is the one
64-bit integer that is congruent to the exact result (`Builtin.ComesToResidue`), because every step
keeps the congruence (`foldl_isResidue`) and no two 64-bit integers are congruent
(`IsResidue.unique`). The exact totals do not depend on order and grouping, and congruent parts have
congruent totals; so the wrapped totals do not depend on order and grouping either
(`Builtin.Totals`).

What a builtin gives is told for a call and for a combination at once (`Builtin.ComesTo`).
-/
namespace TailScheme

/-- The 64-bit integer differs from the exact one by a multiple of 2⁶⁴. -/
def IsResidue (value : Int64) (exact : Int) : Prop := value.toInt ≡ exact [ZMOD 2 ^ 64]

/-- Wrapping changes an integer by a multiple of 2⁶⁴. -/
theorem bmod_modEq (exact : Int) : exact.bmod (2 ^ 64) ≡ exact [ZMOD 2 ^ 64] := Int.bmod_emod

section

variable {a b : Int64} {m n : Int}

/-- A 64-bit integer is congruent to itself. -/
theorem isResidue_toInt (value : Int64) : IsResidue value value.toInt := Int.ModEq.refl _

/-- No two 64-bit integers are congruent to the same integer. -/
theorem IsResidue.unique (first : IsResidue a m) (second : IsResidue b m) : a = b := by
  have congruent : a.toInt % 2 ^ 64 = b.toInt % 2 ^ 64 := Int.ModEq.trans first second.symm
  have a_low := a.le_toInt
  have a_high := a.toInt_lt
  have b_low := b.le_toInt
  have b_high := b.toInt_lt
  rw [← Int64.toInt_inj]
  omega

/-- Wrapped sums are congruent to the exact ones. -/
theorem IsResidue.add (left : IsResidue a m) (right : IsResidue b n) :
    IsResidue (a + b) (m + n) := by
  rw [IsResidue, Int64.toInt_add]
  exact (bmod_modEq _).trans (Int.ModEq.add left right)

/-- Wrapped differences are congruent to the exact ones. -/
theorem IsResidue.sub (left : IsResidue a m) (right : IsResidue b n) :
    IsResidue (a - b) (m - n) := by
  rw [IsResidue, Int64.toInt_sub]
  exact (bmod_modEq _).trans (Int.ModEq.sub left right)

/-- Wrapped products are congruent to the exact ones. -/
theorem IsResidue.mul (left : IsResidue a m) (right : IsResidue b n) :
    IsResidue (a * b) (m * n) := by
  rw [IsResidue, Int64.toInt_mul]
  exact (bmod_modEq _).trans (Int.ModEq.mul left right)

/-- A wrapped negation is congruent to the exact one. -/
theorem IsResidue.neg (negated : IsResidue a m) : IsResidue (-a) (-m) := by
  rw [IsResidue, Int64.toInt_neg]
  exact (bmod_modEq _).trans (Int.ModEq.neg negated)

/-- Steps that wrap keep the congruence to what the exact steps make, however often they wrap. -/
theorem foldl_isResidue {step : Int64 → Int64 → Int64} {exact_step : Int → Int → Int}
    (keeps : ∀ {a b m n}, IsResidue a m → IsResidue b n → IsResidue (step a b) (exact_step m n))
    (start : IsResidue a m) (values : List Int64) :
    IsResidue (values.foldl step a) ((values.map Int64.toInt).foldl exact_step m) := by
  induction values generalizing a m with
  | nil => exact start
  | cons value values ih => exact ih (keeps start (isResidue_toInt value))

/-- Taking integers away one after the other is taking their sum away. -/
theorem foldl_sub_eq (start : Int) (values : List Int) :
    values.foldl (· - ·) start = start - values.sum := by
  induction values generalizing start with
  | nil => simp
  | cons value values ih =>
    rw [List.foldl_cons, ih, List.sum_cons]
    omega

end

namespace Builtin

/-- Given these arguments, the builtin gives this value and makes no pairs. So does a combination
once its parts have the builtin and the arguments as their values. -/
structure ComesTo (builtin : Builtin) (args : List Value) (value : Value) : Prop where
  called : ∀ stamp, builtin.apply args stamp = .ok (value, stamp)
  combined : ∀ tailCalls invoke items scope machine after,
    evaluateAll tailCalls invoke items scope { machine with final := false } =
      .ok (.builtin builtin :: args) after →
    evaluate tailCalls invoke (.list items) scope machine = .ok value after

/-- Given these integers, the builtin gives a 64-bit integer, and it is the only one that is
congruent to the exact result. -/
def ComesToResidue (builtin : Builtin) (args : List Int64) (exact : Int) : Prop :=
  ∃ value : Int64, builtin.ComesTo (args.map .int) (.int value) ∧
    ∀ other : Int64, other.toInt ≡ exact [ZMOD 2 ^ 64] ↔ other = value

section

variable {builtin : Builtin} {args : List Value} {value : Value}

/-- A combination of a builtin gives what a call gives. -/
theorem ComesTo.of_apply (called : ∀ stamp, builtin.apply args stamp = .ok (value, stamp)) :
    builtin.ComesTo args value := by
  refine ⟨called, ?_⟩
  intro tailCalls invoke items scope machine after evaluated
  rw [evaluate_list evaluated, applyTo, Run.making, called]

/-- Integers as arguments are converted to themselves. -/
theorem integers_map (builtin : Builtin) (values : List Int64) :
    integers builtin (values.map .int) = .ok values := by
  induction values with
  | nil => rfl
  | cons value values ih =>
    rw [List.map_cons, integers, ih]
    rfl

/-- A builtin that computes with integers does what it does with those that it is given, if their
number is right. -/
theorem apply_integers {result : List Int64 → Value.Making Value}
    (computes : builtin.compute = fun args => do result (← integers builtin args))
    {values : List Int64} (fits : builtin.arity.accepts values.length = true) (stamp : Nat) :
    builtin.apply (values.map .int) stamp = result values stamp := by
  rw [apply_of_fits (by rwa [List.length_map]), computes]
  dsimp only
  rw [integers_map]
  rfl

/-- A builtin that computes with integers gives what it makes of those that it is given. -/
theorem ComesTo.of_integers {result : List Int64 → Value.Making Value} {values : List Int64}
    (computes : builtin.compute = fun args => do result (← integers builtin args))
    (fits : builtin.arity.accepts values.length = true)
    (made : ∀ stamp, result values stamp = .ok (value, stamp)) :
    builtin.ComesTo (values.map .int) value :=
  .of_apply fun stamp => (apply_integers computes fits stamp).trans (made stamp)

/-- The sum builtin gives the wrapped sum. -/
theorem comesTo_sum (values : List Int64) : add.ComesTo (values.map .int) (.int (sum values)) :=
  .of_integers rfl rfl fun _ => rfl

/-- The product builtin gives the wrapped product. -/
theorem comesTo_product (values : List Int64) :
    mul.ComesTo (values.map .int) (.int (product values)) :=
  .of_integers rfl rfl fun _ => rfl

/-- The difference builtin gives the wrapped difference. -/
theorem comesTo_difference (first : Int64) (rest : List Int64) :
    sub.ComesTo ((first :: rest).map .int) (.int (difference first rest)) :=
  .of_integers rfl (by simp [arity, Arity.accepts]) fun _ => rfl

/-- A builtin that gives something congruent to the exact result gives the only such integer. -/
theorem ComesTo.residue {args : List Int64} {value : Int64} {exact : Int}
    (gives : builtin.ComesTo (args.map .int) (.int value)) (residue : IsResidue value exact) :
    builtin.ComesToResidue args exact := by
  refine ⟨value, gives, fun other => ⟨fun congruent => ?_, ?_⟩⟩
  · exact IsResidue.unique congruent residue
  · rintro rfl
    exact residue

/-- The wrapped sum is congruent to the sum. -/
theorem isResidue_sum (values : List Int64) :
    IsResidue (sum values) (values.map Int64.toInt).sum := by
  rw [List.sum_eq_foldl]
  exact foldl_isResidue IsResidue.add (isResidue_toInt 0) values

/-- The wrapped product is congruent to the product. -/
theorem isResidue_product (values : List Int64) :
    IsResidue (product values) (values.map Int64.toInt).prod := by
  rw [List.prod_eq_foldl]
  exact foldl_isResidue IsResidue.mul (isResidue_toInt 1) values

/-- The wrapped difference is congruent to what the sum of the others leaves of the first. -/
theorem isResidue_difference (first second : Int64) (rest : List Int64) :
    IsResidue (difference first (second :: rest))
      (first.toInt - ((second :: rest).map Int64.toInt).sum) := by
  rw [← foldl_sub_eq]
  exact foldl_isResidue IsResidue.sub (isResidue_toInt first) (second :: rest)

/-- The builtin gives the residues of totals that depend neither on order nor on grouping, where
congruent parts have congruent totals. -/
structure Totals (builtin : Builtin) (total : List Int → Int) : Prop where
  gives : ∀ values, builtin.ComesToResidue values (total (values.map Int64.toInt))
  perm : ∀ {values others : List Int}, values.Perm others → total values = total others
  flatten : ∀ parts : List (List Int), total parts.flatten = total (parts.map total)
  congr : ∀ {values others : List Int}, List.Forall₂ (· ≡ · [ZMOD 2 ^ 64]) values others →
    total values ≡ total others [ZMOD 2 ^ 64]

/-- Sums are totals. -/
theorem totals_add : add.Totals List.sum where
  gives values := (comesTo_sum values).residue (isResidue_sum values)
  perm same := same.sum_eq
  flatten parts := List.sum_flatten
  congr congruent := by
    induction congruent with
    | nil => rfl
    | cons first _ ih => exact first.add ih

/-- Products are totals. -/
theorem totals_mul : mul.Totals List.prod where
  gives values := (comesTo_product values).residue (isResidue_product values)
  perm same := same.prod_eq
  flatten parts := List.prod_flatten
  congr congruent := by
    induction congruent with
    | nil => rfl
    | cons first _ ih => exact first.mul ih

variable {total : List Int → Int} {values others : List Int64}

/-- Integers with congruent totals give the same. -/
theorem Totals.comesTo_same (totals : builtin.Totals total)
    (congruent : total (values.map Int64.toInt) ≡ total (others.map Int64.toInt) [ZMOD 2 ^ 64]) :
    ∃ value, builtin.ComesTo (values.map .int) value ∧ builtin.ComesTo (others.map .int) value := by
  obtain ⟨value, gives, value_iff⟩ := totals.gives values
  obtain ⟨other, others_give, other_iff⟩ := totals.gives others
  have value_residue : value.toInt ≡ total (values.map Int64.toInt) [ZMOD 2 ^ 64] :=
    (value_iff value).mpr rfl
  have same : value = other := (other_iff value).mp (value_residue.trans congruent)
  exact ⟨.int value, gives, same ▸ others_give⟩

/-- The order does not matter. -/
theorem Totals.comesTo_perm (totals : builtin.Totals total) (same : values.Perm others) :
    ∃ value, builtin.ComesTo (values.map .int) value ∧ builtin.ComesTo (others.map .int) value := by
  have equal := totals.perm (same.map Int64.toInt)
  exact totals.comesTo_same (equal ▸ Int.ModEq.refl _)

/-- The builtin gives an integer for each part, congruent to the total of the part. -/
theorem Totals.exists_parts (totals : builtin.Totals total) (parts : List (List Int64)) :
    ∃ results : List Int64,
      List.Forall₂ (fun part result => builtin.ComesTo (part.map .int) (.int result))
        parts results ∧
      List.Forall₂ (· ≡ · [ZMOD 2 ^ 64]) (results.map Int64.toInt)
        (parts.map fun part => total (part.map Int64.toInt)) := by
  induction parts with
  | nil => exact ⟨[], .nil, .nil⟩
  | cons part parts ih =>
    obtain ⟨results, each, congruent⟩ := ih
    obtain ⟨result, gives, result_iff⟩ := totals.gives part
    exact ⟨result :: results, .cons gives each, .cons ((result_iff result).mpr rfl) congruent⟩

/-- The grouping does not matter. -/
theorem Totals.comesTo_flatten (totals : builtin.Totals total) (parts : List (List Int64)) :
    ∃ (results : List Int64) (value : Value),
      List.Forall₂ (fun part result => builtin.ComesTo (part.map .int) (.int result))
        parts results ∧
      builtin.ComesTo (results.map .int) value ∧
      builtin.ComesTo (parts.flatten.map .int) value := by
  obtain ⟨results, each, congruent⟩ := totals.exists_parts parts
  have whole : total (parts.flatten.map Int64.toInt) =
      total (parts.map fun part => total (part.map Int64.toInt)) := by
    rw [List.map_flatten, totals.flatten, List.map_map]
    rfl
  obtain ⟨value, gives, whole_gives⟩ := totals.comesTo_same (whole ▸ totals.congr congruent)
  exact ⟨results, value, each, gives, whole_gives⟩

end

end Builtin

open Builtin

/-- Sums, products, negations and differences of 64-bit integers are the only 64-bit integers that
are congruent to the exact results modulo 2⁶⁴, however often they wrap on the way. So sums and
products depend neither on the order nor on the grouping of the integers, also if some of the groups
are empty, and what is added can be taken away again. -/
theorem arithmetic_is_exact (values : List Int64) :
    add.ComesToResidue values (values.map Int64.toInt).sum ∧
    mul.ComesToResidue values (values.map Int64.toInt).prod ∧
    (∀ x : Int64, sub.ComesToResidue [x] (-x.toInt)) ∧
    (∀ (x y : Int64) (ys : List Int64),
      sub.ComesToResidue (x :: y :: ys) (x.toInt - ((y :: ys).map Int64.toInt).sum)) ∧
    (∀ builtin ∈ [add, mul],
      (∀ others, values.Perm others → ∃ value,
        builtin.ComesTo (values.map .int) value ∧ builtin.ComesTo (others.map .int) value) ∧
      ∀ parts, parts.flatten = values → ∃ (results : List Int64) (value : Value),
        List.Forall₂ (fun part result => builtin.ComesTo (part.map .int) (.int result))
          parts results ∧
        builtin.ComesTo (results.map .int) value ∧ builtin.ComesTo (values.map .int) value) ∧
    ∀ a b : Int64, ∃ total, add.ComesTo [.int a, .int b] total ∧
      sub.ComesTo [total, .int b] (.int a) := by
  refine ⟨totals_add.gives values, totals_mul.gives values, ?_, ?_, ?_, ?_⟩
  · intro x
    exact (comesTo_difference x []).residue (isResidue_toInt x).neg
  · intro x y ys
    exact (comesTo_difference x (y :: ys)).residue (isResidue_difference x y ys)
  · have order_and_grouping {builtin : Builtin} {total : List Int → Int}
        (totals : builtin.Totals total) :
        (∀ others, values.Perm others → ∃ value,
          builtin.ComesTo (values.map .int) value ∧ builtin.ComesTo (others.map .int) value) ∧
        ∀ parts, parts.flatten = values → ∃ (results : List Int64) (value : Value),
          List.Forall₂ (fun part result => builtin.ComesTo (part.map .int) (.int result))
            parts results ∧
          builtin.ComesTo (results.map .int) value ∧ builtin.ComesTo (values.map .int) value := by
      refine ⟨fun others same => totals.comesTo_perm same, ?_⟩
      rintro parts rfl
      exact totals.comesTo_flatten parts
    intro builtin among
    rcases List.mem_pair.mp among with rfl | rfl
    · exact order_and_grouping totals_add
    · exact order_and_grouping totals_mul
  · intro a b
    have exact_eq : ([a, b].map Int64.toInt).sum - b.toInt = a.toInt := by simp
    have left := (isResidue_sum [a, b]).sub (isResidue_toInt b)
    rw [exact_eq] at left
    have left_eq : difference (sum [a, b]) [b] = a := left.unique (isResidue_toInt a)
    have taken_away := comesTo_difference (sum [a, b]) [b]
    rw [left_eq] at taken_away
    exact ⟨.int (sum [a, b]), comesTo_sum [a, b], taken_away⟩

/-- The greatest integer and one wrap when they are added, and so does their sum when the rest is
added to it. The order and the grouping can be changed nevertheless. -/
theorem arithmetic_is_exact_of_overflow :
    let values : List Int64 := [.maxValue, 1, .minValue, -1]
    let parts : List (List Int64) := [[.maxValue, 1], [], [.minValue, -1]]
    values.Perm values.reverse ∧ parts.flatten = values ∧ add ∈ [add, mul] ∧
      (∃ value, add.ComesTo (values.map .int) value ∧ add.ComesTo (values.reverse.map .int) value) ∧
      ∃ (results : List Int64) (value : Value),
        List.Forall₂ (fun part result => add.ComesTo (part.map .int) (.int result)) parts results ∧
        add.ComesTo (results.map .int) value ∧ add.ComesTo (values.map .int) value := by
  intro values parts
  have reordered : values.Perm values.reverse := values.reverse_perm.symm
  have among : add ∈ [add, mul] := List.mem_cons_self
  obtain ⟨order, grouping⟩ := (arithmetic_is_exact values).2.2.2.2.1 add among
  exact ⟨reordered, rfl, among, order _ reordered, grouping parts rfl⟩

end TailScheme
