import TailScheme.Proofs.Arithmetic
import Mathlib.Algebra.Order.Ring.Int
import Mathlib.Algebra.BigOperators.Ring.List
import Mathlib.Algebra.Group.Int.Units
import Mathlib.Tactic.Positivity

/-!
# Division and remainder

A quotient is truncated toward zero. Of all quotients of 64-bit integers only one does not fit, that
of the least integer by -1; it wraps to the least integer. All others are exact (`toInt_div`), and
then dividing by several integers in turn is dividing by their product, because truncating is
(`tdiv_tdiv`). The wrapped quotient still fits together with the remainder, because the product of
quotient and divisor wraps back.
-/
namespace TailScheme

/-- Truncating twice is truncating once. -/
theorem tdiv_tdiv (value first second : Int) :
    (value.tdiv first).tdiv second = value.tdiv (first * second) := by
  have natural (m n k : Nat) : ((m : Int) / n).tdiv k = m / (n * k) := by
    rw [Int.tdiv_eq_ediv_of_nonneg (by positivity), Int.ediv_ediv_of_nonneg (by positivity)]
  obtain ⟨m, rfl | rfl⟩ := value.eq_nat_or_neg <;> obtain ⟨n, rfl | rfl⟩ := first.eq_nat_or_neg <;>
    obtain ⟨k, rfl | rfl⟩ := second.eq_nat_or_neg <;>
    simp [Int.neg_tdiv, Int.tdiv_neg, natural]

/-- A product of integers is -1 only if one of them is. -/
theorem neg_one_mem_of_prod {values : List Int} (product : values.prod = -1) : -1 ∈ values := by
  by_contra none_minus
  have all_one : ∀ value ∈ values, value = 1 := by
    intro value among
    have divides : value ∣ -1 := product ▸ List.dvd_prod among
    have unit : value = 1 ∨ value = -1 := Int.isUnit_iff.mp (isUnit_of_dvd_unit divides (by simp))
    exact unit.resolve_right fun minus => none_minus (minus ▸ among)
  rw [List.prod_eq_one all_one] at product
  omega

namespace Builtin

variable {a b : Int64}

/-- All quotients but one are exact. -/
theorem toInt_div (fits : ¬ (a = .minValue ∧ b = -1)) : (a / b).toInt = a.toInt.tdiv b.toInt := by
  by_cases least : a = .minValue
  · exact Int64.toInt_div_of_ne_right a b fun minus => fits ⟨least, minus⟩
  · exact Int64.toInt_div_of_ne_left a b least

/-- A quotient is the least integer only if the dividend is. -/
theorem eq_minValue_of_div (least : a / b = .minValue) : a = .minValue := by
  by_contra greater
  have quotient_eq := Int64.toInt_div_of_ne_left a b greater
  rw [least, Int64.toInt_minValue] at quotient_eq
  have shrinks := Int.natAbs_tdiv_le_natAbs a.toInt b.toInt
  have low := a.le_toInt
  have high := a.toInt_lt
  have value_eq : a.toInt = Int64.minValue.toInt := by
    rw [Int64.toInt_minValue]
    omega
  exact greater (Int64.toInt_inj.mp value_eq)

/-- Quotient and remainder make up the dividend, also where the quotient wraps. -/
theorem mul_div_add_mod (a b : Int64) : b * (a / b) + a % b = a := by
  have quotient_residue : IsResidue (a / b) (a.toInt.tdiv b.toInt) := by
    rw [IsResidue, Int64.toInt_div]
    exact bmod_modEq _
  have remainder_residue : IsResidue (a % b) (a.toInt.tmod b.toInt) := by
    rw [← Int64.toInt_mod]
    exact isResidue_toInt _
  have whole := ((isResidue_toInt b).mul quotient_residue).add remainder_residue
  rw [Int.mul_tdiv_add_tmod] at whole
  exact whole.unique (isResidue_toInt a)

/-- A remainder is smaller than the divisor. -/
theorem abs_mod_lt (not_zero : b ≠ 0) : |(a % b).toInt| < |b.toInt| := by
  have divisor_ne : b.toInt ≠ 0 := fun zero => not_zero (Int64.toInt_inj.mp zero)
  have smaller : a.toInt.natAbs % b.toInt.natAbs < b.toInt.natAbs :=
    Nat.mod_lt _ (Int.natAbs_pos.mpr divisor_ne)
  rw [Int64.toInt_mod, Int.abs_eq_natAbs, Int.abs_eq_natAbs, Int.natAbs_tmod]
  exact Int.ofNat_lt.mpr smaller

/-- A remainder is zero or has the sign of the dividend. -/
theorem sign_mod (a b : Int64) : (a % b).toInt = 0 ∨ (a % b).toInt.sign = a.toInt.sign := by
  rw [Int64.toInt_mod]
  by_cases divides : b.toInt ∣ a.toInt
  · exact .inl (Int.tmod_eq_zero_of_dvd divides)
  · exact .inr (by rw [Int.sign_tmod, if_neg divides])

/-- Dividing by several integers in turn is dividing by their product, unless the least integer is
divided by -1 on the way. -/
theorem divideAll_exact {divisors : List Int64} (no_zero : 0 ∉ divisors)
    (fits : ¬ (a = .minValue ∧ -1 ∈ divisors)) :
    ∃ result, divideAll a divisors = .ok result ∧
      result.toInt = a.toInt.tdiv (divisors.map Int64.toInt).prod := by
  induction divisors generalizing a with
  | nil => exact ⟨a, rfl, by simp⟩
  | cons divisor divisors ih =>
    rw [List.mem_cons, not_or] at no_zero
    have first_fits : ¬ (a = .minValue ∧ divisor = -1) := by
      rintro ⟨least, rfl⟩
      exact fits ⟨least, List.mem_cons_self⟩
    have others_fit : ¬ (a / divisor = .minValue ∧ -1 ∈ divisors) := by
      rintro ⟨least, among⟩
      exact fits ⟨eq_minValue_of_div least, List.mem_cons_of_mem _ among⟩
    obtain ⟨result, divided, result_eq⟩ := ih no_zero.2 others_fit
    refine ⟨result, ?_, ?_⟩
    · rw [divideAll, divide, if_neg (Ne.symm no_zero.1)]
      exact divided
    · rw [result_eq, toInt_div first_fits, tdiv_tdiv, List.map_cons, List.prod_cons]

/-- The division builtin hands on what the division gives. -/
theorem apply_div (first : Int64) (rest : List Int64) (stamp : Nat) :
    div.apply ((first :: rest).map .int) stamp =
      (quotient first rest).map fun result => (.int result, stamp) := by
  rw [apply_integers rfl (by simp [arity, Arity.accepts])]
  dsimp only
  cases quotient first rest <;> rfl

/-- The remainder builtin hands on what the remainder is. -/
theorem apply_rem (a b : Int64) (stamp : Nat) :
    rem.apply [.int a, .int b] stamp =
      (remainder a b).map fun result => (.int result, stamp) := by
  have applied : rem.apply ([a, b].map .int) stamp = _ := apply_integers rfl rfl stamp
  refine applied.trans ?_
  dsimp only
  cases remainder a b <;> rfl

/-- The division builtin gives the quotient by several divisors if there is one. -/
theorem comesTo_quotient {first result : Int64} {rest : List Int64}
    (divided : quotient first rest = .ok result) :
    div.ComesTo ((first :: rest).map .int) (.int result) :=
  .of_apply fun stamp => by rw [apply_div, divided]; rfl

/-- The quotient by one divisor. -/
theorem quotient_singleton (a : Int64) (not_zero : b ≠ 0) : quotient a [b] = .ok (a / b) := by
  change divideAll a [b] = _
  rw [divideAll, divide, if_neg not_zero]
  rfl

/-- A single integer is divided out of one. -/
theorem quotient_nil (value : Int64) : quotient value [] = quotient 1 [value] := by
  change divide 1 value = divideAll 1 [value]
  rw [divideAll]
  cases divide 1 value <;> rfl

/-- The remainder builtin gives the remainder. -/
theorem comesTo_mod (a : Int64) (not_zero : b ≠ 0) :
    rem.ComesTo [.int a, .int b] (.int (a % b)) :=
  .of_apply fun stamp => by rw [apply_rem, remainder, if_neg not_zero]; rfl

/-- The sum of two integers. -/
theorem comesTo_add (a b : Int64) : add.ComesTo [.int a, .int b] (.int (a + b)) := by
  have given := comesTo_sum [a, b]
  rwa [sum, List.foldl_cons, Int64.zero_add] at given

/-- The product of two integers. -/
theorem comesTo_mul (a b : Int64) : mul.ComesTo [.int a, .int b] (.int (a * b)) := by
  have given := comesTo_product [a, b]
  rwa [product, List.foldl_cons, Int64.one_mul] at given

/-- An integer is among integers if its exact value is among theirs. -/
theorem mem_of_toInt_mem {value : Int64} {values : List Int64}
    (among : value.toInt ∈ values.map Int64.toInt) : value ∈ values :=
  (List.mem_map_of_injective fun _ _ same => Int64.toInt_inj.mp same).mp among

/-- If the product of the divisors fits, dividing by them in turn is dividing by it. -/
theorem quotient_eq_of_product {p divisor : Int64} {divisors : List Int64}
    (no_zero : 0 ∉ divisor :: divisors)
    (product_eq : p.toInt = ((divisor :: divisors).map Int64.toInt).prod)
    (fits : ¬ (a = .minValue ∧ -1 ∈ divisor :: divisors)) :
    quotient a (divisor :: divisors) = .ok (a / p) ∧ quotient a [p] = .ok (a / p) := by
  have product_ne : p ≠ 0 := by
    rintro rfl
    have some_zero := List.prod_eq_zero_iff.mp product_eq.symm
    exact no_zero (mem_of_toInt_mem some_zero)
  have product_fits : ¬ (a = .minValue ∧ p = -1) := by
    rintro ⟨least, rfl⟩
    have some_minus := neg_one_mem_of_prod product_eq.symm
    exact fits ⟨least, mem_of_toInt_mem some_minus⟩
  obtain ⟨result, divided, result_eq⟩ := divideAll_exact no_zero fits
  rw [← product_eq, ← toInt_div product_fits, Int64.toInt_inj] at result_eq
  subst result_eq
  exact ⟨divided, quotient_singleton a product_ne⟩

end Builtin

open Builtin

/-- Quotient and remainder of 64-bit integers fit together: the divisor times the quotient plus the
remainder is the dividend. The remainder is smaller than the divisor and has the sign of the
dividend, if any, and the quotient is truncated toward zero, except that the least integer divided
by -1 is itself. Dividing by several integers is dividing by their product if that fits, unless the
least integer meets a divisor -1, and a single integer is divided out of one, also if it is zero. -/
theorem division_fits_remainder :
    (∀ a b : Int64, b ≠ 0 → ∃ q r p : Int64,
      div.ComesTo [.int a, .int b] (.int q) ∧ rem.ComesTo [.int a, .int b] (.int r) ∧
      mul.ComesTo [.int b, .int q] (.int p) ∧ add.ComesTo [.int p, .int r] (.int a) ∧
      |r.toInt| < |b.toInt| ∧ (r.toInt = 0 ∨ r.toInt.sign = a.toInt.sign) ∧
      (¬ (a = .minValue ∧ b = -1) → q.toInt = a.toInt.tdiv b.toInt) ∧
      (a = .minValue → b = -1 → q = .minValue)) ∧
    (∀ (a p : Int64) (divisors : List Int64), divisors ≠ [] → 0 ∉ divisors →
      p.toInt = (divisors.map Int64.toInt).prod → ¬ (a = .minValue ∧ -1 ∈ divisors) →
      mul.ComesTo (divisors.map .int) (.int p) ∧
      ∃ q, div.ComesTo (.int a :: divisors.map .int) q ∧ div.ComesTo [.int a, .int p] q) ∧
    ∀ x : Int64, div.apply [.int x] = div.apply [.int 1, .int x] := by
  refine ⟨?_, ?_, ?_⟩
  · intro a b not_zero
    have divided : div.ComesTo [.int a, .int b] (.int (a / b)) :=
      comesTo_quotient (quotient_singleton a not_zero)
    have made_up := comesTo_add (b * (a / b)) (a % b)
    rw [mul_div_add_mod] at made_up
    refine ⟨a / b, a % b, b * (a / b), divided, comesTo_mod a not_zero, comesTo_mul b (a / b),
      made_up, abs_mod_lt not_zero, sign_mod a b, toInt_div, ?_⟩
    rintro rfl rfl
    exact Int64.minValue_div_neg_one
  · intro a p divisors some_divisor no_zero product_eq fits
    have product_residue := isResidue_product divisors
    rw [← product_eq] at product_residue
    have product_given := comesTo_product divisors
    rw [product_residue.unique (isResidue_toInt p)] at product_given
    obtain ⟨divisor, others, rfl⟩ := List.exists_cons_of_ne_nil some_divisor
    obtain ⟨in_turn, at_once⟩ := quotient_eq_of_product no_zero product_eq fits
    exact ⟨product_given, .int (a / p), comesTo_quotient in_turn, comesTo_quotient at_once⟩
  · intro x
    funext stamp
    have alone := apply_div x [] stamp
    rw [quotient_nil] at alone
    exact alone.trans (apply_div 1 [x] stamp).symm

/-- The least integer divided by -1 wraps, and it is divided by three integers of both signs in
turn. -/
theorem division_fits_remainder_of_least :
    ((-1 : Int64) ≠ 0 ∧ ∃ q r p : Int64,
      div.ComesTo [.int .minValue, .int (-1)] (.int q) ∧
      rem.ComesTo [.int .minValue, .int (-1)] (.int r) ∧
      mul.ComesTo [.int (-1), .int q] (.int p) ∧ add.ComesTo [.int p, .int r] (.int .minValue) ∧
      q = .minValue) ∧
    (∃ q, div.ComesTo [.int .minValue, .int (-2), .int 5, .int (-7)] q ∧
      div.ComesTo [.int .minValue, .int 70] q) := by
  have not_zero : (-1 : Int64) ≠ 0 := by decide
  obtain ⟨q, r, p, divided, left, multiplied, added, -, -, -, wraps⟩ :=
    division_fits_remainder.1 .minValue (-1) not_zero
  have in_turn := division_fits_remainder.2.1 .minValue 70 [-2, 5, -7] (by decide) (by decide)
    (by decide) (by decide)
  exact ⟨⟨not_zero, q, r, p, divided, left, multiplied, added, wraps rfl rfl⟩, in_turn.2⟩

end TailScheme
