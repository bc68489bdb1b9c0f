import TailScheme.Proofs.Arithmetic

/-!
# Comparisons of whole lists

A comparison looks at neighbours only. The five relations are transitive (`Compares.trans`), so what
holds between all neighbours holds between every earlier and every later integer
(`chained_iff_isChain`, `Compares.isChain_iff_pairwise`). A chain that is cut at one of its links is
a chain if both parts are, with the link in both of them.
-/
namespace TailScheme

namespace Builtin

/-- The builtin compares integers by the relation. -/
inductive Compares : Builtin → (Int → Int → Prop) → Prop where
  | eq : Compares .eq (· = ·)
  | lt : Compares .lt (· < ·)
  | le : Compares .le (· ≤ ·)
  | gt : Compares .gt (· > ·)
  | ge : Compares .ge (· ≥ ·)

/-- The relation holds between the integers that two words stand for. -/
def OnWords (related : Int → Int → Prop) (a b : Int64) : Prop := related a.toInt b.toInt

section

variable {builtin : Builtin} {related : Int → Int → Prop}

/-- The relations of all comparisons are transitive. -/
theorem Compares.trans (compares : builtin.Compares related) {a b c : Int} (first : related a b)
    (second : related b c) : related a c := by
  cases compares with
  | eq => exact Eq.trans first second
  | lt => exact Int.lt_trans first second
  | le => exact Int.le_trans first second
  | gt => exact Int.lt_trans second first
  | ge => exact Int.le_trans second first

/-- A test of neighbours holds of all neighbours if they make a chain. -/
theorem chained_iff_isChain {test : Int64 → Int64 → Bool}
    (decides : ∀ a b, test a b = true ↔ OnWords related a b) (values : List Int64) :
    chained test values = true ↔ values.IsChain (OnWords related) := by
  induction values with
  | nil => simp [chained]
  | cons first rest ih =>
    cases rest with
    | nil => simp [chained]
    | cons second rest => rw [chained, Bool.and_eq_true, decides, ih, List.isChain_cons_cons]

/-- A builtin that computes whether neighbours pass a test gives that for one integer and more. -/
theorem comesTo_chained {test : Int64 → Int64 → Bool} (takes_one : builtin.arity = .atLeast 1)
    (computes : builtin.compute = fun args => do
      return .bool (chained test (← integers builtin args)))
    {values : List Int64} (some_value : values ≠ []) :
    builtin.ComesTo (values.map .int) (.bool (chained test values)) := by
  have positive := List.length_pos_of_ne_nil some_value
  have fits : builtin.arity.accepts values.length = true := by
    rw [takes_one]
    exact decide_eq_true positive
  exact .of_integers computes fits fun _ => rfl

/-- A comparison gives whether the neighbours pass a test for its relation. -/
theorem Compares.exists_test (compares : builtin.Compares related) :
    ∃ test : Int64 → Int64 → Bool, (∀ a b, test a b = true ↔ OnWords related a b) ∧
      ∀ {values}, values ≠ [] →
        builtin.ComesTo (values.map .int) (.bool (chained test values)) := by
  cases compares with
  | eq =>
    refine ⟨(· == ·), fun a b => ?_, comesTo_chained rfl rfl⟩
    rw [beq_iff_eq, OnWords, Int64.toInt_inj]
  | lt =>
    refine ⟨fun a b => decide (a < b), fun a b => ?_, comesTo_chained rfl rfl⟩
    rw [decide_eq_true_iff, OnWords, Int64.lt_iff_toInt_lt]
  | le =>
    refine ⟨fun a b => decide (a ≤ b), fun a b => ?_, comesTo_chained rfl rfl⟩
    rw [decide_eq_true_iff, OnWords, Int64.le_iff_toInt_le]
  | gt =>
    refine ⟨fun a b => decide (b < a), fun a b => ?_, comesTo_chained rfl rfl⟩
    rw [decide_eq_true_iff, OnWords, Int64.lt_iff_toInt_lt]
  | ge =>
    refine ⟨fun a b => decide (b ≤ a), fun a b => ?_, comesTo_chained rfl rfl⟩
    rw [decide_eq_true_iff, OnWords, Int64.le_iff_toInt_le]

/-- A comparison gives whether the relation holds between all neighbours. -/
theorem Compares.comesTo_isChain (compares : builtin.Compares related) {values : List Int64}
    (some_value : values ≠ []) : ∃ holds : Bool,
      builtin.ComesTo (values.map .int) (.bool holds) ∧
      (holds = true ↔ values.IsChain (OnWords related)) := by
  obtain ⟨test, decides, gives⟩ := compares.exists_test
  exact ⟨chained test values, gives some_value, chained_iff_isChain decides values⟩

/-- What holds between all neighbours holds between every earlier and every later integer. -/
theorem Compares.isChain_iff_pairwise (compares : builtin.Compares related)
    (values : List Int64) :
    values.IsChain (OnWords related) ↔ values.Pairwise (OnWords related) := by
  have : Trans (OnWords related) (OnWords related) (OnWords related) :=
    ⟨fun first second => compares.trans first second⟩
  exact List.isChain_iff_pairwise

/-- A comparison of a list is another comparison of the reversed list, if the one relation is the
other one read backward. -/
theorem Compares.comesTo_reverse {other : Builtin} {backward : Int → Int → Prop}
    (compares : builtin.Compares related) (others : other.Compares backward)
    (reads_backward : ∀ a b, backward a b ↔ related b a) {values : List Int64}
    (some_value : values ≠ []) :
    ∃ value, builtin.ComesTo (values.map .int) value ∧
      other.ComesTo (values.reverse.map .int) value := by
  obtain ⟨holds, gives, holds_iff⟩ := compares.comesTo_isChain some_value
  obtain ⟨reversed, others_give, reversed_iff⟩ :=
    others.comesTo_isChain (List.reverse_ne_nil_iff.mpr some_value)
  have backward_eq : (fun a b => OnWords backward b a) = OnWords related := by
    funext a b
    exact propext (reads_backward b.toInt a.toInt)
  have same : reversed = holds := by
    rw [Bool.eq_iff_iff, reversed_iff, holds_iff, List.isChain_reverse, backward_eq]
  exact ⟨.bool holds, gives, same ▸ others_give⟩

end

end Builtin

open Builtin

/-- A comparison holds of a list of 64-bit integers if its relation holds between every earlier and
every later one. It does so if it holds of both parts of the list that share an element at which the
list is cut. To compare from the greater to the smaller is to compare the reversed list from the
smaller to the greater. -/
theorem comparisons_relate_all {values : List Int64} (some_value : values ≠ []) :
    (∀ builtin related, Compares builtin related →
      ∃ holds : Bool, builtin.ComesTo (values.map .int) (.bool holds) ∧
        (holds = true ↔ values.Pairwise fun earlier later => related earlier.toInt later.toInt) ∧
        ∀ front seam back, values = front ++ seam :: back → ∃ first second : Bool,
          builtin.ComesTo ((front ++ [seam]).map .int) (.bool first) ∧
          builtin.ComesTo ((seam :: back).map .int) (.bool second) ∧
          holds = (first && second)) ∧
    (∃ value, gt.ComesTo (values.map .int) value ∧ lt.ComesTo (values.reverse.map .int) value) ∧
    ∃ value, ge.ComesTo (values.map .int) value ∧ le.ComesTo (values.reverse.map .int) value := by
  refine ⟨?_, Compares.gt.comesTo_reverse .lt (fun _ _ => Iff.rfl) some_value,
    Compares.ge.comesTo_reverse .le (fun _ _ => Iff.rfl) some_value⟩
  intro builtin related compares
  obtain ⟨holds, gives, holds_iff⟩ := compares.comesTo_isChain some_value
  refine ⟨holds, gives, holds_iff.trans (compares.isChain_iff_pairwise values), ?_⟩
  rintro front seam back rfl
  obtain ⟨first, first_gives, first_iff⟩ :=
    compares.comesTo_isChain (List.append_ne_nil_of_right_ne_nil front (List.cons_ne_nil seam []))
  obtain ⟨second, second_gives, second_iff⟩ := compares.comesTo_isChain (List.cons_ne_nil seam back)
  refine ⟨first, second, first_gives, second_gives, ?_⟩
  rw [Bool.eq_iff_iff, Bool.and_eq_true, holds_iff, first_iff, second_iff, List.isChain_split]

/-- Integers from the least to the greatest, one of them twice: they do not fall, they do not rise
either, and so they do not up to the one that stands twice or from there on. -/
theorem comparisons_relate_all_of_repeated :
    let values : List Int64 := [.minValue, -1, -1, .maxValue]
    values ≠ [] ∧ Compares le (· ≤ ·) ∧ Compares lt (· < ·) ∧
      values = [.minValue, -1] ++ -1 :: [.maxValue] ∧
      le.ComesTo (values.map .int) (.bool true) ∧
      ∃ first second : Bool, lt.ComesTo (values.map .int) (.bool (first && second)) ∧
        lt.ComesTo ([Int64.minValue, -1, -1].map .int) (.bool first) ∧
        lt.ComesTo ([-1, Int64.maxValue].map .int) (.bool second) ∧ (first && second) = false := by
  intro values
  have some_value : values ≠ [] := List.cons_ne_nil _ _
  have whole := comparisons_relate_all some_value
  obtain ⟨not_falling, le_gives, le_iff, -⟩ := whole.1 le _ .le
  obtain ⟨rising, lt_gives, lt_iff, parts⟩ := whole.1 lt _ .lt
  obtain ⟨first, second, first_gives, second_gives, both⟩ :=
    parts [.minValue, -1] (-1) [.maxValue] rfl
  have le_holds : not_falling = true := le_iff.mpr (by decide)
  have not_rising : ¬ rising = true := fun holds => absurd (lt_iff.mp holds) (by decide)
  have lt_fails : rising = false := Bool.eq_false_iff.mpr not_rising
  subst le_holds both
  exact ⟨some_value, .le, .lt, rfl, le_gives, first, second, lt_gives, first_gives, second_gives,
    lt_fails⟩

end TailScheme
