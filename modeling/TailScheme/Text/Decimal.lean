/-!
# Decimal integers

The integers of the language are 64 bits wide. They are written in decimal with a minus sign
where needed, and a text of digits denotes one only if its value is in range: `ofInt?` refuses
the rest instead of wrapping.
-/
namespace TailScheme.Text

/-- The decimal text of an integer. -/
def intChars (n : Int64) : List Char :=
  match n.toInt with
  | .ofNat size => Nat.toDigits 10 size
  | .negSucc size => '-' :: Nat.toDigits 10 (size + 1)

/-- The natural number that decimal digits denote. -/
def ofDigits (digits : List Char) : Nat := Nat.ofDigitChars 10 digits 0

/-- The 64-bit integer of this value, if there is one. -/
def ofInt? (n : Int) : Option Int64 :=
  if Int64.minValue.toInt ≤ n ∧ n ≤ Int64.maxValue.toInt then some (Int64.ofInt n) else none

/-- The digits that write a number denote it. -/
theorem ofDigits_toDigits (n : Nat) : ofDigits (Nat.toDigits 10 n) = n :=
  Nat.ofDigitChars_toDigits (by decide) (by decide)

/-- Every 64-bit integer is in range. -/
theorem ofInt?_toInt (n : Int64) : ofInt? n.toInt = some n := by
  have low : Int64.minValue.toInt ≤ n.toInt := Int64.minValue_le_toInt n
  have high : n.toInt ≤ Int64.maxValue.toInt := Int64.toInt_le n
  rw [ofInt?, if_pos ⟨low, high⟩, Int64.ofInt_toInt]

end TailScheme.Text
