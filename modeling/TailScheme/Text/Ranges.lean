/-!
# Ranges of characters

A property of characters is tabulated as inclusive ranges of code points.
-/
namespace TailScheme.Text

/-- Whether a character lies in one of the ranges. -/
def inRanges (ranges : Array (Nat × Nat)) (c : Char) : Bool :=
  ranges.any fun (low, high) => low ≤ c.toNat && c.toNat ≤ high

end TailScheme.Text
