/-
# Ranges of code points

Properties of characters are kept as lists of ranges, each with its first and its
last code point, in ascending order.
-/

namespace Constructions
namespace Text

/-- Does a character lie in one of the ranges? -/
def inRanges (ranges : List (Nat × Nat)) (c : Char) : Bool :=
  ranges.any fun r => r.1 ≤ c.toNat && c.toNat ≤ r.2

end Text
end Constructions
