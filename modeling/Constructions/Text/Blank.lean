/-
# White space

The characters with the property `White_Space`, as ranges of code points.  They
are dropped from the end of a line before it is shown.
-/

import Constructions.Text.Ranges

namespace Constructions
namespace Text

/-- The ranges of white space. -/
def blankRanges : List (Nat × Nat) :=
  [(0x9, 0xD), (0x20, 0x20), (0x85, 0x85), (0xA0, 0xA0), (0x1680, 0x1680), (0x2000, 0x200A),
   (0x2028, 0x2029), (0x202F, 0x202F), (0x205F, 0x205F), (0x3000, 0x3000)]

/-- Is a character white space? -/
def isBlank (c : Char) : Bool := inRanges blankRanges c

/-- A line without the white space at its end. -/
def trimEnd (cs : List Char) : List Char := (cs.reverse.dropWhile isBlank).reverse

end Text
end Constructions
