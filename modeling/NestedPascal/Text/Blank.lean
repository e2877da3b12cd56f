/-!
# Blank characters

One class serves the gaps between tokens, the test for an empty line and the trimming of a numeral:
the ASCII blanks, the other space separators, the two line separators and the zero-width
no-break space.  All of its members lie in the basic plane.
-/

namespace NestedPascal

def isBlank (c : Char) : Bool :=
  let n := c.toNat
  (9 ≤ n && n ≤ 13) || n == 0x20 || n == 0xA0 || n == 0x1680 || (0x2000 ≤ n && n ≤ 0x200A) ||
    n == 0x2028 || n == 0x2029 || n == 0x202F || n == 0x205F || n == 0x3000 || n == 0xFEFF

/-- Drops the blanks at both ends. -/
def trimBlanks (cs : List Char) : List Char :=
  ((cs.dropWhile isBlank).reverse.dropWhile isBlank).reverse

end NestedPascal
