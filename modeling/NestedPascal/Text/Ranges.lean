/-!
# Classes of characters

A class of characters is given by ranges of code points, both ends included.
-/

namespace NestedPascal

def inRanges (ranges : List (Nat × Nat)) (c : Char) : Bool :=
  ranges.any fun r => r.1 ≤ c.toNat && c.toNat ≤ r.2

end NestedPascal
