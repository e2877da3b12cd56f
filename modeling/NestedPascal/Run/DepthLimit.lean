import NestedPascal.Binary64.Basic

/-!
# The limit on the depth of the stack

A call is refused when as many frames are on the stack as the limit says, or more.  The limit may be
any number, so what counts is how many frames make a stack full.
-/

namespace NestedPascal

structure DepthLimit where
  number : Binary64
deriving DecidableEq

namespace DepthLimit

def ofInt (n : Int) : DepthLimit :=
  ⟨.ofInt n⟩

/-- The least number of frames that is not below the limit.  Where no number is, it is the power of
two above all finite numbers. -/
def frames (l : DepthLimit) : Nat :=
  match l.number with
  | .finite true .. | .infinity true => 0
  | .finite false units _ => (units + (Binary64.one - 1)) / Binary64.one
  | .infinity false | .nan => Nat.pow 2 1024

/-- How many more frames may be pushed onto the frame of the program. -/
def calls (l : DepthLimit) : Nat :=
  l.frames - 1

end DepthLimit

end NestedPascal
