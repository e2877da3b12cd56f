import NestedPascal.Binary64.Basic

/-!
# The interchange format of binary64 numbers

Sixty-four bits: the sign, eleven bits of exponent, fifty-two of significand.  Below 2⁻¹⁰²² the
exponent field is zero and the significand is the count of units itself; above, the leading bit of
the 53 is not written.
-/

namespace NestedPascal.Binary64

private def signBit (negative : Bool) : Nat :=
  if negative then Nat.pow 2 63 else 0

def toBits : Binary64 → Nat
  | .nan => 0x7FF8000000000000
  | .infinity negative => signBit negative + 0x7FF0000000000000
  | .finite negative units _ =>
    if units < Nat.pow 2 52 then signBit negative + units
    else
      let shift := units.log2 - 52
      signBit negative + shift * Nat.pow 2 52 + units / Nat.pow 2 shift

/-- The number that a word of 64 bits is. -/
def ofBits (bits : Nat) : Binary64 :=
  let negative := bits / Nat.pow 2 63 % 2 = 1
  let exponent := bits / Nat.pow 2 52 % Nat.pow 2 11
  let significand := bits % Nat.pow 2 52
  if exponent = 0x7FF then (if significand = 0 then .infinity negative else .nan)
  else if exponent = 0 then ofQuotient negative significand 1
  else ofQuotient negative ((Nat.pow 2 52 + significand) * Nat.pow 2 (exponent - 1)) 1

end NestedPascal.Binary64
