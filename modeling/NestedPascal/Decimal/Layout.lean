import NestedPascal.Decimal.Shortest

/-!
# The text of a number

A number is written with the digits of its shortest decimal: positionally while the point stays
close to them, otherwise as one digit, the remaining ones after a point, and an exponent with its
sign.
-/

namespace NestedPascal

/-- Where the point may stand in positional notation, counted in places after the first digit's
left edge. -/
structure NumberLayout where
  leastPoint : Int
  greatestPoint : Int

/-- Numbers from 10⁻⁶ up to 10²¹ are written positionally. -/
def numberLayout : NumberLayout := ⟨-5, 21⟩

/-- Writes digits with the point after the given place. -/
def NumberLayout.write (layout : NumberLayout) (digits : List Char) (point : Int) : String :=
  let count : Int := digits.length
  if layout.leastPoint ≤ point ∧ point ≤ layout.greatestPoint then
    if count ≤ point then
      String.ofList (digits ++ List.replicate (point - count).toNat '0')
    else if 0 < point then
      String.ofList (digits.take point.toNat ++ '.' :: digits.drop point.toNat)
    else
      String.ofList ('0' :: '.' :: List.replicate (-point).toNat '0' ++ digits)
  else
    let exponent := point - 1
    let mantissa := match digits with
      | [] => []
      | [d] => [d]
      | d :: rest => d :: '.' :: rest
    let sign := if exponent < 0 then '-' else '+'
    String.ofList (mantissa ++ 'e' :: sign :: Nat.toDigits 10 exponent.natAbs)

/-- The text of a decimal: its digits without the zeros at their end. -/
def Decimal.write (layout : NumberLayout) (d : Decimal) : String :=
  let all := Nat.toDigits 10 d.digits
  let digits := (all.reverse.dropWhile (· == '0')).reverse
  layout.write digits (all.length + d.exponent)

/-- The text of a number; zero has no sign. -/
def Binary64.text : Binary64 → String
  | .nan => "NaN"
  | .infinity negative => if negative then "-Infinity" else "Infinity"
  | .finite negative units _ =>
    if units = 0 then "0"
    else (if negative then "-" else "") ++ (Decimal.shortest units).write numberLayout

end NestedPascal
