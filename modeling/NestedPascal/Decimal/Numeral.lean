import NestedPascal.Decimal.Basic
import NestedPascal.Text.Blank

/-!
# Numerals

The free form in which a number is given as text: blanks around it do not count, nothing at all is
zero, whole numbers may be binary, octal or hexadecimal, a decimal number may lack the digits on one
side of its point, and infinity has a name.  What is none of these is no number.
-/

namespace NestedPascal.Numeral

/-- Digits, a point or none, more digits, an exponent or none, with a digit on some side of the
point. -/
def readDecimal? (negative : Bool) (cs : List Char) : Option Decimal :=
  let (whole, rest) := spanDigits cs
  let (fraction, rest) := match rest with
    | '.' :: r => spanDigits r
    | r => ([], r)
  if whole.isEmpty ∧ fraction.isEmpty then none
  else match rest with
    | [] => some (.ofParts negative whole fraction 0)
    | rest => match Decimal.readExponent? rest with
      | some (exponent, []) => some (.ofParts negative whole fraction exponent)
      | _ => none

def readSigned? (cs : List Char) : Option Binary64 :=
  let (negative, rest) := Decimal.splitSign cs
  if rest = "Infinity".toList then some (.infinity negative)
  else (readDecimal? negative rest).map Decimal.toBinary64

def read? (cs : List Char) : Option Binary64 :=
  match trimBlanks cs with
  | [] => some (.zero false)
  | '0' :: c :: rest =>
    if c = 'x' ∨ c = 'X' then (readInBase? 16 rest).map .ofNat
    else if c = 'o' ∨ c = 'O' then (readInBase? 8 rest).map .ofNat
    else if c = 'b' ∨ c = 'B' then (readInBase? 2 rest).map .ofNat
    else readSigned? ('0' :: c :: rest)
  | cs => readSigned? cs

end NestedPascal.Numeral
