import NestedPascal.Binary64.Basic
import NestedPascal.Text.Digits

/-!
# Decimal numbers

A decimal number is a whole number of digits scaled by a power of ten.  Reading one as binary64 is
a single rounding of the exact value, so it depends on the number alone and not on how many digits
or which exponent it was written with.
-/

namespace NestedPascal

structure Decimal where
  negative : Bool
  digits : Nat
  exponent : Int
deriving DecidableEq, Repr

namespace Decimal

/-- The nearest binary64 number.  Exponents past ±400 are settled without the power of ten. -/
def toBinary64 (d : Decimal) : Binary64 :=
  if d.digits = 0 then .zero d.negative
  else if 400 < d.exponent then .infinity d.negative
  else if d.exponent < -(401 + (d.digits.log2 : Int)) then .zero d.negative
  else if 0 ≤ d.exponent then
    .ofQuotient d.negative (d.digits * Nat.pow 10 d.exponent.toNat * Binary64.one) 1
  else
    .ofQuotient d.negative (d.digits * Binary64.one) (Nat.pow 10 (-d.exponent).toNat)

/-- The number written with the given digits before and after the point. -/
def ofParts (negative : Bool) (whole fraction : List Char) (exponent : Int) : Decimal :=
  ⟨negative, decimalValue (whole ++ fraction), exponent - fraction.length⟩

/-- Whether a minus sign opens the text, and what follows the sign, if there is one. -/
def splitSign : List Char → Bool × List Char
  | '-' :: rest => (true, rest)
  | '+' :: rest => (false, rest)
  | rest => (false, rest)

theorem length_splitSign (cs : List Char) : (splitSign cs).2.length ≤ cs.length := by
  unfold splitSign
  split <;> simp

/-- An exponent part: a letter, a sign or none, and digits. -/
def readExponent? : List Char → Option (Int × List Char)
  | c :: rest =>
    if c = 'e' ∨ c = 'E' then
      let (negative, rest) := splitSign rest
      let (ds, rest) := spanDigits rest
      if ds.isEmpty then none
      else some (if negative then -(decimalValue ds : Int) else decimalValue ds, rest)
    else
      none
  | [] => none

theorem length_readExponent? {cs rest : List Char} {n : Int}
    (h : readExponent? cs = some (n, rest)) : rest.length < cs.length := by
  cases cs with
  | nil => simp [readExponent?] at h
  | cons c cs =>
    simp only [readExponent?] at h
    split at h
    · split at h
      · contradiction
      · simp only [Option.some.injEq, Prod.mk.injEq] at h
        have signed := length_splitSign cs
        have spanned := length_spanDigits (splitSign cs).2
        rw [h.2] at spanned
        simp only [List.length_cons]
        omega
    · contradiction

end Decimal

end NestedPascal
