import NestedPascal.Decimal.Basic

/-!
# The shortest decimal that reads back

Of the decimals that round to a given number, the shortest one has the fewest digits, and among
those it is the nearest to the number.  For each count of digits there is a grid of decimals of that
many digits around the number, and if any point of that grid reads back, so does one of the two
points next to the number.
-/

namespace NestedPascal.Decimal

def digitCount (n : Nat) : Nat :=
  (Nat.toDigits 10 n).length

/-- The exponent n for which the number lies in [10ⁿ⁻¹, 10ⁿ). -/
def magnitude (units : Nat) : Int :=
  if Binary64.one ≤ units then
    digitCount (units / Binary64.one)
  else
    let places := digitCount (Binary64.one / units)
    if units * Nat.pow 10 (places - 1) = Binary64.one then 2 - (places : Int) else 1 - (places : Int)

/-- A number as a quotient in steps of a power of ten. -/
def scaled (units : Nat) (exponent : Int) : Nat × Nat :=
  if 0 ≤ exponent then (units, Binary64.one * Nat.pow 10 exponent.toNat)
  else (units * Nat.pow 10 (-exponent).toNat, Binary64.one)

/-- Whether a positive decimal rounds to the given count of units. -/
def ReadsBack (units : Nat) (d : Decimal) : Prop :=
  ∃ h, d.toBinary64 = .finite false units h

def readsBack (units : Nat) (d : Decimal) : Bool :=
  match d.toBinary64 with
  | .finite false u _ => u == units
  | _ => false

theorem readsBack_iff {units : Nat} {d : Decimal} :
    readsBack units d = true ↔ ReadsBack units d := by
  unfold readsBack ReadsBack
  constructor
  · intro h
    split at h
    · rename_i u hu heq
      have : u = units := by simpa using h
      subst this
      exact ⟨hu, heq⟩
    · contradiction
  · rintro ⟨h, heq⟩
    simp [heq]

/-- The decimal with a given exponent that is nearest to a number, if it reads back.  Halfway
between two that both do it is the even one. -/
def nearestAt? (units : Nat) (exponent : Int) : Option Decimal :=
  let (num, den) := scaled units exponent
  let below : Decimal := ⟨false, num / den, exponent⟩
  let above : Decimal := ⟨false, num / den + 1, exponent⟩
  match readsBack units below, readsBack units above with
  | true, true =>
    let r := num % den
    some (if 2 * r < den ∨ (2 * r = den ∧ num / den % 2 = 0) then below else above)
  | true, false => some below
  | false, true => some above
  | false, false => none

/-- Tries the grids of more and more digits, from the given exponent downward. -/
def shortestFrom (units : Nat) : Nat → Int → Decimal
  | 0, exponent =>
    let (num, den) := scaled units exponent
    ⟨false, Binary64.roundQuotient num den, exponent⟩
  | more + 1, exponent =>
    (nearestAt? units exponent).getD (shortestFrom units more (exponent - 1))

/-- The shortest decimal of a positive count of units.  Seventeen digits always suffice. -/
def shortest (units : Nat) : Decimal :=
  shortestFrom units 17 (magnitude units - 1)

end NestedPascal.Decimal
