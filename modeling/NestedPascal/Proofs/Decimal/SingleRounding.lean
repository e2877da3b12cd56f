import Mathlib.Tactic.Ring
import NestedPascal.Decimal.Shortest
import NestedPascal.Proofs.Binary64.Rounding

/-!
# Decimals are rounded once

Reading a decimal as a binary64 number is a single rounding of its exact value, also where a far
exponent is settled without the power of ten.  So two decimals of the same value read as the same
number.
-/

namespace NestedPascal

namespace Binary64

/-- A quotient below one half is rounded to zero. -/
theorem ofQuotient_eq_zero (negative : Bool) {num den : Nat} (h : 2 * num < den) :
    ofQuotient negative num den = zero negative := by
  have hspacing : spacing num den = 0 := by
    simp [spacing, Nat.div_eq_of_lt (show num < den by omega)]
  have hnearest : nearest num den = 0 := by
    rw [nearest, hspacing]
    simp only [Nat.pow_eq, Nat.pow_zero, Nat.mul_one]
    exact roundQuotient_eq (e := num) (by omega) (by omega) h
  rw [zero, ofQuotient_of_lt hnearest]

/-- A quotient that is not below 2¹⁰²⁴ is infinite. -/
theorem ofQuotient_eq_infinity (negative : Bool) {num : Nat} (h : limit ≤ num) :
    ofQuotient negative num 1 = .infinity negative := by
  have hlimit : nearest limit 1 = limit := by
    apply nearest_of_dvd
    decide +kernel
  have hle : limit ≤ nearest num 1 := by
    calc limit = nearest limit 1 := hlimit.symm
      _ ≤ nearest num 1 := nearest_mono 1 h
  rw [ofQuotient, dif_neg (Nat.not_lt.mpr hle)]

end Binary64

namespace Decimal

/-- The value of a decimal in units, as a quotient. -/
def quotient (d : Decimal) : Nat × Nat :=
  (d.digits * Nat.pow 10 d.exponent.toNat * Binary64.one, Nat.pow 10 (-d.exponent).toNat)

theorem quotient_pos (d : Decimal) : 0 < d.quotient.2 :=
  Nat.pow_pos (by decide)

theorem two_mul_lt_pow {digits one k n : Nat} (hone : 0 < one) (hfits : 4 * one ≤ 10 ^ k)
    (hn : digits.log2 + k ≤ n) : 2 * (digits * one) < 10 ^ n := by
  have hdigits : digits < 2 ^ (digits.log2 + 1) := Nat.lt_log2_self
  calc 2 * (digits * one) < 2 * (2 ^ (digits.log2 + 1) * one) := by
        apply Nat.mul_lt_mul_of_pos_left _ (by decide)
        exact Nat.mul_lt_mul_of_pos_right hdigits hone
    _ = 2 ^ digits.log2 * (4 * one) := by ring
    _ ≤ 10 ^ digits.log2 * 10 ^ k := Nat.mul_le_mul (Nat.pow_le_pow_left (by decide) _) hfits
    _ = 10 ^ (digits.log2 + k) := (Nat.pow_add ..).symm
    _ ≤ 10 ^ n := Nat.pow_le_pow_right (by decide) hn

theorem le_mul_pow {digits one least k n : Nat} (hdigits : 0 < digits)
    (hleast : least ≤ 10 ^ k * one) (hn : k ≤ n) : least ≤ digits * 10 ^ n * one := by
  calc least ≤ 10 ^ k * one := hleast
    _ ≤ 10 ^ n * one := Nat.mul_le_mul_right _ (Nat.pow_le_pow_right (by decide) hn)
    _ ≤ digits * 10 ^ n * one := Nat.mul_le_mul_right _ (Nat.le_mul_of_pos_left _ hdigits)

/-- A decimal is read by one rounding of its value. -/
theorem toBinary64_eq (d : Decimal) :
    d.toBinary64 = .ofQuotient d.negative d.quotient.1 d.quotient.2 := by
  obtain ⟨negative, digits, exponent⟩ := d
  simp only [toBinary64, quotient]
  by_cases hzero : digits = 0
  · rw [if_pos hzero, hzero, Nat.zero_mul, Nat.zero_mul]
    exact (Binary64.ofQuotient_eq_zero negative (Nat.pow_pos (by decide))).symm
  rw [if_neg hzero]
  by_cases hhuge : 400 < exponent
  · have hlimit : Binary64.limit ≤ digits * 10 ^ exponent.toNat * Binary64.one :=
      le_mul_pow (k := 401) (by omega) (by decide +kernel) (by omega)
    have hden : (-exponent).toNat = 0 := by omega
    rw [if_pos hhuge, hden]
    exact (Binary64.ofQuotient_eq_infinity negative hlimit).symm
  rw [if_neg hhuge]
  by_cases htiny : exponent < -(401 + (digits.log2 : Int))
  · have hnum : exponent.toNat = 0 := by omega
    have hhalf : 2 * (digits * Binary64.one) < 10 ^ (-exponent).toNat :=
      two_mul_lt_pow (k := 401) Binary64.one_pos (by decide +kernel) (by omega)
    rw [if_pos htiny, hnum]
    simp only [Nat.pow_eq, Nat.pow_zero, Nat.mul_one]
    exact (Binary64.ofQuotient_eq_zero negative hhalf).symm
  rw [if_neg htiny]
  by_cases hwhole : 0 ≤ exponent
  · have hden : (-exponent).toNat = 0 := by omega
    rw [if_pos hwhole, hden]
  · have hnum : exponent.toNat = 0 := by omega
    rw [if_neg hwhole, hnum]
    simp only [Nat.pow_eq, Nat.pow_zero, Nat.mul_one]

/-- Zeros at the end of the digits do not count. -/
theorem toBinary64_mul_pow (negative : Bool) (digits zeros : Nat) (exponent : Int) :
    (Decimal.mk negative (digits * 10 ^ zeros) exponent).toBinary64 =
      (Decimal.mk negative digits (exponent + zeros)).toBinary64 := by
  rw [toBinary64_eq, toBinary64_eq]
  apply Binary64.ofQuotient_congr negative (quotient_pos _) (quotient_pos _)
  simp only [quotient, Nat.pow_eq]
  have hexponents : zeros + exponent.toNat + (-(exponent + zeros)).toNat =
      (exponent + zeros).toNat + (-exponent).toNat := by omega
  calc digits * 10 ^ zeros * 10 ^ exponent.toNat * Binary64.one * 10 ^ (-(exponent + zeros)).toNat
      = digits * 10 ^ (zeros + exponent.toNat + (-(exponent + zeros)).toNat) * Binary64.one := by
        rw [Nat.pow_add, Nat.pow_add]
        ring
    _ = digits * 10 ^ (exponent + zeros).toNat * Binary64.one * 10 ^ (-exponent).toNat := by
        rw [hexponents, Nat.pow_add]
        ring

/-- The sign has no part in the rounding. -/
theorem ReadsBack.with_sign {units digits : Nat} {exponent : Int}
    (h : ReadsBack units ⟨false, digits, exponent⟩) (hgrid : Binary64.OnGrid units)
    (negative : Bool) :
    (Decimal.mk negative digits exponent).toBinary64 = .finite negative units hgrid := by
  obtain ⟨_, heq⟩ := h
  rw [toBinary64_eq] at heq ⊢
  change Binary64.ofQuotient negative (Decimal.mk false digits exponent).quotient.1
    (Decimal.mk false digits exponent).quotient.2 = _
  apply Binary64.ofQuotient_of_lt
  unfold Binary64.ofQuotient at heq
  split at heq
  next => exact (Binary64.finite.inj heq).2
  next => contradiction

end Decimal

end NestedPascal
