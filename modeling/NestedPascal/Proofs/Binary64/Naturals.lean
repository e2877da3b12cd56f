import NestedPascal.Proofs.Binary64.Rounding
import NestedPascal.Proofs.Value.Range

/-!
# Natural numbers as binary64 numbers

A natural number becomes the nearest binary64 number.  Rounding keeps order, though it may make equal
what was different, so of several numbers the greatest can be found after rounding.
-/

namespace NestedPascal.Binary64

theorem ofNat_eq (n : Nat) : ofNat n = ofQuotient false (n * one) 1 := by
  have hsign : decide ((n : Int) < 0) = false := decide_eq_false (by omega)
  rw [ofNat, ofInt, hsign, Int.natAbs_natCast]

theorem isFinite_ofQuotient_iff {negative : Bool} {num den : Nat} :
    (ofQuotient negative num den).isFinite = true ↔ nearest num den < limit := by
  rw [ofQuotient]
  split
  next h => simpa [isFinite] using h
  next h => simpa [isFinite] using h

theorem nearest_natural_mono {m n : Nat} (h : m ≤ n) :
    nearest (m * one) 1 ≤ nearest (n * one) 1 :=
  nearest_mono 1 (Nat.mul_le_mul_right _ h)

theorem isFinite_ofNat_mono {m n : Nat} (h : m ≤ n) (hn : (ofNat n).isFinite = true) :
    (ofNat m).isFinite = true := by
  rw [ofNat_eq, isFinite_ofQuotient_iff] at hn ⊢
  exact Nat.lt_of_le_of_lt (nearest_natural_mono h) hn

/-- The integer that a binary64 number is does not become infinite again. -/
theorem isFinite_ofNat_of_toInt? {x : Binary64} {n : Int} (h : x.toInt? = some n) :
    (ofNat n.toNat).isFinite = true := by
  cases x with
  | nan => simp [toInt?] at h
  | infinity negative => simp [toInt?] at h
  | finite negative units hgrid =>
      simp only [toInt?, Option.ite_none_right_eq_some, Option.some.injEq] at h
      obtain ⟨hwhole, rfl⟩ := h
      have hunits : (ofNat (units / one)).isFinite = true := by
        rw [ofNat_eq, isFinite_ofQuotient_iff, Nat.div_mul_cancel (Nat.dvd_of_mod_eq_zero hwhole),
          nearest_of_dvd hgrid.2]
        exact hgrid.1
      apply isFinite_ofNat_mono _ hunits
      cases negative with
      | true =>
          have hquotient := Int.natCast_nonneg (units / one)
          exact Int.toNat_le.mpr (by simp only [if_true]; omega)
      | false => exact Int.toNat_le.mpr (Int.le_refl _)

theorem lt_ofNat {m n : Nat} (hm : (ofNat m).isFinite = true) (hn : (ofNat n).isFinite = true) :
    (ofNat m).lt (ofNat n) = decide (nearest (m * one) 1 < nearest (n * one) 1) := by
  rw [ofNat_eq, isFinite_ofQuotient_iff] at hm hn
  rw [ofNat_eq, ofNat_eq, ofQuotient, ofQuotient, dif_pos hm, dif_pos hn]
  simp [lt]

theorem ofNat_congr {m n : Nat} (h : nearest (m * one) 1 = nearest (n * one) 1) :
    ofNat m = ofNat n := by
  rw [ofNat_eq, ofNat_eq, ofQuotient, ofQuotient]
  simp only [h]

/-- The greater of two natural numbers, found after rounding. -/
theorem greater_ofNat {m n : Nat} (hm : (ofNat m).isFinite = true)
    (hn : (ofNat n).isFinite = true) :
    (if (ofNat m).lt (ofNat n) then ofNat n else ofNat m) = ofNat (max m n) := by
  rw [lt_ofNat hm hn]
  rcases Nat.le_total m n with hle | hle
  · rw [Nat.max_eq_right hle]
    split
    next => rfl
    next hnot =>
      have hrounded := nearest_natural_mono hle
      exact ofNat_congr (Nat.le_antisymm hrounded (by simpa using hnot))
  · have hnot := Nat.not_lt.mpr (nearest_natural_mono hle)
    rw [Nat.max_eq_left hle, if_neg (by simpa using hnot)]

end NestedPascal.Binary64
