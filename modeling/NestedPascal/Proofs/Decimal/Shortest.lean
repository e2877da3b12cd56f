import NestedPascal.Proofs.Decimal.SingleRounding

/-!
# The shortest decimal reads back

Eighteen digits tell every number apart, so the search for the shortest decimal that reads back as a
given number always ends with one that does.
-/

namespace NestedPascal.Decimal

theorem digitCount_spec {n : Nat} (hn : n ≠ 0) :
    0 < digitCount n ∧ 10 ^ (digitCount n - 1) ≤ n ∧ n < 10 ^ digitCount n := by
  induction n using Nat.strong_induction_on with
  | _ n ih =>
      rw [digitCount, Nat.toDigits_eq_if (by decide)]
      by_cases hsmall : n < 10
      · rw [if_pos hsmall]
        simp only [List.length_singleton]
        omega
      · have hquotient : n / 10 ≠ 0 := by omega
        obtain ⟨hpositive, hlower, hupper⟩ := ih (n / 10) (by omega) hquotient
        rw [digitCount] at hpositive hlower hupper
        rw [if_neg hsmall]
        simp only [List.length_append, List.length_singleton, Nat.add_sub_cancel]
        refine ⟨by omega, ?_, ?_⟩
        · obtain ⟨k, hk⟩ := Nat.exists_eq_succ_of_ne_zero (Nat.ne_of_gt hpositive)
          rw [hk] at hlower ⊢
          simp only [Nat.succ_eq_add_one, Nat.add_sub_cancel] at hlower
          rw [Nat.succ_eq_add_one, Nat.pow_succ]
          omega
        · rw [Nat.pow_succ]
          omega

theorem scaled_eq (units : Nat) (exponent : Int) :
    scaled units exponent =
      (units * 10 ^ (-exponent).toNat, Binary64.one * 10 ^ exponent.toNat) := by
  unfold scaled
  by_cases hwhole : 0 ≤ exponent
  · have hzero : (-exponent).toNat = 0 := by omega
    rw [if_pos hwhole, hzero, Nat.pow_zero, Nat.mul_one]
    rfl
  · have hzero : exponent.toNat = 0 := by omega
    rw [if_neg hwhole, hzero, Nat.pow_zero, Nat.mul_one]
    rfl

/-- The magnitude of a number that is given as a quotient: ten to it is not far above the number. -/
theorem magnitude_spec {units : Nat} (hunits : units ≠ 0) :
    Binary64.one * 10 ^ (magnitude units - 1).toNat ≤ units * 10 ^ (1 - magnitude units).toNat := by
  unfold magnitude
  by_cases hlarge : Binary64.one ≤ units
  · have hquotient : units / Binary64.one ≠ 0 :=
      Nat.ne_of_gt (Nat.div_pos hlarge Binary64.one_pos)
    obtain ⟨hpositive, hlower, -⟩ := digitCount_spec hquotient
    rw [if_pos hlarge]
    generalize digitCount (units / Binary64.one) = count at *
    have hup : ((count : Int) - 1).toNat = count - 1 := by omega
    have hdown : (1 - (count : Int)).toNat = 0 := by omega
    rw [hup, hdown, Nat.pow_zero, Nat.mul_one]
    calc Binary64.one * 10 ^ (count - 1) ≤ Binary64.one * (units / Binary64.one) :=
          Nat.mul_le_mul_left _ hlower
      _ ≤ units := Nat.mul_div_le ..
  · have hquotient : Binary64.one / units ≠ 0 :=
      Nat.ne_of_gt (Nat.div_pos (by omega) (Nat.pos_of_ne_zero hunits))
    obtain ⟨hpositive, -, hupper⟩ := digitCount_spec hquotient
    rw [if_neg hlarge]
    generalize digitCount (Binary64.one / units) = places at *
    have hlt : Binary64.one < units * 10 ^ places := by
      rw [Nat.mul_comm]
      exact (Nat.div_lt_iff_lt_mul (Nat.pos_of_ne_zero hunits)).mp hupper
    by_cases hpower : units * Nat.pow 10 (places - 1) = Binary64.one
    · have hup : (2 - (places : Int) - 1).toNat = 0 := by omega
      have hdown : (1 - (2 - (places : Int))).toNat = places - 1 := by omega
      simp only [if_pos hpower, hup, hdown, Nat.pow_zero, Nat.mul_one]
      exact Nat.le_of_eq hpower.symm
    · have hup : (1 - (places : Int) - 1).toNat = 0 := by omega
      have hdown : (1 - (1 - (places : Int))).toNat = places := by omega
      simp only [if_neg hpower, hup, hdown, Nat.pow_zero, Nat.mul_one]
      exact Nat.le_of_lt hlt

/-- With seventeen places below its magnitude, a number has at least eighteen digits. -/
theorem le_scaled_magnitude {units : Nat} (hunits : units ≠ 0) :
    10 ^ 17 * (scaled units (magnitude units - 18)).2 ≤ (scaled units (magnitude units - 18)).1 := by
  have hspec := magnitude_spec hunits
  rw [scaled_eq]
  generalize magnitude units = n at *
  have hexponents : 17 + (n - 18).toNat + (1 - n).toNat = (n - 1).toNat + (-(n - 18)).toNat := by
    omega
  apply Nat.le_of_mul_le_mul_right _ (Nat.pow_pos (n := (1 - n).toNat) (show 0 < 10 by decide))
  calc 10 ^ 17 * (Binary64.one * 10 ^ (n - 18).toNat) * 10 ^ (1 - n).toNat
      = Binary64.one * 10 ^ (17 + (n - 18).toNat + (1 - n).toNat) := by
        rw [Nat.pow_add, Nat.pow_add]
        ring
    _ = Binary64.one * 10 ^ (n - 1).toNat * 10 ^ (-(n - 18)).toNat := by
        rw [hexponents, Nat.pow_add, Nat.mul_assoc]
    _ ≤ units * 10 ^ (1 - n).toNat * 10 ^ (-(n - 18)).toNat := Nat.mul_le_mul_right _ hspec
    _ = units * 10 ^ (-(n - 18)).toNat * 10 ^ (1 - n).toNat := Nat.mul_right_comm ..

theorem nearestAt?_readsBack {units : Nat} {exponent : Int} {d : Decimal}
    (h : nearestAt? units exponent = some d) : d.negative = false ∧ ReadsBack units d := by
  simp only [nearestAt?] at h
  split at h
  next hbelow habove =>
    split at h
    next =>
      cases h
      exact ⟨rfl, readsBack_iff.mp hbelow⟩
    next =>
      cases h
      exact ⟨rfl, readsBack_iff.mp habove⟩
  next hbelow _ =>
    cases h
    exact ⟨rfl, readsBack_iff.mp hbelow⟩
  next _ habove =>
    cases h
    exact ⟨rfl, readsBack_iff.mp habove⟩
  next => contradiction

theorem shortestFrom_readsBack {units : Nat} (tries : Nat) (exponent : Int)
    (h : ReadsBack units (shortestFrom units 0 (exponent - tries))) :
    (shortestFrom units tries exponent).negative = false ∧
      ReadsBack units (shortestFrom units tries exponent) := by
  induction tries generalizing exponent with
  | zero =>
      rw [Int.natCast_zero, Int.sub_zero] at h
      exact ⟨rfl, h⟩
  | succ tries ih =>
      rw [shortestFrom]
      cases hnearest : nearestAt? units exponent with
      | some d => exact nearestAt?_readsBack hnearest
      | none =>
          have hexponent : exponent - (tries + 1 : Nat) = exponent - 1 - tries := by omega
          rw [hexponent] at h
          exact ih (exponent - 1) h

/-- The nearest decimal of at least eighteen digits reads back. -/
theorem readsBack_of_le {units : Nat} {exponent : Int} (hgrid : Binary64.OnGrid units)
    (hdigits : 10 ^ 17 * (scaled units exponent).2 ≤ (scaled units exponent).1) :
    ReadsBack units (shortestFrom units 0 exponent) := by
  have hden : 0 < (scaled units exponent).2 := by
    rw [scaled_eq]
    exact Nat.mul_pos Binary64.one_pos (Nat.pow_pos (by decide))
  have hdistance := Binary64.roundQuotient_distance (scaled units exponent).1 hden
  refine ⟨hgrid, ?_⟩
  rw [toBinary64_eq]
  apply Binary64.ofQuotient_of_lt
  have hnum : (shortestFrom units 0 exponent).quotient.1 =
      Binary64.roundQuotient (scaled units exponent).1 (scaled units exponent).2 *
        (scaled units exponent).2 := by
    simp only [shortestFrom, quotient, scaled_eq, Nat.pow_eq]
    ring
  have hunitsDen : units * (shortestFrom units 0 exponent).quotient.2 =
      (scaled units exponent).1 := by
    simp only [shortestFrom, quotient, scaled_eq, Nat.pow_eq]
  apply Binary64.nearest_eq_of_close hgrid.2 (e := (scaled units exponent).2 / 2)
  · rw [hnum, hunitsDen]
    exact hdistance.2
  · rw [hnum, hunitsDen]
    exact hdistance.1
  · rw [hunitsDen]
    omega

theorem shortest_readsBack {units : Nat} (hgrid : Binary64.OnGrid units) (hunits : units ≠ 0) :
    (shortest units).negative = false ∧ ReadsBack units (shortest units) := by
  apply shortestFrom_readsBack
  have hexponent : magnitude units - 1 - (17 : Nat) = magnitude units - 18 := by omega
  rw [hexponent]
  exact readsBack_of_le hgrid (le_scaled_magnitude hunits)

end NestedPascal.Decimal
