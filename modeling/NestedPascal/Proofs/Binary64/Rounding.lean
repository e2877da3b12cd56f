import Mathlib.Algebra.Order.Ring.Nat
import NestedPascal.Proofs.Value.Range

/-!
# Rounding to binary64

Rounding depends on the quotient alone and not on how it is written, keeps order, and yields a number
of the grid for whatever is close enough to it.
-/

namespace NestedPascal.Binary64

theorem roundQuotient_mul_right (num den : Nat) {k : Nat} (hk : 0 < k) :
    roundQuotient (num * k) (den * k) = roundQuotient num den := by
  have hless (a b : Nat) : a * k < b * k ↔ a < b := Nat.mul_lt_mul_right hk
  unfold roundQuotient
  simp only [Nat.mul_div_mul_right num den hk, Nat.mul_mod_mul_right, ← Nat.mul_assoc, hless]

theorem nearest_mul_right (num den : Nat) {k : Nat} (hk : 0 < k) :
    nearest (num * k) (den * k) = nearest num den := by
  have hspacing : spacing (num * k) (den * k) = spacing num den := by
    rw [spacing, Nat.mul_div_mul_right num den hk, spacing]
  rw [nearest, hspacing, Nat.mul_right_comm, roundQuotient_mul_right _ _ hk, nearest]

/-- Equal quotients are rounded to the same. -/
theorem nearest_congr {num den num' den' : Nat} (hden : 0 < den) (hden' : 0 < den')
    (h : num * den' = num' * den) : nearest num den = nearest num' den' := by
  rw [← nearest_mul_right num den hden', h, Nat.mul_comm den den', nearest_mul_right _ _ hden]

theorem ofQuotient_of_lt {negative : Bool} {num den units : Nat} (h : nearest num den = units)
    (hgrid : OnGrid units) : ofQuotient negative num den = .finite negative units hgrid := by
  subst h
  rw [ofQuotient, dif_pos hgrid.1]

theorem ofQuotient_congr {num den num' den' : Nat} (negative : Bool) (hden : 0 < den)
    (hden' : 0 < den') (h : num * den' = num' * den) :
    ofQuotient negative num den = ofQuotient negative num' den' := by
  simp only [ofQuotient, nearest_congr hden hden' h]

/-! ## Order -/

theorem roundQuotient_mono {num num' : Nat} (den : Nat) (h : num ≤ num') :
    roundQuotient num den ≤ roundQuotient num' den := by
  have hle : num / den ≤ num' / den := Nat.div_le_div_right h
  rcases Nat.lt_or_eq_of_le hle with hlt | heq
  · have hupper := roundQuotient_le num den
    have hlower := le_roundQuotient num' den
    omega
  · have hsplit := Nat.div_add_mod num den
    have hsplit' := Nat.div_add_mod num' den
    rw [heq] at hsplit
    have hrest : num % den ≤ num' % den := by omega
    simp only [roundQuotient, heq]
    split
    · split
      · omega
      · split <;> omega
    · split
      · split
        · omega
        · split <;> omega
      · split
        · omega
        · split <;> omega

theorem log2_mono {m n : Nat} (h : m ≤ n) : m.log2 ≤ n.log2 := by
  by_cases hm : m = 0
  · simp [hm]
  · have hlower := Nat.log2_self_le hm
    exact (Nat.le_log2 (by omega)).mpr (Nat.le_trans hlower h)

/-- A rounded quotient is at most 2⁵³ times its spacing. -/
theorem nearest_le (num den : Nat) :
    nearest num den ≤ 2 ^ (53 + spacing num den) := by
  have hlog : (num / den).log2 + 1 ≤ 53 + spacing num den := by
    unfold spacing
    omega
  have hlt : num / den < 2 ^ 53 * 2 ^ spacing num den := by
    rw [← Nat.pow_add]
    exact Nat.lt_of_lt_of_le Nat.lt_log2_self (Nat.pow_le_pow_right (by decide) hlog)
  have hquotient : num / (den * 2 ^ spacing num den) < 2 ^ 53 := by
    rw [← Nat.div_div_eq_div_mul]
    exact (Nat.div_lt_iff_lt_mul (Nat.two_pow_pos _)).mpr hlt
  have hround := roundQuotient_le num (den * 2 ^ spacing num den)
  rw [nearest, Nat.pow_add]
  exact Nat.mul_le_mul_right _ (by simp only [Nat.pow_eq]; omega)

/-- A quotient whose spacing is not the least is rounded to 2⁵² times its spacing or more. -/
theorem le_nearest {num den : Nat} (hspacing : 0 < spacing num den) :
    2 ^ (52 + spacing num den) ≤ nearest num den := by
  have hlog : 52 + spacing num den = (num / den).log2 := by
    unfold spacing at hspacing ⊢
    omega
  have hpositive : num / den ≠ 0 := by
    intro hzero
    simp [spacing, hzero] at hspacing
  have hlower : 2 ^ 52 * 2 ^ spacing num den ≤ num / den := by
    rw [← Nat.pow_add, hlog]
    exact Nat.log2_self_le hpositive
  have hquotient : 2 ^ 52 ≤ num / (den * 2 ^ spacing num den) := by
    rw [← Nat.div_div_eq_div_mul]
    exact (Nat.le_div_iff_mul_le (Nat.two_pow_pos _)).mpr hlower
  have hround := le_roundQuotient num (den * 2 ^ spacing num den)
  rw [nearest, Nat.pow_add]
  exact Nat.mul_le_mul_right _ (by simp only [Nat.pow_eq]; omega)

theorem nearest_mono {num num' : Nat} (den : Nat) (h : num ≤ num') :
    nearest num den ≤ nearest num' den := by
  have hspacing : spacing num den ≤ spacing num' den := by
    have hlog := log2_mono (Nat.div_le_div_right (c := den) h)
    unfold spacing
    omega
  rcases Nat.lt_or_eq_of_le hspacing with hlt | heq
  · calc nearest num den ≤ 2 ^ (53 + spacing num den) := nearest_le num den
      _ ≤ 2 ^ (52 + spacing num' den) := Nat.pow_le_pow_right (by decide) (by omega)
      _ ≤ nearest num' den := le_nearest (by omega)
  · rw [nearest, nearest, heq]
    exact Nat.mul_le_mul_right _ (roundQuotient_mono _ h)

/-! ## What is close to a number of the grid -/

/-- A quotient less than a half away from an integer is rounded to it. -/
theorem roundQuotient_eq {num den m e : Nat} (hlower : m * den ≤ num + e)
    (hupper : num ≤ m * den + e) (he : 2 * e < den) : roundQuotient num den = m := by
  by_cases hle : m * den ≤ num
  · obtain ⟨above, rfl⟩ := Nat.exists_eq_add_of_le hle
    have hrest : above < den := by omega
    have hquotient : (m * den + above) / den = m := by
      rw [Nat.mul_comm, Nat.mul_add_div (by omega), Nat.div_eq_of_lt hrest, Nat.add_zero]
    have hmod : (m * den + above) % den = above := by
      rw [Nat.mul_comm, Nat.mul_add_mod, Nat.mod_eq_of_lt hrest]
    simp only [roundQuotient, hquotient, hmod]
    rw [if_pos (by omega)]
  · obtain ⟨below, hbelow⟩ := Nat.exists_eq_add_of_lt (Nat.lt_of_not_le hle)
    have hm : m = m - 1 + 1 := by
      have hne : m ≠ 0 := by
        intro hzero
        simp [hzero] at hle
      omega
    have hproduct : m * den = (m - 1) * den + den := by
      rw [← Nat.succ_mul, Nat.succ_eq_add_one, ← hm]
    obtain ⟨rest, hrest⟩ : ∃ rest, num = (m - 1) * den + rest ∧ rest < den ∧ den < 2 * rest := by
      exact ⟨num - (m - 1) * den, by omega, by omega, by omega⟩
    obtain ⟨rfl, hlt, hhalf⟩ := hrest
    have hquotient : ((m - 1) * den + rest) / den = m - 1 := by
      rw [Nat.mul_comm, Nat.mul_add_div (by omega), Nat.div_eq_of_lt hlt, Nat.add_zero]
    have hmod : ((m - 1) * den + rest) % den = rest := by
      rw [Nat.mul_comm, Nat.mul_add_mod, Nat.mod_eq_of_lt hlt]
    simp only [roundQuotient, hquotient, hmod]
    rw [if_neg (by omega), if_pos hhalf]
    omega

/-- The integer that a quotient is rounded to is at most a half away. -/
theorem roundQuotient_distance (num : Nat) {den : Nat} (hden : 0 < den) :
    roundQuotient num den * den ≤ num + den / 2 ∧ num ≤ roundQuotient num den * den + den / 2 := by
  have hsplit := Nat.div_add_mod num den
  have hrest := Nat.mod_lt num hden
  rw [Nat.mul_comm] at hsplit
  simp only [roundQuotient]
  split
  · omega
  · split
    · rw [Nat.add_mul]
      omega
    · rcases Nat.mod_two_eq_zero_or_one (num / den) with heven | hodd
      · rw [heven, Nat.add_zero]
        omega
      · rw [hodd, Nat.add_mul]
        omega

section

variable {num den units e : Nat}

theorem two_mul_lt_of_close (he : 2 ^ 55 * e < units * den) {k : Nat}
    (hk : units.log2 + 1 ≤ 54 + k) : 2 * e < 2 ^ k * den := by
  have hceiling := Nat.lt_log2_self (n := units)
  have hbound : 2 ^ 54 * (2 * e) < 2 ^ 54 * (2 ^ k * den) := by
    calc 2 ^ 54 * (2 * e) = 2 ^ 55 * e := by omega
      _ < units * den := he
      _ ≤ 2 ^ (units.log2 + 1) * den := Nat.mul_le_mul_right _ (Nat.le_of_lt hceiling)
      _ ≤ 2 ^ (54 + k) * den := Nat.mul_le_mul_right _ (Nat.pow_le_pow_right (by decide) hk)
      _ = 2 ^ 54 * (2 ^ k * den) := by rw [Nat.pow_add, Nat.mul_assoc]
  exact Nat.lt_of_mul_lt_mul_left hbound

theorem div_lt_of_close (hgrid : 2 ^ (units.log2 - 52) ∣ units) (hden : 0 < den)
    (hupper : num ≤ units * den + e) (he : 2 ^ 55 * e < units * den) :
    num / den < 2 ^ (units.log2 + 1) := by
  have hceiling := Nat.lt_log2_self (n := units)
  -- The power is a number of the same grid, so there is room for one more spacing below it.
  have hroom : units + 2 ^ (units.log2 - 52) ≤ 2 ^ (units.log2 + 1) := by
    have hdvd : 2 ^ (units.log2 - 52) ∣ 2 ^ (units.log2 + 1) := Nat.pow_dvd_pow 2 (by omega)
    have hle := Nat.le_of_dvd (Nat.sub_pos_of_lt hceiling) (Nat.dvd_sub hdvd hgrid)
    omega
  have hdouble : 2 * e < 2 ^ (units.log2 - 52) * den := two_mul_lt_of_close he (by omega)
  have hsmall : e < 2 ^ (units.log2 - 52) * den := by omega
  rw [Nat.div_lt_iff_lt_mul hden]
  calc num ≤ units * den + e := hupper
    _ < units * den + 2 ^ (units.log2 - 52) * den := Nat.add_lt_add_left hsmall _
    _ = (units + 2 ^ (units.log2 - 52)) * den := (Nat.add_mul ..).symm
    _ ≤ 2 ^ (units.log2 + 1) * den := Nat.mul_le_mul_right _ hroom

theorem le_div_of_close (hlog : units.log2 ≠ 0) (hden : 0 < den)
    (hlower : units * den ≤ num + e) (he : 2 ^ 55 * e < units * den) :
    2 ^ (units.log2 - 1) ≤ num / den := by
  have hunits : units ≠ 0 := by
    rintro rfl
    exact hlog Nat.log2_zero
  have hhalf : 2 ^ units.log2 * den ≤ 2 * num := by
    have hle : 2 ^ units.log2 * den ≤ units * den :=
      Nat.mul_le_mul_right _ (Nat.log2_self_le hunits)
    omega
  have hpow : 2 ^ units.log2 = 2 * 2 ^ (units.log2 - 1) := by
    rw [← Nat.pow_succ', Nat.succ_eq_add_one, Nat.sub_add_cancel (by omega)]
  rw [Nat.le_div_iff_mul_le hden]
  rw [hpow, Nat.mul_assoc] at hhalf
  exact Nat.le_of_mul_le_mul_left hhalf (by decide)

/-- The quotient lies in the binade of the number or in the one below it. -/
theorem spacing_of_close (hgrid : 2 ^ (units.log2 - 52) ∣ units) (hden : 0 < den)
    (hlower : units * den ≤ num + e) (hupper : num ≤ units * den + e)
    (he : 2 ^ 55 * e < units * den) :
    spacing num den ≤ units.log2 - 52 ∧ units.log2 ≤ 53 + spacing num den := by
  have hbelow := div_lt_of_close hgrid hden hupper he
  have habove (hlog : units.log2 ≠ 0) := le_div_of_close hlog hden hlower he
  by_cases hzero : num / den = 0
  · have hfew : units.log2 = 0 := by
      by_contra hlog
      have hle := habove hlog
      have hpositive := Nat.two_pow_pos (units.log2 - 1)
      omega
    simp [spacing, hzero, hfew]
  · have hupperLog : (num / den).log2 < units.log2 + 1 := (Nat.log2_lt hzero).mpr hbelow
    have hlowerLog : units.log2 - 1 ≤ (num / den).log2 := by
      by_cases hlog : units.log2 = 0
      · omega
      · exact (Nat.le_log2 hzero).mpr (habove hlog)
    unfold spacing
    omega

/-- A quotient that differs from a number of the grid by less than 2⁻⁵⁵ of it is rounded to it. -/
theorem nearest_eq_of_close (hgrid : 2 ^ (units.log2 - 52) ∣ units)
    (hlower : units * den ≤ num + e) (hupper : num ≤ units * den + e)
    (he : 2 ^ 55 * e < units * den) : nearest num den = units := by
  have hden : 0 < den := by
    rw [Nat.pos_iff_ne_zero]
    intro hzero
    simp [hzero] at he
  obtain ⟨hfine, hcoarse⟩ := spacing_of_close hgrid hden hlower hupper he
  have hdvd : 2 ^ spacing num den ∣ units := Nat.dvd_trans (Nat.pow_dvd_pow 2 hfine) hgrid
  have hmultiple : units / 2 ^ spacing num den * (den * 2 ^ spacing num den) = units * den := by
    rw [Nat.mul_comm den, ← Nat.mul_assoc, Nat.div_mul_cancel hdvd]
  have hdouble : 2 * e < den * 2 ^ spacing num den := by
    rw [Nat.mul_comm den]
    exact two_mul_lt_of_close he (by omega)
  have hround := roundQuotient_eq (hmultiple ▸ hlower) (hmultiple ▸ hupper) hdouble
  rw [nearest]
  simp only [Nat.pow_eq]
  rw [hround, Nat.div_mul_cancel hdvd]

end

end NestedPascal.Binary64
