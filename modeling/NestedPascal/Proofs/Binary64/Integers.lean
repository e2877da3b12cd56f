import Mathlib.Algebra.Ring.Int.Defs
import NestedPascal.Proofs.Binary64.Naturals

/-!
# Integers as binary64 numbers

The sum, the difference and the product of two integers is the number nearest to the exact result.
So is their quotient when it is truncated, although it is rounded before that: the operands are too
small for rounding to reach the next integer.
-/

namespace NestedPascal.Binary64

/-- The number is the one nearest to an integer; if that is zero, it may have either sign. -/
def IsNearest (x : Binary64) (n : Int) : Prop :=
  ∃ negative, x = ofQuotient negative (n.natAbs * one) 1 ∧ (n ≠ 0 → negative = decide (n < 0))

/-- The integer with a sign and a magnitude. -/
def signed (negative : Bool) (magnitude : Nat) : Int :=
  if negative then -(magnitude : Int) else magnitude

section

variable {s t : Bool} {a b : Nat}

theorem natAbs_signed : (signed s a).natAbs = a := by
  cases s <;> simp [signed]

theorem isNearest_signed : (ofQuotient s (a * one) 1).IsNearest (signed s a) := by
  refine ⟨s, by rw [natAbs_signed], fun hne => ?_⟩
  cases s with
  | false => simp [signed]
  | true =>
      have hpositive : 0 < a := Nat.pos_of_ne_zero fun hzero => hne (by simp [signed, hzero])
      simp [signed, hpositive]

theorem signed_add_signed : signed s a + signed s b = signed s (a + b) := by
  cases s with
  | false => simp [signed]
  | true => simp [signed, Int.add_comm]

theorem signed_add_signed_not (h : b ≤ a) : signed s a + signed (!s) b = signed s (a - b) := by
  cases s with
  | false => simp [signed, Int.ofNat_sub h, Int.sub_eq_add_neg]
  | true => simp [signed, Int.ofNat_sub h, Int.sub_eq_add_neg, Int.add_comm]

theorem signed_mul_signed : signed s a * signed t b = signed (s != t) (a * b) := by
  cases s <;> cases t <;> simp [signed]

theorem signed_tdiv_signed : (signed s a).tdiv (signed t b) = signed (s != t) (a / b) := by
  cases s <;> cases t <;> simp [signed]

theorem ofQuotient_zero (negative : Bool) : ofQuotient negative 0 1 = zero negative := by
  have hnearest : nearest 0 1 = 0 := nearest_of_dvd (Nat.dvd_zero _)
  have hlimit : nearest 0 1 < limit := by
    rw [hnearest]
    decide +kernel
  rw [ofQuotient, dif_pos hlimit, zero]
  simp only [hnearest]

end

theorem exists_of_toInt? {x : Binary64} {n : Int} (h : x.toInt? = some n) :
    ∃ negative magnitude hgrid, x = .finite negative (magnitude * one) hgrid ∧
      n = signed negative magnitude := by
  cases x with
  | nan => contradiction
  | infinity negative => contradiction
  | finite negative units hgrid =>
      simp only [toInt?, Option.ite_none_right_eq_some, Option.some.injEq] at h
      obtain ⟨hwhole, rfl⟩ := h
      have hunits : units = units / one * one :=
        (Nat.div_mul_cancel (Nat.dvd_of_mod_eq_zero hwhole)).symm
      exact ⟨negative, units / one, hunits ▸ hgrid, by simp only [← hunits], rfl⟩

theorem mul_finite {s t : Bool} {u v : Nat} (hu : OnGrid u) (hv : OnGrid v) :
    finite s u hu * finite t v hv = ofQuotient (s != t) (u * v) one := by
  change mul _ _ = _
  rw [mul]

theorem isZero_iff_of_toInt? {x : Binary64} {n : Int} (h : x.toInt? = some n) :
    x.isZero = true ↔ n = 0 := by
  obtain ⟨s, a, hgrid, rfl, rfl⟩ := exists_of_toInt? h
  have hmagnitude : a * one = 0 ↔ a = 0 := by simp [one_pos.ne']
  rw [isZero, beq_iff_eq, hmagnitude, ← Int.natAbs_eq_zero, natAbs_signed]

theorem toInt?_of_zero {negative : Bool} {hgrid : OnGrid 0} :
    (finite negative 0 hgrid).toInt? = some 0 := by
  rw [toInt?, if_pos (Nat.zero_mod one), Nat.zero_div]
  cases negative <;> rfl

theorem toInt?_ofInt_of_toInt? {x : Binary64} {n : Int} (h : x.toInt? = some n) :
    (ofInt n).toInt? = some n := by
  have hzero (k : Nat) (hk : ¬ -(k : Int) < 0) : (k : Int) = -k := by omega
  obtain ⟨negative, m, hgrid, rfl, rfl⟩ := exists_of_toInt? h
  rw [ofInt, natAbs_signed, ofQuotient_of_lt (nearest_of_dvd hgrid.2) hgrid, toInt?,
    if_pos (Nat.mul_mod_left m one), Nat.mul_div_cancel m one_pos]
  cases negative with
  | false => simp [signed]
  | true =>
      have hsigned : signed true m = -m := rfl
      rw [hsigned]
      split
      next => rfl
      next hnonneg =>
        rw [decide_eq_true_eq] at hnonneg
        exact congrArg some (hzero m hnonneg)

theorem zero_lt_iff_of_toInt? {x : Binary64} {n : Int} (h : x.toInt? = some n) :
    (zero false).lt x = true ↔ 0 < n := by
  obtain ⟨negative, m, hgrid, rfl, rfl⟩ := exists_of_toInt? h
  have hunits : 0 < m * one ↔ 0 < m := Nat.mul_pos_iff_of_pos_right one_pos
  change decide (0 < signed negative (m * one)) = true ↔ _
  generalize m * one = units at hunits
  cases negative <;> simp [signed] <;> omega

/-! ## Sum, difference and product -/

section

variable {x y : Binary64} {m n : Int}

theorem add_isNearest (hx : x.toInt? = some m) (hy : y.toInt? = some n) :
    (x + y).IsNearest (m + n) := by
  obtain ⟨s, a, hgrid, rfl, rfl⟩ := exists_of_toInt? hx
  obtain ⟨t, b, hgrid', rfl, rfl⟩ := exists_of_toInt? hy
  change (if s = t then ofQuotient s (a * one + b * one) 1
    else if a * one = b * one then zero false
    else if b * one < a * one then ofQuotient s (a * one - b * one) 1
    else ofQuotient t (b * one - a * one) 1).IsNearest _
  simp only [← Nat.add_mul, ← Nat.sub_mul, Nat.mul_lt_mul_right one_pos,
    Nat.mul_left_inj (Nat.ne_of_gt one_pos)]
  split
  next hsign =>
    subst t
    rw [signed_add_signed]
    exact isNearest_signed
  next hsign =>
    obtain rfl : t = !s := Bool.eq_not.mpr (Ne.symm hsign)
    split
    next hsame =>
      subst b
      rw [signed_add_signed_not (Nat.le_refl a), Nat.sub_self, ← ofQuotient_zero,
        ← Nat.zero_mul one]
      exact ⟨false, by cases s <;> simp [signed], by simp [signed]⟩
    next hdiffer =>
      split
      next hless =>
        rw [signed_add_signed_not (Nat.le_of_lt hless)]
        exact isNearest_signed
      next hless =>
        have hle : a ≤ b := Nat.le_of_not_lt hless
        have hswapped := signed_add_signed_not hle (s := !s)
        rw [Bool.not_not] at hswapped
        rw [Int.add_comm, hswapped]
        exact isNearest_signed

theorem toInt?_neg (hy : y.toInt? = some n) : (neg y).toInt? = some (-n) := by
  obtain ⟨t, b, hgrid, rfl, rfl⟩ := exists_of_toInt? hy
  simp only [neg, toInt?, Nat.mul_mod_left, if_true, Nat.mul_div_cancel _ one_pos,
    Option.some.injEq]
  cases t <;> simp [signed]

theorem sub_isNearest (hx : x.toInt? = some m) (hy : y.toInt? = some n) :
    (x - y).IsNearest (m - n) :=
  add_isNearest hx (toInt?_neg hy)

theorem mul_isNearest (hx : x.toInt? = some m) (hy : y.toInt? = some n) :
    (x * y).IsNearest (m * n) := by
  obtain ⟨s, a, hgrid, rfl, rfl⟩ := exists_of_toInt? hx
  obtain ⟨t, b, hgrid', rfl, rfl⟩ := exists_of_toInt? hy
  rw [mul_finite]
  have hunits : a * one * (b * one) * 1 = a * b * one * one := by
    rw [Nat.mul_one, Nat.mul_mul_mul_comm, Nat.mul_assoc (a * b)]
  rw [ofQuotient_congr _ one_pos Nat.one_pos hunits, signed_mul_signed]
  exact isNearest_signed

end

theorem ofQuotient_eq_finite (negative : Bool) {num den : Nat} (h : nearest num den < limit) :
    ∃ hgrid, ofQuotient negative num den = finite negative (nearest num den) hgrid :=
  ⟨⟨h, dvd_nearest num den⟩, dif_pos h⟩

theorem nearest_integer {n : Nat} (h : n ≤ 2 ^ 53) : nearest (n * one) 1 = n * one :=
  nearest_of_dvd (onGrid_of_le_pow h).2

/-! ## Quotient -/

theorem nearest_multiple {units b : Nat} (hb : 0 < b) (h : Nat.pow 2 (units.log2 - 52) ∣ units) :
    nearest (units * b) b = units := by
  have hscaled := nearest_mul_right units 1 hb
  rwa [Nat.one_mul, nearest_of_dvd h] at hscaled

/-- A power of two that lies between a number and its double. -/
theorem exists_pow_above {b : Nat} (hb : 0 < b) : ∃ k, b ≤ 2 ^ k ∧ 2 ^ k ≤ 2 * b := by
  refine ⟨b.log2 + 1, Nat.le_of_lt Nat.lt_log2_self, ?_⟩
  rw [Nat.pow_succ, Nat.mul_comm]
  exact Nat.mul_le_mul_left 2 (Nat.log2_self_le hb.ne')

theorem exists_one_eq_mul {k : Nat} (hk : 2 ^ k ≤ 2 ^ 53) : ∃ e, one = 2 ^ k * 2 ^ e := by
  have hle : k ≤ 53 := (Nat.pow_le_pow_iff_right (by decide)).mp hk
  have hwhole : k ≤ 1074 := by omega
  unfold one
  generalize 1074 = n at hwhole
  exact ⟨n - k, by rw [Nat.pow_eq, ← Nat.pow_add, Nat.add_sub_cancel' hwhole]⟩

section

variable {a b : Nat}

theorem le_nearest_quotient (hb : 0 < b) (ha : a ≤ 2 ^ 53) :
    a / b * one ≤ nearest (a * one) b := by
  have hle : a / b * one * b ≤ a * one := by
    rw [Nat.mul_right_comm]
    exact Nat.mul_le_mul_right _ (Nat.div_mul_le_self a b)
  have hgrid := onGrid_of_le_pow (Nat.le_trans (Nat.div_le_self a b) ha)
  rw [← nearest_multiple hb hgrid.2]
  exact nearest_mono b hle

/-- Rounding a quotient of small integers does not reach the integer above it, which is one part in
the divisor away or more. -/
theorem nearest_quotient_lt (hb : 0 < b) (hsmall : a + b ≤ 2 ^ 52) :
    nearest (a * one) b < (a / b + 1) * one := by
  obtain ⟨k, hbelow, habove⟩ := exists_pow_above hb
  obtain ⟨e, hone⟩ := exists_one_eq_mul (k := k) (by omega)
  have hquotient : a / b * b ≤ a := Nat.div_mul_le_self a b
  have ha : a + 1 ≤ (a / b + 1) * b := Nat.lt_mul_of_div_lt (Nat.lt_succ_self _) hb
  have hfew : (a / b + 1) * 2 ^ k ≤ 2 ^ 53 := by
    calc (a / b + 1) * 2 ^ k ≤ (a / b + 1) * (2 * b) := Nat.mul_le_mul_left _ habove
      _ = 2 * (a / b * b + b) := by rw [Nat.mul_left_comm, Nat.succ_mul (a / b)]
      _ ≤ 2 ^ 53 := by omega
  -- The last number before the integer among the multiples of `2 ^ -k`.
  obtain ⟨last, hlast⟩ : ∃ last, (a / b + 1) * 2 ^ k = last + 1 :=
    Nat.exists_eq_succ_of_ne_zero (Nat.mul_ne_zero (Nat.succ_ne_zero _) (Nat.two_pow_pos k).ne')
  have hle : a * one ≤ last * 2 ^ e * b := by
    have hscaled : a * 2 ^ k ≤ last * b := by
      have hmore := Nat.mul_le_mul_right (2 ^ k) ha
      rw [Nat.mul_right_comm, hlast, Nat.succ_mul, Nat.succ_mul] at hmore
      omega
    calc a * one = a * 2 ^ k * 2 ^ e := by rw [hone, ← Nat.mul_assoc]
      _ ≤ last * b * 2 ^ e := Nat.mul_le_mul_right _ hscaled
      _ = last * 2 ^ e * b := Nat.mul_right_comm ..
  calc nearest (a * one) b ≤ nearest (last * 2 ^ e * b) b := nearest_mono b hle
    _ = last * 2 ^ e := nearest_multiple hb (dvd_of_le_pow (by rw [Nat.pow_eq]; omega))
    _ < (last + 1) * 2 ^ e :=
      Nat.mul_lt_mul_of_pos_right (Nat.lt_succ_self last) (Nat.two_pow_pos e)
    _ = (a / b + 1) * one := by rw [← hlast, hone, Nat.mul_assoc]

theorem nearest_quotient_div_one (hb : 0 < b) (hsmall : a + b ≤ 2 ^ 52) :
    nearest (a * one) b / one = a / b :=
  Nat.div_eq_of_lt_le (le_nearest_quotient hb (by omega)) (nearest_quotient_lt hb hsmall)

end

theorem div_finite {s t : Bool} {u v : Nat} (hu : OnGrid u) (hv : OnGrid v) (hne : v ≠ 0) :
    finite s u hu / finite t v hv = ofQuotient (s != t) (u * one) v := by
  change div _ _ = _
  rw [div, if_neg hne]

theorem truncate_finite {s : Bool} {u : Nat} (hu : OnGrid u) :
    (finite s u hu).truncate = ofQuotient s (u / one * one) 1 := by
  rw [truncate.eq_1]

/-- A quotient of small integers that is truncated after it was rounded. -/
theorem truncate_div_isNearest {x y : Binary64} {m n : Int} (hx : x.toInt? = some m)
    (hy : y.toInt? = some n) (hne : n ≠ 0) (hsmall : m.natAbs + n.natAbs ≤ 2 ^ 52) :
    (x / y).truncate.IsNearest (m.tdiv n) := by
  obtain ⟨s, a, hgrid, rfl, rfl⟩ := exists_of_toInt? hx
  obtain ⟨t, b, hgrid', rfl, rfl⟩ := exists_of_toInt? hy
  rw [natAbs_signed, natAbs_signed] at hsmall
  have hb : 0 < b := by
    rw [Nat.pos_iff_ne_zero]
    rintro rfl
    exact hne (by simp [signed])
  have hquotient : ofQuotient (s != t) (a * one * one) (b * one) =
      ofQuotient (s != t) (a * one) b := by
    simp only [ofQuotient, nearest_mul_right (a * one) b one_pos]
  have hfinite : nearest (a * one) b < limit := by
    have hupper := nearest_quotient_lt hb hsmall
    have hle : a / b + 1 ≤ 2 ^ 53 := by
      have := Nat.div_le_self a b
      omega
    exact Nat.lt_of_lt_of_le hupper (Nat.le_of_lt (onGrid_of_le_pow hle).1)
  obtain ⟨hrounded, heq⟩ := ofQuotient_eq_finite (s != t) hfinite
  rw [div_finite _ _ (Nat.mul_ne_zero hb.ne' one_pos.ne'), hquotient, heq, truncate_finite,
    nearest_quotient_div_one hb hsmall, signed_tdiv_signed]
  exact isNearest_signed

/-! ## Integers that are kept by rounding -/

theorem IsNearest.toInt?_eq {x : Binary64} {n : Int} (h : x.IsNearest n) (hn : n.natAbs ≤ 2 ^ 53) :
    x.toInt? = some n := by
  obtain ⟨s, hx, hsign⟩ := h
  have hfinite : nearest (n.natAbs * one) 1 < limit := by
    rw [nearest_integer hn]
    exact (onGrid_of_le_pow hn).1
  obtain ⟨hgrid, heq⟩ := ofQuotient_eq_finite s hfinite
  rw [hx, heq, toInt?, nearest_integer hn, if_pos (Nat.mul_mod_left ..),
    Nat.mul_div_cancel _ one_pos, Option.some.injEq]
  by_cases hzero : n = 0
  · simp [hzero]
  · rw [hsign hzero]
    by_cases hnegative : n < 0
    · rw [if_pos (by simpa using hnegative)]
      omega
    · rw [if_neg (by simpa using hnegative)]
      omega

/-- Rounding brings no large integer into the range of exact ones. -/
theorem IsNearest.le_natAbs_of_toInt? {x : Binary64} {m n : Int} (h : x.IsNearest n)
    (hn : 2 ^ 53 ≤ n.natAbs) (hm : x.toInt? = some m) : 2 ^ 53 ≤ m.natAbs := by
  obtain ⟨s, hx, -⟩ := h
  obtain ⟨t, a, hgrid, heq, rfl⟩ := exists_of_toInt? hm
  have hlarge : nearest (2 ^ 53 * one) 1 ≤ nearest (n.natAbs * one) 1 :=
    nearest_mono 1 (Nat.mul_le_mul_right _ hn)
  rw [nearest_integer (Nat.le_refl _)] at hlarge
  have hfinite : nearest (n.natAbs * one) 1 < limit := by
    rw [← isFinite_ofQuotient_iff, ← hx, heq, isFinite]
  obtain ⟨hgrid', heq'⟩ := ofQuotient_eq_finite s hfinite
  rw [hx, heq', finite.injEq] at heq
  rw [heq.2] at hlarge
  rw [natAbs_signed]
  exact Nat.le_of_mul_le_mul_right hlarge one_pos

end NestedPascal.Binary64
