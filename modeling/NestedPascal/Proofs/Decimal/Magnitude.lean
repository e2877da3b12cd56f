import Mathlib.Algebra.Order.Field.Power
import Mathlib.Algebra.Order.Field.Rat
import Mathlib.Data.Nat.Cast.Order.Field
import NestedPascal.Proofs.Binary64.Integers
import NestedPascal.Proofs.Decimal.Shortest

/-!
# How large the shortest decimal is

Rounding keeps the order of decimals, so the shortest decimal of a number lies on the same side of a
decimal that is its own shortest as the number does.  If some decimal of a single digit reads as a
number, so does one next to the number on the coarsest grid, and that is the shortest.
-/

namespace NestedPascal

theorem Binary64.nearest_le_nearest {num den num' den' : Nat} (hden : 0 < den) (hden' : 0 < den')
    (h : num * den' ≤ num' * den) : nearest num den ≤ nearest num' den' := by
  rw [← nearest_mul_right num den hden', ← nearest_mul_right num' den' hden, Nat.mul_comm den' den]
  exact nearest_mono _ h

namespace Decimal

/-- The value without its sign. -/
def size (d : Decimal) : ℚ :=
  d.digits * 10 ^ d.exponent

/-- The units of the number that the decimal reads as. -/
def units (d : Decimal) : Nat :=
  Binary64.nearest d.quotient.1 d.quotient.2

theorem quotient_eq_size_mul (d : Decimal) :
    (d.quotient.1 : ℚ) = d.size * Binary64.one * d.quotient.2 := by
  have hexponent : (d.exponent.toNat : Int) = d.exponent + (-d.exponent).toNat := by omega
  have hpow : (10 : ℚ) ^ d.exponent.toNat = 10 ^ d.exponent * 10 ^ (-d.exponent).toNat := by
    rw [← zpow_natCast, ← zpow_natCast, hexponent, zpow_add₀ (by norm_num)]
  simp only [quotient, size, Nat.pow_eq]
  push_cast
  rw [hpow]
  ring

theorem units_le_units {c d : Decimal} (h : c.size ≤ d.size) : c.units ≤ d.units := by
  apply Binary64.nearest_le_nearest c.quotient_pos d.quotient_pos
  have hle : (c.quotient.1 * d.quotient.2 : ℚ) ≤ d.quotient.1 * c.quotient.2 := by
    rw [quotient_eq_size_mul c, quotient_eq_size_mul d]
    have hscale : (0 : ℚ) ≤ Binary64.one * c.quotient.2 * d.quotient.2 := by
      exact_mod_cast Nat.zero_le _
    calc c.size * Binary64.one * c.quotient.2 * d.quotient.2
        = c.size * (Binary64.one * c.quotient.2 * d.quotient.2) := by ring
      _ ≤ d.size * (Binary64.one * c.quotient.2 * d.quotient.2) :=
        mul_le_mul_of_nonneg_right h hscale
      _ = d.size * Binary64.one * d.quotient.2 * c.quotient.2 := by ring
  exact_mod_cast hle

theorem units_of_toBinary64 {d : Decimal} {negative : Bool} {units : Nat}
    {hgrid : Binary64.OnGrid units} (h : d.toBinary64 = .finite negative units hgrid) :
    d.units = units := by
  rw [toBinary64_eq, Binary64.ofQuotient] at h
  split at h
  next => exact (Binary64.finite.inj h).2
  next => contradiction

theorem ReadsBack.units_eq {units : Nat} {d : Decimal} (h : ReadsBack units d) : d.units = units :=
  units_of_toBinary64 h.2

theorem readsBack_of_units_eq {units : Nat} (hgrid : Binary64.OnGrid units) {d : Decimal}
    (hsign : d.negative = false) (h : d.units = units) : ReadsBack units d := by
  refine ⟨hgrid, ?_⟩
  rw [toBinary64_eq, hsign]
  exact Binary64.ofQuotient_of_lt h hgrid

theorem units_shortest {units : Nat} (hgrid : Binary64.OnGrid units) (hunits : units ≠ 0) :
    (shortest units).units = units :=
  (shortest_readsBack hgrid hunits).2.units_eq

/-- A decimal as large as the shortest of its number parts the numbers as it parts their shortest
decimals. -/
theorem size_shortest_lt_iff {units : Nat} (hgrid : Binary64.OnGrid units) (hunits : units ≠ 0)
    {c : Decimal} (hc : (shortest c.units).size = c.size) :
    (shortest units).size < c.size ↔ units < c.units := by
  constructor
  · intro hlt
    have hle := units_le_units (Rat.le_of_lt hlt)
    rw [units_shortest hgrid hunits] at hle
    rcases Nat.lt_or_eq_of_le hle with hless | heq
    · exact hless
    · rw [heq, hc] at hlt
      exact absurd hlt (lt_irrefl _)
  · intro hlt
    by_contra hnot
    have hle := units_le_units (not_lt.mp hnot)
    rw [units_shortest hgrid hunits] at hle
    omega

/-! ## The place of the point -/

/-- The place after which the point stands, counted from the left edge of the first digit. -/
def point (d : Decimal) : Int :=
  digitCount d.digits + d.exponent

theorem lt_point_iff {d : Decimal} (hd : d.digits ≠ 0) (k : Int) :
    k < d.point ↔ (10 : ℚ) ^ k ≤ d.size := by
  obtain ⟨hpositive, hlower, hupper⟩ := digitCount_spec hd
  have hscale : (0 : ℚ) < 10 ^ d.exponent := by positivity
  have hlowerSize : (10 : ℚ) ^ (d.point - 1) ≤ d.size := by
    have hexponent : d.point - 1 = ((digitCount d.digits - 1 : Nat) : Int) + d.exponent := by
      rw [point]
      omega
    rw [hexponent, zpow_add₀ (by norm_num), zpow_natCast, size]
    exact mul_le_mul_of_nonneg_right (by exact_mod_cast hlower) hscale.le
  have hupperSize : d.size < (10 : ℚ) ^ d.point := by
    rw [point, zpow_add₀ (by norm_num), zpow_natCast, size]
    exact mul_lt_mul_of_pos_right (by exact_mod_cast hupper) hscale
  constructor
  · intro hlt
    calc (10 : ℚ) ^ k ≤ 10 ^ (d.point - 1) := zpow_le_zpow_right₀ (by norm_num) (by omega)
      _ ≤ d.size := hlowerSize
  · intro hle
    by_contra hnot
    have hpow : (10 : ℚ) ^ d.point ≤ 10 ^ k := zpow_le_zpow_right₀ (by norm_num) (by omega)
    exact absurd (lt_of_le_of_lt hle hupperSize) (not_lt.mpr hpow)

/-! ## Numbers of a single digit -/

/-- A number below the power of ten that its magnitude is. -/
theorem lt_magnitude {units : Nat} (hunits : units ≠ 0) :
    units * 10 ^ (-magnitude units).toNat < Binary64.one * 10 ^ (magnitude units).toNat := by
  unfold magnitude
  by_cases hlarge : Binary64.one ≤ units
  · have hquotient : units / Binary64.one ≠ 0 :=
      Nat.ne_of_gt (Nat.div_pos hlarge Binary64.one_pos)
    obtain ⟨-, -, hupper⟩ := digitCount_spec hquotient
    have hnone : (-(digitCount (units / Binary64.one) : Int)).toNat = 0 := by omega
    rw [if_pos hlarge, hnone, Int.toNat_natCast, Nat.pow_zero, Nat.mul_one, Nat.mul_comm]
    exact (Nat.div_lt_iff_lt_mul Binary64.one_pos).mp hupper
  · have hpositive : 0 < units := Nat.pos_of_ne_zero hunits
    have hquotient : Binary64.one / units ≠ 0 := Nat.ne_of_gt (Nat.div_pos (by omega) hpositive)
    obtain ⟨hplaces, hlower, -⟩ := digitCount_spec hquotient
    rw [if_neg hlarge]
    generalize digitCount (Binary64.one / units) = places at *
    have hle : units * 10 ^ (places - 1) ≤ Binary64.one := by
      rw [Nat.mul_comm]
      exact (Nat.le_div_iff_mul_le hpositive).mp hlower
    by_cases hpower : units * Nat.pow 10 (places - 1) = Binary64.one
    · rw [if_pos hpower]
      rcases Nat.lt_or_ge 1 places with hmany | hfew
      · have hup : (2 - (places : Int)).toNat = 0 := by omega
        have hdown : (-(2 - (places : Int))).toNat = places - 2 := by omega
        have hsucc : places - 1 = places - 2 + 1 := by omega
        have hpow : 0 < units * 10 ^ (places - 2) := Nat.mul_pos hpositive (Nat.pow_pos (by decide))
        rw [hup, hdown, Nat.pow_zero, Nat.mul_one, ← hpower]
        simp only [Nat.pow_eq]
        rw [hsucc, Nat.pow_succ, ← Nat.mul_assoc]
        omega
      · obtain rfl : places = 1 := by omega
        simp only [Nat.sub_self, Nat.pow_eq, Nat.pow_zero, Nat.mul_one] at hpower
        omega
    · have hup : (1 - (places : Int)).toNat = 0 := by omega
      have hdown : (-(1 - (places : Int))).toNat = places - 1 := by omega
      rw [if_neg hpower, hup, hdown, Nat.pow_zero, Nat.mul_one]
      exact Nat.lt_of_le_of_ne hle hpower

/-- On the coarsest grid a number lies between two decimals of one digit, ten being one. -/
theorem scaled_magnitude {units : Nat} (hunits : units ≠ 0) :
    (scaled units (magnitude units - 1)).2 ≤ (scaled units (magnitude units - 1)).1 ∧
      (scaled units (magnitude units - 1)).1 < 10 * (scaled units (magnitude units - 1)).2 := by
  have hlower := magnitude_spec hunits
  have hupper := lt_magnitude hunits
  rw [scaled_eq]
  generalize magnitude units = n at *
  have hneg : -(n - 1) = 1 - n := by omega
  rw [hneg]
  refine ⟨hlower, ?_⟩
  by_cases hpositive : 1 ≤ n
  · have hup : n.toNat = (n - 1).toNat + 1 := by omega
    have hdown : (1 - n).toNat = (-n).toNat := by omega
    rw [hup, Nat.pow_succ, ← Nat.mul_assoc] at hupper
    rw [hdown]
    omega
  · have hup : n.toNat = (n - 1).toNat := by omega
    have hdown : (1 - n).toNat = (-n).toNat + 1 := by omega
    rw [hup] at hupper
    rw [hdown, Nat.pow_succ, ← Nat.mul_assoc]
    omega

section

variable {units : Nat} (m : Nat) (exponent : Int)

theorem units_le_of_scaled (hgrid : Binary64.OnGrid units)
    (h : m * (scaled units exponent).2 ≤ (scaled units exponent).1) :
    (Decimal.mk false m exponent).units ≤ units := by
  have hden := (Decimal.mk false m exponent).quotient_pos
  rw [← Binary64.nearest_multiple hden hgrid.2]
  apply Binary64.nearest_mono
  rw [scaled_eq] at h
  simp only [quotient, Nat.pow_eq]
  calc m * 10 ^ exponent.toNat * Binary64.one = m * (Binary64.one * 10 ^ exponent.toNat) := by ring
    _ ≤ units * 10 ^ (-exponent).toNat := h

theorem le_units_of_scaled (hgrid : Binary64.OnGrid units)
    (h : (scaled units exponent).1 ≤ m * (scaled units exponent).2) :
    units ≤ (Decimal.mk false m exponent).units := by
  have hden := (Decimal.mk false m exponent).quotient_pos
  rw [← Binary64.nearest_multiple hden hgrid.2]
  apply Binary64.nearest_mono
  rw [scaled_eq] at h
  simp only [quotient, Nat.pow_eq]
  calc units * 10 ^ (-exponent).toNat ≤ m * (Binary64.one * 10 ^ exponent.toNat) := h
    _ = m * 10 ^ exponent.toNat * Binary64.one := by ring

end

/-- A decimal of one digit lies on no finer grid than one below its first digit can tell. -/
theorem size_le_or_le {c : Decimal} (hc : c.digits < 10) {q : Nat} (hq : 0 < q) (exponent : Int) :
    c.size ≤ (Decimal.mk false q exponent).size ∨
      (Decimal.mk false (q + 1) exponent).size ≤ c.size := by
  have hscale : (0 : ℚ) < 10 ^ exponent := by positivity
  rcases Int.lt_or_le c.exponent exponent with hfine | hcoarse
  · left
    have hdigits : (c.digits : ℚ) ≤ 10 := by exact_mod_cast hc.le
    have hone : (1 : ℚ) ≤ q := by exact_mod_cast hq
    calc c.size ≤ 10 * 10 ^ c.exponent :=
          mul_le_mul_of_nonneg_right hdigits (by positivity)
      _ = 10 ^ (c.exponent + 1) := by rw [zpow_add_one₀ (by norm_num), mul_comm]
      _ ≤ 10 ^ exponent := zpow_le_zpow_right₀ (by norm_num) (by omega)
      _ ≤ q * 10 ^ exponent := le_mul_of_one_le_left hscale.le hone
  · have hexponent : c.exponent = ((c.exponent - exponent).toNat : Int) + exponent := by omega
    have hsize : c.size = (c.digits * 10 ^ (c.exponent - exponent).toNat : Nat) * 10 ^ exponent := by
      rw [size, hexponent, zpow_add₀ (by norm_num), zpow_natCast]
      push_cast
      simp only [Int.add_sub_cancel, Int.toNat_natCast]
      ring
    rw [hsize, size, size]
    rcases Nat.lt_or_ge q (c.digits * 10 ^ (c.exponent - exponent).toNat) with habove | hbelow
    · right
      exact mul_le_mul_of_nonneg_right (by exact_mod_cast habove) hscale.le
    · left
      exact mul_le_mul_of_nonneg_right (by exact_mod_cast hbelow) hscale.le

theorem nearestAt?_neighbour {units : Nat} {exponent : Int} {d : Decimal}
    (h : nearestAt? units exponent = some d) :
    d.exponent = exponent ∧
      d.digits ≤ (scaled units exponent).1 / (scaled units exponent).2 + 1 := by
  simp only [nearestAt?] at h
  split at h
  next =>
    cases h
    split <;> exact ⟨rfl, by simp only; omega⟩
  next =>
    cases h
    exact ⟨rfl, Nat.le_succ _⟩
  next =>
    cases h
    exact ⟨rfl, Nat.le_refl _⟩
  next => contradiction

theorem nearestAt?_isSome {units : Nat} {exponent : Int}
    (h : readsBack units ⟨false, (scaled units exponent).1 / (scaled units exponent).2,
        exponent⟩ = true ∨
      readsBack units ⟨false, (scaled units exponent).1 / (scaled units exponent).2 + 1,
        exponent⟩ = true) :
    ∃ d, nearestAt? units exponent = some d := by
  simp only [nearestAt?]
  split
  next => exact ⟨_, rfl⟩
  next => exact ⟨_, rfl⟩
  next => exact ⟨_, rfl⟩
  next hbelow habove => simp [hbelow, habove] at h

/-- If a decimal of one digit reads as a number, the shortest decimal has one digit, ten being one. -/
theorem digits_shortest_le {units : Nat} (hgrid : Binary64.OnGrid units) (hunits : units ≠ 0)
    {c : Decimal} (hc : c.digits < 10) (hreads : c.units = units) :
    (shortest units).digits ≤ 10 := by
  set exponent := magnitude units - 1 with hexponent
  obtain ⟨hlower, hupper⟩ := scaled_magnitude hunits
  rw [← hexponent] at hlower hupper
  have hden : 0 < (scaled units exponent).2 := by
    rw [scaled_eq]
    exact Nat.mul_pos Binary64.one_pos (Nat.pow_pos (by decide))
  set q := (scaled units exponent).1 / (scaled units exponent).2 with hq
  have hpositive : 0 < q := Nat.div_pos hlower hden
  have hsmall : q < 10 := (Nat.div_lt_iff_lt_mul hden).mpr hupper
  have hbelow := units_le_of_scaled q exponent hgrid (Nat.div_mul_le_self ..)
  have habove : units ≤ (Decimal.mk false (q + 1) exponent).units :=
    le_units_of_scaled (q + 1) exponent hgrid (Nat.lt_mul_of_div_lt (Nat.lt_succ_self _) hden).le
  -- Rounding keeps order, so the neighbour on the side of the given decimal reads back with it.
  have hneighbour : readsBack units ⟨false, q, exponent⟩ = true ∨
      readsBack units ⟨false, q + 1, exponent⟩ = true := by
    rcases size_le_or_le hc hpositive exponent with hle | hle
    · left
      have hunits' := units_le_units hle
      rw [hreads] at hunits'
      exact readsBack_iff.mpr (readsBack_of_units_eq hgrid rfl (Nat.le_antisymm hbelow hunits'))
    · right
      have hunits' := units_le_units hle
      rw [hreads] at hunits'
      exact readsBack_iff.mpr (readsBack_of_units_eq hgrid rfl (Nat.le_antisymm hunits' habove))
  obtain ⟨d, hd⟩ := nearestAt?_isSome hneighbour
  have hdigits := (nearestAt?_neighbour hd).2
  rw [shortest, ← hexponent, shortestFrom, hd, Option.getD_some]
  omega

/-! ## Whole numbers -/

/-- A decimal of a whole number reads as a small whole number only if it is that. -/
theorem eq_of_units_eq {m n : Nat} {exponent : Int} (hexponent : 0 ≤ exponent) (hn : n < 2 ^ 53)
    (h : (Decimal.mk false m exponent).units = n * Binary64.one) :
    m * 10 ^ exponent.toNat = n := by
  have hden : (-exponent).toNat = 0 := by omega
  simp only [units, quotient, hden, Nat.pow_eq, Nat.pow_zero] at h
  rcases Nat.le_total (m * 10 ^ exponent.toNat) (2 ^ 53) with hsmall | hlarge
  · rw [Binary64.nearest_integer hsmall] at h
    exact Nat.eq_of_mul_eq_mul_right Binary64.one_pos h
  · have hmono := Binary64.nearest_mono 1 (Nat.mul_le_mul_right Binary64.one hlarge)
    rw [Binary64.nearest_integer (Nat.le_refl _), h] at hmono
    have hle := Nat.le_of_mul_le_mul_right hmono Binary64.one_pos
    omega

theorem units_whole {n : Nat} (hn : n ≤ 2 ^ 53) :
    (Decimal.mk false n 0).units = n * Binary64.one := by
  simp only [units, quotient, Int.toNat_zero, Int.neg_zero, Nat.pow_eq, Nat.pow_zero, Nat.mul_one]
  exact Binary64.nearest_integer hn

theorem shortestFrom_whole {n : Nat} (hn : n < 2 ^ 53) (tries : Nat) {exponent : Int}
    (hexponent : 0 ≤ exponent) (htries : exponent ≤ tries) :
    0 ≤ (shortestFrom (n * Binary64.one) tries exponent).exponent ∧
      (shortestFrom (n * Binary64.one) tries exponent).digits *
        10 ^ (shortestFrom (n * Binary64.one) tries exponent).exponent.toNat = n := by
  have hscaled : scaled (n * Binary64.one) 0 = (n * Binary64.one, Binary64.one) := by
    rw [scaled_eq]
    simp
  induction tries generalizing exponent with
  | zero =>
      obtain rfl : exponent = 0 := by omega
      have hround := Binary64.roundQuotient_mul_right n 1 Binary64.one_pos
      rw [Nat.one_mul] at hround
      have hself : Binary64.roundQuotient n 1 = n := by simp [Binary64.roundQuotient, Nat.mod_one]
      rw [shortestFrom, hscaled]
      exact ⟨Int.le_refl _, by simp only [hround, hself, Int.toNat_zero, Nat.pow_zero, Nat.mul_one]⟩
  | succ tries ih =>
      rw [shortestFrom]
      cases hnearest : nearestAt? (n * Binary64.one) exponent with
      | some d =>
          obtain ⟨hsign, hreads⟩ := nearestAt?_readsBack hnearest
          obtain ⟨hplace, -⟩ := nearestAt?_neighbour hnearest
          obtain ⟨negative, digits, place⟩ := d
          subst hsign hplace
          exact ⟨hexponent, eq_of_units_eq hexponent hn hreads.units_eq⟩
      | none =>
          have hpositive : exponent ≠ 0 := by
            rintro rfl
            have hgrid := Binary64.onGrid_of_le_pow (m := n) (by rw [Nat.pow_eq]; omega)
            have hreads : readsBack (n * Binary64.one) ⟨false, n, 0⟩ = true :=
              readsBack_iff.mpr (readsBack_of_units_eq hgrid rfl (units_whole hn.le))
            have hbelow : (scaled (n * Binary64.one) 0).1 / (scaled (n * Binary64.one) 0).2 = n := by
              rw [hscaled, Nat.mul_div_cancel n Binary64.one_pos]
            obtain ⟨d, hd⟩ := nearestAt?_isSome (.inl (by rw [hbelow]; exact hreads))
            rw [hd] at hnearest
            contradiction
          exact ih (by omega) (by omega)

/-- The shortest decimal of a small whole number is that number. -/
theorem shortest_whole {n : Nat} (hpositive : n ≠ 0) (hn : n < 2 ^ 53) :
    0 ≤ (shortest (n * Binary64.one)).exponent ∧
      (shortest (n * Binary64.one)).digits * 10 ^ (shortest (n * Binary64.one)).exponent.toNat =
        n := by
  obtain ⟨hcount, hlower, -⟩ := digitCount_spec hpositive
  have hmagnitude : magnitude (n * Binary64.one) = digitCount n := by
    have hle : Binary64.one ≤ n * Binary64.one :=
      Nat.le_mul_of_pos_left _ (Nat.pos_of_ne_zero hpositive)
    rw [magnitude, if_pos hle, Nat.mul_div_cancel n Binary64.one_pos]
  have hfew : digitCount n - 1 < 17 := by
    have hpow : 10 ^ (digitCount n - 1) < 10 ^ 17 :=
      Nat.lt_of_le_of_lt hlower (Nat.lt_trans hn (by decide))
    exact (Nat.pow_lt_pow_iff_right (by decide)).mp hpow
  rw [shortest, hmagnitude]
  exact shortestFrom_whole hn 17 (by omega) (by omega)

end Decimal

end NestedPascal
