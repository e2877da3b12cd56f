/-!
# Binary64 numbers

Every finite binary64 number is a whole multiple of 2⁻¹⁰⁷⁴, the least positive one.  A finite number
is kept as a sign and its count of those units; which counts occur is the grid: at most 53
significant bits, and less than 2¹⁰²⁴ in all.  Arithmetic is then exact arithmetic on natural
numbers followed by one rounding to the nearest point of the grid, a tie going to the even side.
-/

namespace NestedPascal

namespace Binary64

/-- The number of units in one. -/
def one : Nat := Nat.pow 2 1074

/-- The number of units in 2¹⁰²⁴, the least power of two that is no finite number. -/
def limit : Nat := Nat.pow 2 2098

/-- The counts of units that finite numbers have. -/
def OnGrid (units : Nat) : Prop :=
  units < limit ∧ Nat.pow 2 (units.log2 - 52) ∣ units

instance (units : Nat) : Decidable (OnGrid units) :=
  inferInstanceAs (Decidable (_ ∧ _))

end Binary64

inductive Binary64 where
  | nan
  | infinity (negative : Bool)
  | finite (negative : Bool) (units : Nat) (onGrid : Binary64.OnGrid units)
deriving DecidableEq

namespace Binary64

/-- The integer nearest to a quotient; halfway between two it is the even one. -/
def roundQuotient (num den : Nat) : Nat :=
  let q := num / den
  let r := num % den
  if 2 * r < den then q else if den < 2 * r then q + 1 else q + q % 2

theorem roundQuotient_le (num den : Nat) : roundQuotient num den ≤ num / den + 1 := by
  simp only [roundQuotient]
  split
  · omega
  split
  · omega
  · omega

theorem le_roundQuotient (num den : Nat) : num / den ≤ roundQuotient num den := by
  simp only [roundQuotient]
  split
  · omega
  split
  · omega
  · omega

/-- The spacing of 53-bit numbers around a quotient, as a power of two. -/
def spacing (num den : Nat) : Nat :=
  (num / den).log2 - 52

/-- The 53-bit number nearest to a quotient. -/
def nearest (num den : Nat) : Nat :=
  roundQuotient num (den * Nat.pow 2 (spacing num den)) * Nat.pow 2 (spacing num den)

private theorem log2_mul_pow (m k : Nat) (h : m ≠ 0) : (m * Nat.pow 2 k).log2 = m.log2 + k := by
  rw [Nat.pow_eq, Nat.log2_eq_iff (Nat.mul_ne_zero h (Nat.ne_of_gt (Nat.pow_pos (by decide))))]
  have lower := Nat.log2_self_le h
  have upper := Nat.lt_log2_self (n := m)
  constructor
  · rw [Nat.pow_add]
    exact Nat.mul_le_mul_right _ lower
  · rw [show m.log2 + k + 1 = m.log2 + 1 + k by omega, Nat.pow_add]
    exact (Nat.mul_lt_mul_right (Nat.pow_pos (by decide))).2 upper

/-- A multiple of a power of two is on the grid if no more than 2⁵³ of that power. -/
theorem dvd_of_le_pow {m k : Nat} (h : m ≤ Nat.pow 2 53) :
    Nat.pow 2 ((m * Nat.pow 2 k).log2 - 52) ∣ m * Nat.pow 2 k := by
  rcases Nat.eq_zero_or_pos m with rfl | hm
  · simp
  rw [log2_mul_pow m k (by omega)]
  simp only [Nat.pow_eq] at h ⊢
  rcases Nat.lt_or_ge m (2 ^ 53) with hlt | hge
  · have : m.log2 < 53 := (Nat.log2_lt (by omega)).2 hlt
    exact Nat.dvd_trans (Nat.pow_dvd_pow 2 (by omega)) (Nat.dvd_mul_left _ _)
  · have hm : m = 2 ^ 53 := by omega
    subst hm
    rw [Nat.log2_two_pow, ← Nat.pow_add]
    exact Nat.pow_dvd_pow 2 (by omega)

theorem dvd_nearest (num den : Nat) :
    Nat.pow 2 ((nearest num den).log2 - 52) ∣ nearest num den := by
  unfold nearest
  apply dvd_of_le_pow
  refine Nat.le_trans (roundQuotient_le _ _) ?_
  simp only [Nat.pow_eq]
  rw [← Nat.div_div_eq_div_mul]
  have hlog : (num / den).log2 + 1 ≤ 53 + spacing num den := by
    unfold spacing
    omega
  have hlt : num / den < 2 ^ 53 * 2 ^ spacing num den := by
    rw [← Nat.pow_add]
    exact Nat.lt_of_lt_of_le Nat.lt_log2_self (Nat.pow_le_pow_right (by decide) hlog)
  have := (Nat.div_lt_iff_lt_mul (Nat.pow_pos (by decide : 0 < 2))).2 hlt
  omega

/-- The number nearest to a quotient of units, infinite from 2¹⁰²⁴ on. -/
def ofQuotient (negative : Bool) (num den : Nat) : Binary64 :=
  if h : nearest num den < limit then
    .finite negative (nearest num den) ⟨h, dvd_nearest num den⟩
  else
    .infinity negative

def zero (negative : Bool) : Binary64 :=
  .finite negative 0 (by decide +kernel)

instance : Inhabited Binary64 := ⟨zero false⟩

def ofInt (n : Int) : Binary64 :=
  ofQuotient (n < 0) (n.natAbs * one) 1

def ofNat (n : Nat) : Binary64 :=
  ofInt n

/-- The integer that a number is, if it is one; both zeros are 0. -/
def toInt? : Binary64 → Option Int
  | .finite negative units _ =>
    if units % one = 0 then
      some (if negative then -((units / one : Nat) : Int) else ((units / one : Nat) : Int))
    else
      none
  | _ => none

def isFinite : Binary64 → Bool
  | .finite .. => true
  | _ => false

def isZero : Binary64 → Bool
  | .finite _ units _ => units == 0
  | _ => false

/-- The strict order of numbers; nothing is less or greater than what is no number. -/
def lt : Binary64 → Binary64 → Bool
  | .nan, _ | _, .nan => false
  | .infinity s, .infinity t => s && !t
  | .infinity s, .finite .. => s
  | .finite .., .infinity t => !t
  | .finite s u _, .finite t v _ =>
    (if s then -(u : Int) else u) < (if t then -(v : Int) else v)

end Binary64

end NestedPascal
