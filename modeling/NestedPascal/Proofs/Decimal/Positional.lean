import NestedPascal.Proofs.Decimal.Notation
import NestedPascal.Proofs.Value.Range

/-!
# Positional notation

A number is written positionally if it is zero or lies between the number next to 10⁻⁶ and 10²¹.  A
whole number below that is written as its digits; among the others the point is missing from those of
a single digit outside positional notation, where an exponent stands right behind the digit.
-/

namespace NestedPascal

namespace Decimal

/-- One unit of a place. -/
def powerOfTen (place : Int) : Decimal :=
  ⟨false, 1, place⟩

theorem size_powerOfTen (place : Int) : (powerOfTen place).size = 10 ^ place := by
  simp [size, powerOfTen]

theorem size_shortest_least :
    (shortest (powerOfTen (-6)).units).size = (powerOfTen (-6)).size := by
  have hshortest : shortest (powerOfTen (-6)).units = ⟨false, 10, -7⟩ := by decide +kernel
  rw [hshortest, size_powerOfTen, size]
  norm_num

theorem units_least_le_one : (powerOfTen (-6)).units ≤ Binary64.one := by
  decide +kernel

theorem size_shortest_bound :
    (shortest (powerOfTen 21).units).size = (powerOfTen 21).size := by
  have hshortest : shortest (powerOfTen 21).units = ⟨false, 1, 21⟩ := by decide +kernel
  rw [hshortest, powerOfTen]

theorem units_bound : (powerOfTen 21).units = 10 ^ 21 * Binary64.one := by
  decide +kernel

end Decimal

namespace Binary64

/-- Zero, or no less than the number next to 10⁻⁶ and less than 10²¹. -/
def Positional : Binary64 → Prop
  | .finite _ units _ =>
    units = 0 ∨ ((Decimal.powerOfTen (-6)).units ≤ units ∧ units < (Decimal.powerOfTen 21).units)
  | _ => False

instance (x : Binary64) : Decidable x.Positional :=
  match x with
  | .finite .. => inferInstanceAs (Decidable (_ ∨ _))
  | .nan | .infinity _ => inferInstanceAs (Decidable False)

/-- Some decimal of a single digit reads as the number. -/
def HasSingleDigit (x : Binary64) : Prop :=
  ∃ d : Decimal, d.digits < 10 ∧ d.toBinary64 = x

/-- Neither of two finite numbers is less than the other. -/
def SameNumber (x y : Binary64) : Prop :=
  x.isFinite = true ∧ y.isFinite = true ∧ x.lt y = false ∧ y.lt x = false

theorem sameNumber_refl {x : Binary64} (hfinite : x.isFinite = true) : x.SameNumber x := by
  cases x with
  | nan => contradiction
  | infinity negative => contradiction
  | finite negative units hgrid => simp [SameNumber, isFinite, lt]

theorem sameNumber_of_toInt? {x y : Binary64} {n : Int} (hx : x.toInt? = some n)
    (hy : y.toInt? = some n) : x.SameNumber y := by
  obtain ⟨s, a, hu, rfl, rfl⟩ := exists_of_toInt? hx
  obtain ⟨t, b, hv, rfl, hvalue⟩ := exists_of_toInt? hy
  have hscale (sign : Bool) (m : Nat) : signed sign (m * one) = signed sign m * signed false one := by
    rw [signed_mul_signed, Bool.bne_false]
  have hunits : signed s (a * one) = signed t (b * one) := by
    rw [hscale, hscale, hvalue]
  unfold signed at hunits
  simp only [SameNumber, isFinite, lt, hunits, lt_irrefl, decide_false, and_self]

section

variable {negative : Bool} {units : Nat} {hgrid : OnGrid units}

theorem positional_iff (hgrid : OnGrid units) (hunits : units ≠ 0) :
    numberLayout.Positional (Decimal.shortest units).point ↔
      (finite negative units hgrid).Positional := by
  have hdigits := digits_shortest_ne_zero hgrid hunits
  have hleast : -6 < (Decimal.shortest units).point ↔ (Decimal.powerOfTen (-6)).units ≤ units := by
    rw [Decimal.lt_point_iff hdigits, ← Decimal.size_powerOfTen, ← not_lt, ← not_lt,
      Decimal.size_shortest_lt_iff hgrid hunits Decimal.size_shortest_least]
  have hbound : 21 < (Decimal.shortest units).point ↔ (Decimal.powerOfTen 21).units ≤ units := by
    rw [Decimal.lt_point_iff hdigits, ← Decimal.size_powerOfTen, ← not_lt, ← not_lt,
      Decimal.size_shortest_lt_iff hgrid hunits Decimal.size_shortest_bound]
  have hfirst : numberLayout.leastPoint = -5 := rfl
  have hlast : numberLayout.greatestPoint = 21 := rfl
  simp only [NumberLayout.Positional, Positional]
  omega

theorem hasSingleDigit_iff (hgrid : OnGrid units) (hunits : units ≠ 0) :
    (finite negative units hgrid).HasSingleDigit ↔
      (Decimal.shortest units).significant.length = 1 := by
  have hdigits := digits_shortest_ne_zero hgrid hunits
  constructor
  · rintro ⟨d, hdigit, hvalue⟩
    have hle := Decimal.digits_shortest_le hgrid hunits hdigit (Decimal.units_of_toBinary64 hvalue)
    exact Decimal.length_significant_of_le hdigits hle
  · intro hlength
    obtain ⟨digit, exponent, hdigit, hvalue⟩ :=
      Decimal.exists_digit_of_length_significant hdigits hlength
    exact ⟨⟨negative, digit, exponent⟩, hdigit,
      (hvalue negative).trans (shortest_with_sign hgrid hunits negative)⟩

end

/-! ## Whole numbers -/

/-- A whole number of the spacing of ones or more stays whole when it is rounded. -/
theorem one_dvd_nearest (m : Nat) : one ∣ nearest (m * one) 1 := by
  rcases Nat.le_total m (2 ^ 53) with hsmall | hlarge
  · rw [nearest_integer hsmall]
    exact Nat.dvd_mul_left one m
  · obtain ⟨k, hk⟩ := exists_one_eq_mul (k := 0) (by decide)
    rw [Nat.pow_zero, Nat.one_mul] at hk
    have hlog : 53 + k ≤ (m * one).log2 := by
      rw [hk, Nat.le_log2 (Nat.mul_ne_zero (by omega) (Nat.two_pow_pos k).ne'), Nat.pow_add]
      exact Nat.mul_le_mul_right _ hlarge
    have hspacing : k ≤ spacing (m * one) 1 := by
      rw [spacing, Nat.div_one]
      omega
    have hdvd : one ∣ Nat.pow 2 (spacing (m * one) 1) := by
      generalize spacing (m * one) 1 = places at *
      rw [hk]
      exact Nat.pow_dvd_pow 2 hspacing
    exact Nat.dvd_trans hdvd (Nat.dvd_mul_left ..)

theorem exists_toInt?_of_dvd {negative : Bool} {units : Nat} (hgrid : OnGrid units)
    (h : one ∣ units) :
    ∃ n, (finite negative units hgrid).toInt? = some n ∧ n.natAbs * one = units := by
  refine ⟨_, if_pos (Nat.mod_eq_zero_of_dvd h), ?_⟩
  have hunits := Nat.div_mul_cancel h
  split
  next => rw [Int.natAbs_neg, Int.natAbs_natCast, hunits]
  next => rw [Int.natAbs_natCast, hunits]

/-- A decimal that is written without a point is that of a whole number. -/
theorem one_dvd_of_length_le {units : Nat} (hgrid : OnGrid units) (hunits : units ≠ 0)
    (h : ((Decimal.shortest units).significant.length : Int) ≤ (Decimal.shortest units).point) :
    one ∣ units := by
  have hdigits := digits_shortest_ne_zero hgrid hunits
  have hsigned := shortest_with_sign hgrid hunits false
  generalize Decimal.shortest units = d at *
  obtain ⟨-, zeros, heq⟩ := Decimal.toDigits_eq_significant hdigits
  have hlength : Decimal.digitCount d.digits = d.significant.length + zeros := by
    rw [Decimal.digitCount, heq, List.length_append, List.length_replicate]
  have hvalue := Decimal.digits_eq_significant heq
  have hexponent : d.exponent + zeros = 0 + ((d.exponent + zeros).toNat : Int) := by
    rw [Decimal.point] at h
    omega
  rw [hvalue, Decimal.toBinary64_mul_pow, hexponent, ← Decimal.toBinary64_mul_pow] at hsigned
  rw [← Decimal.units_of_toBinary64 hsigned]
  simp only [Decimal.units, Decimal.quotient, Int.toNat_zero, Int.neg_zero, Nat.pow_eq,
    Nat.pow_zero, Nat.mul_one]
  exact one_dvd_nearest _

theorem positional_of_natural {m : Nat} (negative : Bool) (hgrid : OnGrid (m * one)) (hm : m ≠ 0)
    (hlt : m < 10 ^ 21) : (finite negative (m * one) hgrid).Positional := by
  have hle : one ≤ m * one := Nat.le_mul_of_pos_left _ (Nat.pos_of_ne_zero hm)
  refine .inr ⟨Decimal.units_least_le_one.trans hle, ?_⟩
  rw [Decimal.units_bound]
  exact (Nat.mul_lt_mul_right one_pos).mpr hlt

theorem lt_of_positional {negative : Bool} {m : Nat} {hgrid : OnGrid (m * one)}
    (hunits : m * one ≠ 0) (h : (finite negative (m * one) hgrid).Positional) : m < 10 ^ 21 := by
  have hbound : m * one < 10 ^ 21 * one := by
    rw [← Decimal.units_bound]
    exact (Or.resolve_left h hunits).2
  exact Nat.lt_of_mul_lt_mul_right hbound

end Binary64

/-! ## The texts of whole numbers -/

namespace NumberParts

/-- A natural number, with some zeros behind a point. -/
def natural (n zeros : Nat) : NumberParts :=
  ⟨Nat.toDigits 10 n, List.replicate zeros '0', none⟩

theorem natural_proper (n zeros : Nat) : (natural n zeros).Proper := by
  refine ⟨Nat.toDigits_ne_nil, fun _ => isDigit_of_mem_toDigits, isDigit_of_mem_zeros zeros, ?_⟩
  intro hzero
  by_cases hn : n = 0
  · subst hn
    rfl
  · exact absurd hzero (head?_toDigits_ne_zero hn)

theorem natural_toBinary64 (n zeros : Nat) (negative : Bool) :
    ((natural n zeros).decimal negative).toBinary64 =
      .ofQuotient negative (n * Binary64.one) 1 := by
  have hexponent : (0 : Int) - zeros + zeros = 0 := by omega
  simp only [decimal, natural, Decimal.ofParts, decimalValue_append_zeros, decimalValue_toDigits,
    List.length_replicate, Option.getD_none, Decimal.toBinary64_mul_pow, hexponent]
  simp only [Decimal.toBinary64_eq, Decimal.quotient, Int.toNat_zero, Int.neg_zero, Nat.pow_eq,
    Nat.pow_zero, Nat.mul_one]

end NumberParts

theorem toList_toString (n : Int) :
    (toString n).toList = (if n < 0 then ['-'] else []) ++ Nat.toDigits 10 n.natAbs := by
  cases n with
  | ofNat n =>
      change (toString n).toList = _
      rw [Nat.toString_eq_repr, Nat.toList_repr, if_neg (by simp)]
      rfl
  | negSucc n =>
      change ("-" ++ toString (n + 1)).toList = _
      rw [String.toList_append, Nat.toString_eq_repr, Nat.toList_repr, if_pos (Int.negSucc_lt_zero n)]
      rfl

/-- A whole number is shown by its digits, and read back from them with zeros behind a point or
without. -/
theorem toList_toString_append (n : Int) (zeros : Nat) :
    (toString n).toList ++ (if zeros = 0 then [] else '.' :: List.replicate zeros '0') =
      (if n < 0 then ['-'] else []) ++ (NumberParts.natural n.natAbs zeros).text := by
  rw [toList_toString]
  simp [NumberParts.natural, NumberParts.text]

theorem Numeral.read?_toString (n : Int) (zeros : Nat) :
    Numeral.read? ((toString n).toList ++
      (if zeros = 0 then [] else '.' :: List.replicate zeros '0')) = some (.ofInt n) := by
  have hread := Numeral.read?_of_text (NumberParts.natural_proper n.natAbs zeros) (n < 0)
  rw [NumberParts.natural_toBinary64] at hread
  simp only [decide_eq_true_eq] at hread
  rw [toList_toString_append, hread, Binary64.ofInt]

/-- A small whole number is written as its digits. -/
theorem Binary64.text_of_toInt? {x : Binary64} {n : Int} (h : x.toInt? = some n)
    (hn : n.natAbs < 2 ^ 53) : x.text = toString n := by
  obtain ⟨negative, m, hgrid, rfl, rfl⟩ := exists_of_toInt? h
  rw [natAbs_signed] at hn
  apply String.toList_inj.mp
  by_cases hzero : m = 0
  · subst hzero
    rw [text, if_pos (Nat.zero_mul one)]
    cases negative <;> rfl
  · have hunits : m * one ≠ 0 := Nat.mul_ne_zero hzero one_pos.ne'
    have hdigits := digits_shortest_ne_zero hgrid hunits
    obtain ⟨hexponent, hwhole⟩ := Decimal.shortest_whole hzero hn
    have hpositional := positional_of_natural negative hgrid hzero
      (Nat.lt_trans hn (by decide))
    have hpoint := ((positional_iff hgrid hunits).mpr hpositional).2
    rw [text_finite negative hgrid hunits, Decimal.write_whole hdigits hexponent hpoint, hwhole,
      toList_toString, natAbs_signed]
    cases negative <;> simp [signed, Nat.pos_of_ne_zero hzero]

/-- The text of a number that is not whole, or too large for positional notation. -/
theorem Binary64.point_mem_text_iff {negative : Bool} {units : Nat} {hgrid : OnGrid units}
    (hlarge : ∀ n, (finite negative units hgrid).toInt? = some n → 10 ^ 21 ≤ n.natAbs) :
    '.' ∈ (finite negative units hgrid).text.toList ↔
      (finite negative units hgrid).Positional ∨ ¬ (finite negative units hgrid).HasSingleDigit := by
  have hunits : units ≠ 0 := by
    rintro rfl
    exact absurd (hlarge 0 toInt?_of_zero) (by decide)
  have hdigits : ∀ c ∈ (Decimal.shortest units).significant, isDigit c = true :=
    fun _ => Decimal.isDigit_of_mem_significant
  obtain ⟨hne, -⟩ := Decimal.toDigits_eq_significant (digits_shortest_ne_zero hgrid hunits)
  have hsign : '.' ∉ if negative then ['-'] else [] := by cases negative <;> decide
  rw [text_finite negative hgrid hunits, List.mem_append, or_iff_right hsign,
    Decimal.write_eq_write_significant, hasSingleDigit_iff hgrid hunits]
  by_cases hpositional : (finite negative units hgrid).Positional
  · have hnear := (positional_iff hgrid hunits).mpr hpositional
    rw [NumberLayout.point_mem_write_of_positional hnear hdigits hne]
    refine iff_of_true ?_ (.inl hpositional)
    by_contra hnot
    have hdvd := one_dvd_of_length_le hgrid hunits (not_lt.mp hnot)
    obtain ⟨n, hwhole, rfl⟩ := exists_toInt?_of_dvd hgrid hdvd
    exact absurd (hlarge n hwhole) (not_le.mpr (lt_of_positional hunits hpositional))
  · have hfar := fun hnear => hpositional ((positional_iff hgrid hunits).mp hnear)
    have hlength := List.length_pos_iff.mpr hne
    rw [NumberLayout.point_mem_write_of_not hfar hdigits hne, or_iff_right hpositional]
    omega

theorem Binary64.point_or_exponent_mem_text {negative : Bool} {units : Nat} {hgrid : OnGrid units}
    (hlarge : ∀ n, (finite negative units hgrid).toInt? = some n → 10 ^ 21 ≤ n.natAbs) :
    '.' ∈ (finite negative units hgrid).text.toList ∨
      'e' ∈ (finite negative units hgrid).text.toList := by
  by_cases hpositional : (finite negative units hgrid).Positional
  · exact .inl ((point_mem_text_iff hlarge).mpr (.inl hpositional))
  · have hunits : units ≠ 0 := fun hzero => hpositional (.inl hzero)
    have hfar := fun hnear => hpositional ((positional_iff hgrid hunits).mp hnear)
    right
    rw [text_finite negative hgrid hunits, Decimal.write_eq_write_significant]
    exact List.mem_append_right _
      ((NumberLayout.exponent_mem_write_iff fun _ => Decimal.isDigit_of_mem_significant).mpr hfar)

end NestedPascal
