import NestedPascal.Proofs.Run.Evaluation
import NestedPascal.Proofs.Tree.SourceTree

/-!
# Values in their range

Whole numbers of 32 bits are binary64 numbers as they are, zero the positive one.  What operators
yield and what is stored in a slot has the kind it should have, and an INTEGER stays such a number.
-/

namespace NestedPascal

namespace Binary64

theorem nearest_of_dvd {units : Nat} (h : Nat.pow 2 (units.log2 - 52) ∣ units) :
    nearest units 1 = units := by
  have hrest : units % Nat.pow 2 (units.log2 - 52) = 0 := Nat.mod_eq_zero_of_dvd h
  have hpositive : 0 < Nat.pow 2 (units.log2 - 52) := Nat.two_pow_pos _
  unfold nearest roundQuotient spacing
  simp only [Nat.div_one, Nat.one_mul, hrest, Nat.mul_zero, if_pos hpositive]
  exact Nat.div_mul_cancel h

theorem one_pos : 0 < one := by
  unfold one
  apply Nat.pow_pos
  decide

theorem onGrid_of_le_pow {m : Nat} (h : m ≤ Nat.pow 2 53) : OnGrid (m * one) := by
  constructor
  · have hle : m * one ≤ Nat.pow 2 53 * one := Nat.mul_le_mul_right _ h
    have hlt : Nat.pow 2 53 * one < limit := by decide +kernel
    exact Nat.lt_of_le_of_lt hle hlt
  · unfold one
    generalize 1074 = k
    exact dvd_of_le_pow h

/-- An integer of at most 53 bits is the number of its units. -/
theorem ofInt_of_le_pow {n : Int} (h : n.natAbs ≤ Nat.pow 2 53) :
    ofInt n = .finite (n < 0) (n.natAbs * one) (onGrid_of_le_pow h) := by
  have hgrid := onGrid_of_le_pow h
  have hnearest : nearest (n.natAbs * one) 1 = n.natAbs * one := nearest_of_dvd hgrid.2
  have hlimit : nearest (n.natAbs * one) 1 < limit := by
    rw [hnearest]
    exact hgrid.1
  rw [ofInt, ofQuotient, dif_pos hlimit]
  simp only [hnearest]

theorem toInt?_ofInt {n : Int} (h : n.natAbs ≤ Nat.pow 2 53) : (ofInt n).toInt? = some n := by
  rw [ofInt_of_le_pow h, toInt?, if_pos (Nat.mul_mod_left _ _), Nat.mul_div_cancel _ one_pos,
    Option.some.injEq]
  by_cases hnegative : n < 0
  · rw [if_pos (by simpa using hnegative)]
    omega
  · rw [if_neg (by simpa using hnegative)]
    omega

theorem nearest_pos {num : Nat} (h : 0 < num) : 0 < nearest num 1 := by
  have hpositive : 0 < Nat.pow 2 (spacing num 1) := Nat.two_pow_pos _
  have hle : Nat.pow 2 (spacing num 1) ≤ num := by
    have hlog : spacing num 1 ≤ num.log2 := by
      rw [spacing, Nat.div_one]
      exact Nat.sub_le ..
    exact Nat.le_trans (Nat.pow_le_pow_right (by decide) hlog)
      (Nat.log2_self_le (Nat.ne_of_gt h))
  have hquotient : 0 < num / Nat.pow 2 (spacing num 1) := Nat.div_pos hle hpositive
  rw [nearest, Nat.one_mul]
  exact Nat.mul_pos (Nat.lt_of_lt_of_le hquotient (le_roundQuotient ..)) hpositive

theorem ofInt_ne_negative_zero (n : Int) : ofInt n ≠ zero true := by
  rw [ofInt, ofQuotient]
  split
  next =>
    intro heq
    obtain ⟨hnegative, hunits⟩ := Binary64.finite.inj heq
    have hlt : n < 0 := of_decide_eq_true hnegative
    have habs : 0 < n.natAbs := by omega
    exact absurd hunits (Nat.ne_of_gt (nearest_pos (Nat.mul_pos habs one_pos)))
  next => simp [zero]

end Binary64

theorem InIntegerRange.natAbs_le {n : Int} (h : InIntegerRange n) : n.natAbs ≤ Nat.pow 2 53 := by
  obtain ⟨hmin, hmax⟩ := h
  unfold integerMin at hmin
  unfold integerMax at hmax
  rw [Nat.pow_eq]
  omega

namespace Value

variable {v : Value}

/-- The number of an INTEGER in its range is that whole number, and not negative zero. -/
theorem InRange.integer (h : v.InRange) (hkind : v.kind = .integer) :
    ∃ n, v.number.toInt? = some n ∧ InIntegerRange n ∧ v.number ≠ .zero true := by
  obtain ⟨n, hn, hnumber⟩ := h hkind
  rw [hnumber]
  exact ⟨n, Binary64.toInt?_ofInt hn.natAbs_le, hn, Binary64.ofInt_ne_negative_zero n⟩

theorem inRange_of_real (hkind : v.kind = .real) : v.InRange := by
  intro hinteger
  rw [hkind] at hinteger
  contradiction

/-! ## Results of operators -/

theorem checkInteger_eq_ok {x : Binary64} (h : checkInteger x = .ok v) :
    v.kind = .integer ∧ v.InRange := by
  unfold checkInteger at h
  split at h
  next n hn =>
    split at h
    next hrange =>
      cases h
      refine ⟨rfl, ?_⟩
      intro _
      exact ⟨n, hrange, by rw [ofInt]⟩
    next => contradiction
  next => contradiction

theorem checkReal_eq_ok {x : Binary64} (h : checkReal x = .ok v) : v.kind = .real ∧ v.InRange := by
  unfold checkReal at h
  split at h
  next =>
    cases h
    exact ⟨rfl, inRange_of_real rfl⟩
  next => contradiction

theorem ok_of_mapError {r : Except RangeError Value}
    (h : r.mapError EvaluationCause.range = .ok v) : r = .ok v := by
  cases r with
  | error range => contradiction
  | ok w =>
      cases h
      rfl

theorem sign_apply_eq_ok {sign : Sign} {operand : Value} (hoperand : operand.InRange)
    (h : sign.apply operand = .ok v) : v.kind = operand.kind ∧ v.InRange := by
  unfold Sign.apply at h
  split at h
  next =>
    cases h
    exact ⟨rfl, hoperand⟩
  next hkind =>
    have hresult := ok_of_mapError h
    rw [hkind]
    exact checkInteger_eq_ok hresult
  next hkind =>
    have hresult := ok_of_mapError h
    rw [hkind]
    exact checkReal_eq_ok hresult

theorem ok_of_division {zero : Bool} {result : Except RangeError Value}
    (h : (if zero then .error .divisionByZero else result.mapError EvaluationCause.range) =
      Except.ok v) : result = .ok v := by
  split at h
  next => contradiction
  next => exact ok_of_mapError h

theorem operator_apply_eq_ok {op : BinaryOperator} {left right : Value}
    (h : op.apply left right = .ok v) : v.kind = left.kind ∧ v.InRange := by
  obtain ⟨leftKind, x⟩ := left
  obtain ⟨rightKind, y⟩ := right
  cases leftKind <;> cases rightKind
  case integer.real => contradiction
  case real.integer => contradiction
  case integer.integer =>
    cases op with
    | add => exact checkInteger_eq_ok (ok_of_mapError h)
    | sub => exact checkInteger_eq_ok (ok_of_mapError h)
    | mul => exact checkInteger_eq_ok (ok_of_mapError h)
    | intDiv => exact checkInteger_eq_ok (ok_of_division h)
    | realDiv => contradiction
  case real.real =>
    cases op with
    | add => exact checkReal_eq_ok (ok_of_mapError h)
    | sub => exact checkReal_eq_ok (ok_of_mapError h)
    | mul => exact checkReal_eq_ok (ok_of_mapError h)
    | realDiv => exact checkReal_eq_ok (ok_of_division h)
    | intDiv => contradiction

theorem widen_of_assignable {target : Kind} (hrange : v.InRange)
    (hassignable : v.kind.assignable target = true) :
    (v.widen target).kind = target ∧ (v.widen target).InRange := by
  obtain ⟨kind, x⟩ := v
  cases kind <;> cases target
  case integer.integer => exact ⟨rfl, hrange⟩
  case integer.real => exact ⟨rfl, inRange_of_real rfl⟩
  case real.integer => contradiction
  case real.real => exact ⟨rfl, hrange⟩

end Value

end NestedPascal
