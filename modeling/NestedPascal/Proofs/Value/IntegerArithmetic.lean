import NestedPascal.Proofs.Binary64.Integers

/-!
# Arithmetic on INTEGERs

Operators compute an INTEGER on binary64 numbers and check what they come to.  The check takes the
number nearest to an integer for that integer if it has 32 bits, and rounding brings no other
integer into the range of those.  So the result is exact, or it is an overflow exactly if the exact
result is no INTEGER.
-/

namespace NestedPascal

namespace Value

/-- The value is an INTEGER and stands for an integer of its range; zero may have either sign. -/
structure IsInteger (v : Value) (n : Int) : Prop where
  kind : v.kind = .integer
  number : v.number.toInt? = some n
  inRange : InIntegerRange n

theorem number_ofInt (n : Int) : (ofInt n).number = .ofInt n := by
  rw [ofInt]

theorem isInteger_ofInt {n : Int} (h : InIntegerRange n) : (ofInt n).IsInteger n where
  kind := rfl
  number := by rw [number_ofInt, Binary64.toInt?_ofInt h.natAbs_le]
  inRange := h

theorem natAbs_le_of_inIntegerRange {n : Int} (h : InIntegerRange n) : n.natAbs ≤ 2 ^ 31 := by
  obtain ⟨hmin, hmax⟩ := h
  unfold integerMin at hmin
  unfold integerMax at hmax
  omega

theorem checkInteger_of_isNearest {x : Binary64} {n : Int} (h : x.IsNearest n) :
    checkInteger x = if InIntegerRange n then .ok (ofInt n) else .error (.integerOverflow x) := by
  unfold checkInteger
  rcases Nat.le_total n.natAbs (2 ^ 53) with hsmall | hlarge
  · rw [h.toInt?_eq hsmall]
  · have hout (m : Int) (hm : 2 ^ 53 ≤ m.natAbs) : ¬ InIntegerRange m := by
      intro hrange
      have hle := natAbs_le_of_inIntegerRange hrange
      omega
    rw [if_neg (hout n hlarge)]
    split
    next m hm => rw [if_neg (hout m (h.le_natAbs_of_toInt? hlarge hm))]
    next => rfl

end Value

/-- What an operation on INTEGERs comes to: the exact result if that is an INTEGER, zero the
positive one, and an overflow if not. -/
structure ComesToExactly (result : Except EvaluationCause Value) (n : Int) : Prop where
  value : InIntegerRange n → ∃ v, result = .ok v ∧ v.IsInteger n ∧ v.number ≠ .zero true
  overflow : (∃ cause, result = .error cause ∧ cause.message = "Integer overflow.") ↔
    ¬ InIntegerRange n

theorem comesToExactly_of_isNearest {x : Binary64} {n : Int} (h : x.IsNearest n) :
    ComesToExactly ((Value.checkInteger x).mapError .range) n := by
  rw [Value.checkInteger_of_isNearest h]
  by_cases hrange : InIntegerRange n
  · rw [if_pos hrange]
    refine ⟨fun _ => ⟨.ofInt n, rfl, Value.isInteger_ofInt hrange, ?_⟩, ?_, absurd hrange⟩
    · rw [Value.number_ofInt]
      exact Binary64.ofInt_ne_negative_zero _
    · rintro ⟨cause, hcause, -⟩
      contradiction
  · rw [if_neg hrange]
    exact ⟨fun h => absurd h hrange, fun _ => hrange, fun _ => ⟨_, rfl, rfl⟩⟩

namespace ComesToExactly

variable {left right : Value} {l r : Int}

theorem of_add (hleft : left.IsInteger l) (hright : right.IsInteger r) :
    ComesToExactly (BinaryOperator.add.apply left right) (l + r) := by
  simp only [BinaryOperator.apply, hleft.kind, hright.kind]
  exact comesToExactly_of_isNearest (Binary64.add_isNearest hleft.number hright.number)

theorem of_sub (hleft : left.IsInteger l) (hright : right.IsInteger r) :
    ComesToExactly (BinaryOperator.sub.apply left right) (l - r) := by
  simp only [BinaryOperator.apply, hleft.kind, hright.kind]
  exact comesToExactly_of_isNearest (Binary64.sub_isNearest hleft.number hright.number)

theorem of_mul (hleft : left.IsInteger l) (hright : right.IsInteger r) :
    ComesToExactly (BinaryOperator.mul.apply left right) (l * r) := by
  simp only [BinaryOperator.apply, hleft.kind, hright.kind]
  exact comesToExactly_of_isNearest (Binary64.mul_isNearest hleft.number hright.number)

theorem of_intDiv (hleft : left.IsInteger l) (hright : right.IsInteger r) (hr : r ≠ 0) :
    ComesToExactly (BinaryOperator.intDiv.apply left right) (l.tdiv r) := by
  have hl := Value.natAbs_le_of_inIntegerRange hleft.inRange
  have hr' := Value.natAbs_le_of_inIntegerRange hright.inRange
  have hzero : right.number.isZero = false := by
    rw [← Bool.not_eq_true, Binary64.isZero_iff_of_toInt? hright.number]
    exact hr
  simp only [BinaryOperator.apply, hleft.kind, hright.kind, hzero, Bool.false_eq_true, if_false]
  exact comesToExactly_of_isNearest
    (Binary64.truncate_div_isNearest hleft.number hright.number hr (by omega))

theorem of_minus (hleft : left.IsInteger l) : ComesToExactly (Sign.minus.apply left) (-l) := by
  have hzero : (Binary64.zero false).toInt? = some 0 := by decide +kernel
  simp only [Sign.apply, hleft.kind]
  rw [← Int.zero_sub]
  exact comesToExactly_of_isNearest (Binary64.sub_isNearest hzero hleft.number)

variable {result : Except EvaluationCause Value} {n : Int}

theorem ne_negative_zero (h : ComesToExactly result n) {v : Value} (hv : result = .ok v) :
    v.number ≠ .zero true := by
  by_cases hrange : InIntegerRange n
  · obtain ⟨w, hw, -, hnumber⟩ := h.value hrange
    rw [hv] at hw
    rwa [Except.ok.inj hw]
  · obtain ⟨cause, hcause, -⟩ := h.overflow.mpr hrange
    rw [hv] at hcause
    contradiction

theorem no_division_by_zero (h : ComesToExactly result n) :
    ¬ ∃ cause, result = .error cause ∧ cause.message = "Division by zero." := by
  rintro ⟨cause, hcause, hmessage⟩
  by_cases hrange : InIntegerRange n
  · obtain ⟨w, hw, -⟩ := h.value hrange
    rw [hcause] at hw
    contradiction
  · obtain ⟨cause', hcause', hmessage'⟩ := h.overflow.mpr hrange
    rw [hcause] at hcause'
    rw [Except.error.inj hcause', hmessage'] at hmessage
    contradiction

end ComesToExactly

section

variable {left right : Value} {l r : Int}

/-- On INTEGERs an operator has an exact result, or a zero divisor, or is not for INTEGERs. -/
theorem BinaryOperator.apply_integers (hleft : left.IsInteger l) (hright : right.IsInteger r)
    (op : BinaryOperator) :
    (¬ (op = .intDiv ∧ r = 0) ∧ ∃ n, ComesToExactly (op.apply left right) n) ∨
      ((op = .intDiv ∧ r = 0) ∧ op.apply left right = .error .divisionByZero) ∨
      op = .realDiv ∧ op.apply left right = .error (.undefinedOperands .realDiv .integer) := by
  cases op with
  | add => exact .inl ⟨by simp, _, .of_add hleft hright⟩
  | sub => exact .inl ⟨by simp, _, .of_sub hleft hright⟩
  | mul => exact .inl ⟨by simp, _, .of_mul hleft hright⟩
  | realDiv => exact .inr (.inr ⟨rfl, by simp only [apply, hleft.kind, hright.kind]⟩)
  | intDiv =>
      by_cases hr : r = 0
      · have hzero := (Binary64.isZero_iff_of_toInt? hright.number).mpr hr
        exact .inr (.inl ⟨⟨rfl, hr⟩, by simp only [apply, hleft.kind, hright.kind, hzero, if_true]⟩)
      · exact .inl ⟨by simp [hr], _, .of_intDiv hleft hright hr⟩

/-- What an operator for INTEGERs, and the sign, come to on INTEGERs: the exact result or an
overflow, and division by zero an error of its own. -/
theorem integer_arithmetic_exact_or_overflow (hleft : left.IsInteger l)
    (hright : right.IsInteger r) :
    ComesToExactly (BinaryOperator.add.apply left right) (l + r) ∧
      ComesToExactly (BinaryOperator.sub.apply left right) (l - r) ∧
      ComesToExactly (BinaryOperator.mul.apply left right) (l * r) ∧
      (r ≠ 0 → ComesToExactly (BinaryOperator.intDiv.apply left right) (l.tdiv r)) ∧
      (∀ op : BinaryOperator,
        (∃ cause, op.apply left right = .error cause ∧ cause.message = "Division by zero.") ↔
          op = .intDiv ∧ r = 0) ∧
      ComesToExactly (Sign.minus.apply left) (-l) ∧
      ((∃ cause, Sign.minus.apply left = .error cause ∧ cause.message = "Integer overflow.") ↔
        l = -2147483648) ∧
      ∀ (op : BinaryOperator) v, op.apply left right = .ok v → v.number ≠ .zero true := by
  have hminus := ComesToExactly.of_minus hleft
  refine ⟨.of_add hleft hright, .of_sub hleft hright, .of_mul hleft hright,
    .of_intDiv hleft hright, fun op => ?_, hminus, ?_, fun op v hv => ?_⟩
  · rcases op.apply_integers hleft hright with ⟨hno, n, hn⟩ | ⟨hzero, heq⟩ | ⟨rfl, heq⟩
    · exact iff_of_false hn.no_division_by_zero hno
    · exact iff_of_true ⟨_, heq, rfl⟩ hzero
    · refine iff_of_false ?_ (by simp)
      rintro ⟨cause, hcause, hmessage⟩
      rw [heq] at hcause
      rw [← Except.error.inj hcause] at hmessage
      exact absurd hmessage (by decide)
  · have hrange := hleft.inRange
    rw [hminus.overflow]
    simp only [InIntegerRange, integerMin, integerMax] at hrange ⊢
    omega
  · rcases op.apply_integers hleft hright with ⟨-, n, hn⟩ | ⟨-, heq⟩ | ⟨-, heq⟩
    · exact hn.ne_negative_zero hv
    · exact nomatch heq.symm.trans hv
    · exact nomatch heq.symm.trans hv

end

/-- The least INTEGER less minus one is an INTEGER; divided by minus one it is not. -/
theorem integer_arithmetic_at_least_integer :
    (Value.ofInt integerMin).IsInteger integerMin ∧ (Value.ofInt (-1)).IsInteger (-1) ∧
      (∃ v, BinaryOperator.sub.apply (.ofInt integerMin) (.ofInt (-1)) = .ok v ∧
        v.IsInteger (-2147483647)) ∧
      ∃ cause, BinaryOperator.intDiv.apply (.ofInt integerMin) (.ofInt (-1)) = .error cause ∧
        cause.message = "Integer overflow." := by
  have hleast : (Value.ofInt integerMin).IsInteger integerMin := Value.isInteger_ofInt (by decide)
  have hone : (Value.ofInt (-1)).IsInteger (-1) := Value.isInteger_ofInt (by decide)
  obtain ⟨-, hsub, -, hdiv, -⟩ := integer_arithmetic_exact_or_overflow hleast hone
  obtain ⟨v, hv, hvalue, -⟩ := hsub.value (by decide)
  exact ⟨hleast, hone, ⟨v, hv, hvalue⟩, (hdiv (by decide)).overflow.mpr (by decide)⟩

end NestedPascal
