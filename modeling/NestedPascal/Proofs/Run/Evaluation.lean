import NestedPascal.Run.Execute
import NestedPascal.Scope.Resolve

/-!
# Looking into evaluation

How a result comes about: which steps of an evaluation succeeded, and which one failed.
-/

namespace NestedPascal

section

variable {ε α β : Type} {x : Except ε α} {f : α → Except ε β} {b : β} {e : ε}

theorem bind_eq_ok_iff : (x >>= f) = .ok b ↔ ∃ a, x = .ok a ∧ f a = .ok b := by
  cases x with
  | error e' =>
      constructor
      · intro h
        contradiction
      · rintro ⟨a, ha, -⟩
        contradiction
  | ok a =>
      constructor
      · intro h
        exact ⟨a, rfl, h⟩
      · rintro ⟨a', ha', h⟩
        cases ha'
        exact h

theorem bind_eq_error_iff :
    (x >>= f) = .error e ↔ x = .error e ∨ ∃ a, x = .ok a ∧ f a = .error e := by
  cases x with
  | error e' =>
      constructor
      · intro h
        cases h
        exact .inl rfl
      · rintro (h | ⟨a, ha, -⟩)
        · cases h
          rfl
        · contradiction
  | ok a =>
      constructor
      · intro h
        exact .inr ⟨a, rfl, h⟩
      · rintro (h | ⟨a', ha', h⟩)
        · contradiction
        · cases ha'
          exact h

end

theorem located_eq_ok_iff {α : Type} {span : Span} {r : Except EvaluationCause α} {a : α} :
    located span r = .ok a ↔ r = .ok a := by
  cases r with
  | error cause =>
      constructor
      · intro h
        contradiction
      · intro h
        contradiction
  | ok b =>
      constructor
      · intro h
        cases h
        rfl
      · intro h
        cases h
        rfl

theorem located_eq_error_iff {α : Type} {span : Span} {r : Except EvaluationCause α}
    {e : EvaluationError} :
    located span r = .error e ↔ ∃ cause, r = .error cause ∧ e = ⟨cause, span⟩ := by
  cases r with
  | error cause =>
      constructor
      · intro h
        cases h
        exact ⟨cause, rfl, rfl⟩
      · rintro ⟨cause', heq, rfl⟩
        cases heq
        rfl
  | ok b =>
      constructor
      · intro h
        contradiction
      · rintro ⟨cause, h, -⟩
        contradiction

/-! ## Operators -/

theorem range_of_mapError {r : Except Value.RangeError Value} {cause : EvaluationCause}
    (h : r.mapError EvaluationCause.range = .error cause) : ∃ range, cause = .range range := by
  cases r with
  | error range =>
      cases h
      exact ⟨range, rfl⟩
  | ok v => contradiction

theorem Sign.apply_eq_error {sign : Sign} {v : Value} {cause : EvaluationCause}
    (h : sign.apply v = .error cause) : ∃ range, cause = .range range := by
  unfold Sign.apply at h
  split at h
  · contradiction
  · exact range_of_mapError h
  · exact range_of_mapError h

/-- An operator fails on a result out of range, on a zero divisor, or on kinds it is not for. -/
theorem BinaryOperator.apply_eq_error {op : BinaryOperator} {l r : Value} {cause : EvaluationCause}
    (h : op.apply l r = .error cause) :
    (∃ range, cause = .range range) ∨ cause = .divisionByZero ∨
      (op.definedFor l.kind = false ∧ cause = .undefinedOperands op l.kind) ∨
      l.kind ≠ r.kind ∧ cause = .mixedOperands op l.kind r.kind := by
  have hdivision {zero : Bool} {result : Except Value.RangeError Value}
      (h : (if zero then .error .divisionByZero else result.mapError EvaluationCause.range) =
        Except.error cause) : (∃ range, cause = .range range) ∨ cause = .divisionByZero := by
    split at h
    · cases h
      exact .inr rfl
    · exact .inl (range_of_mapError h)
  obtain ⟨leftKind, x⟩ := l
  obtain ⟨rightKind, y⟩ := r
  cases leftKind <;> cases rightKind
  case integer.real => exact .inr (.inr (.inr ⟨by simp, by cases h; rfl⟩))
  case real.integer => exact .inr (.inr (.inr ⟨by simp, by cases h; rfl⟩))
  case integer.integer =>
    cases op with
    | add => exact .inl (range_of_mapError h)
    | sub => exact .inl (range_of_mapError h)
    | mul => exact .inl (range_of_mapError h)
    | intDiv => exact (hdivision h).imp_right .inl
    | realDiv =>
        cases h
        exact .inr (.inr (.inl ⟨rfl, rfl⟩))
  case real.real =>
    cases op with
    | add => exact .inl (range_of_mapError h)
    | sub => exact .inl (range_of_mapError h)
    | mul => exact .inl (range_of_mapError h)
    | realDiv => exact (hdivision h).imp_right .inl
    | intDiv =>
        cases h
        exact .inr (.inr (.inl ⟨rfl, rfl⟩))

/-! ## References and expressions -/

namespace VariableRef

variable {stack : CallStack (Frame Nat)} {r : VariableRef} {v : VariableSymbol} {place : Nat}

theorem locate_eq_ok_iff :
    r.locate stack = .ok (v, place) ↔ r.symbol = some v ∧ stack.holder? v.level = some place := by
  unfold locate
  constructor
  · intro h
    split at h
    next => contradiction
    next symbol hsymbol =>
      split at h
      next => contradiction
      next found hfound =>
        cases h
        exact ⟨hsymbol, hfound⟩
  · rintro ⟨hsymbol, hplace⟩
    simp only [hsymbol, hplace]

theorem locate_eq_error {e : EvaluationError} (h : r.locate stack = .error e) :
    (r.symbol = none ∧ e = ⟨.unresolvedVariable r.name, r.span⟩) ∨
      ∃ v, r.symbol = some v ∧ stack.holder? v.level = none ∧
        e = ⟨.noActiveFrame v.name v.level, r.span⟩ := by
  unfold locate at h
  split at h
  next hsymbol =>
    cases h
    exact .inl ⟨hsymbol, rfl⟩
  next v hsymbol =>
    split at h
    next hplace =>
      cases h
      exact .inr ⟨v, hsymbol, hplace, rfl⟩
    next => contradiction

theorem eval_eq (hsymbol : r.symbol = some v) (hplace : stack.holder? v.level = some place) :
    r.eval stack =
      match stack.frames[place]?.bind (·.get? v.name) with
      | some value => .ok value
      | none => .error ⟨.unassigned r.name, r.span⟩ := by
  have hlocate := locate_eq_ok_iff.mpr ⟨hsymbol, hplace⟩
  rw [eval, hlocate]
  rfl

theorem eval_eq_error {e : EvaluationError} (h : r.eval stack = .error e) :
    r.locate stack = .error e ∨ e = ⟨.unassigned r.name, r.span⟩ := by
  unfold eval at h
  rcases bind_eq_error_iff.mp h with hlocate | ⟨⟨v, place⟩, -, hslot⟩
  · exact .inl hlocate
  · simp only at hslot
    split at hslot
    next => contradiction
    next =>
      cases hslot
      exact .inr rfl

end VariableRef

namespace Expr

variable {stack : CallStack (Frame Nat)} {span : Span} {e : EvaluationError}

theorem eval_unary_eq_error {sign : Sign} {operand : Expr}
    (h : (Expr.unary span sign operand).eval stack = .error e) :
    operand.eval stack = .error e ∨
      ∃ v cause, operand.eval stack = .ok v ∧ sign.apply v = .error cause ∧ e = ⟨cause, span⟩ := by
  rw [eval] at h
  rcases bind_eq_error_iff.mp h with hoperand | ⟨v, hv, hsign⟩
  · exact .inl hoperand
  · obtain ⟨cause, hcause, rfl⟩ := located_eq_error_iff.mp hsign
    exact .inr ⟨v, cause, hv, hcause, rfl⟩

theorem eval_binary_eq_error {op : BinaryOperator} {left right : Expr}
    (h : (Expr.binary span op left right).eval stack = .error e) :
    left.eval stack = .error e ∨ right.eval stack = .error e ∨
      ∃ l r cause, left.eval stack = .ok l ∧ right.eval stack = .ok r ∧
        op.apply l r = .error cause ∧ e = ⟨cause, span⟩ := by
  rw [eval] at h
  rcases bind_eq_error_iff.mp h with hleft | ⟨l, hl, hrest⟩
  · exact .inl hleft
  · rcases bind_eq_error_iff.mp hrest with hright | ⟨r, hr, hop⟩
    · exact .inr (.inl hright)
    · obtain ⟨cause, hcause, rfl⟩ := located_eq_error_iff.mp hop
      exact .inr (.inr ⟨l, r, cause, hl, hr, hcause, rfl⟩)

theorem eval_unary_eq_ok {sign : Sign} {operand : Expr} {v : Value}
    (h : (Expr.unary span sign operand).eval stack = .ok v) :
    ∃ w, operand.eval stack = .ok w ∧ sign.apply w = .ok v := by
  rw [eval] at h
  obtain ⟨w, hw, hsign⟩ := bind_eq_ok_iff.mp h
  exact ⟨w, hw, located_eq_ok_iff.mp hsign⟩

theorem eval_binary_eq_ok {op : BinaryOperator} {left right : Expr} {v : Value}
    (h : (Expr.binary span op left right).eval stack = .ok v) :
    ∃ l r, left.eval stack = .ok l ∧ right.eval stack = .ok r ∧ op.apply l r = .ok v := by
  rw [eval] at h
  obtain ⟨l, hl, hrest⟩ := bind_eq_ok_iff.mp h
  obtain ⟨r, hr, hop⟩ := bind_eq_ok_iff.mp hrest
  exact ⟨l, r, hl, hr, located_eq_ok_iff.mp hop⟩

end Expr

/-! ## Calls -/

/-- The first arguments of a list, so many of them, have values on a stack. -/
def EvaluateUpTo (stack : CallStack (Frame Nat)) (args : List Expr) (count : Nat) : Prop :=
  ∀ i < count, ∃ arg v, args[i]? = some arg ∧ arg.eval stack = .ok v

section

variable {stack : CallStack (Frame Nat)} {c : Call} {p : ProcedureSymbol} {e : EvaluationError}

/-- Arguments are evaluated from the first on, up to one that fails or is missing. -/
theorem bindArguments_stops {members : Register String Value} {params : List VariableSymbol}
    {args : List Expr} (h : bindArguments stack c members params args = .error e) :
    ∃ i param, params[i]? = some param ∧ EvaluateUpTo stack args i ∧
      ((args[i]? = none ∧ e = ⟨.missingArgument param.name c.name, c.span⟩) ∨
        ∃ arg, args[i]? = some arg ∧ arg.eval stack = .error e) := by
  induction params generalizing members args with
  | nil => contradiction
  | cons param params ih =>
      cases args with
      | nil =>
          cases h
          exact ⟨0, param, rfl, by simp [EvaluateUpTo], .inl ⟨rfl, rfl⟩⟩
      | cons arg args =>
          rw [bindArguments] at h
          rcases bind_eq_error_iff.mp h with harg | ⟨v, hv, hrest⟩
          · exact ⟨0, param, rfl, by simp [EvaluateUpTo], .inr ⟨arg, rfl, harg⟩⟩
          · obtain ⟨i, param', hparam, hbefore, hstop⟩ := ih hrest
            refine ⟨i + 1, param', by simpa using hparam, ?_, by simpa using hstop⟩
            intro j hj
            cases j with
            | zero => exact ⟨arg, v, rfl, hv⟩
            | succ j => simpa using hbefore j (by omega)

theorem bindArguments_eq_error {members : Register String Value} {params : List VariableSymbol}
    {args : List Expr} (h : bindArguments stack c members params args = .error e) :
    (∃ param, e = ⟨.missingArgument param c.name, c.span⟩) ∨
      ∃ arg ∈ args, arg.eval stack = .error e := by
  obtain ⟨i, param, -, -, ⟨-, rfl⟩ | ⟨arg, harg, hfailed⟩⟩ := bindArguments_stops h
  · exact .inl ⟨param.name, rfl⟩
  · exact .inr ⟨arg, List.mem_of_getElem? harg, hfailed⟩

theorem Call.frame_eq_ok {frame : Frame Nat} (h : c.frame p stack = .ok frame) :
    ∃ place members, stack.holder? p.level = some place ∧
      bindArguments stack c .empty p.params c.args = .ok members ∧
      frame = ⟨p.name, .procedure, stack.depth + 1, p.level + 1, some place, members⟩ := by
  unfold Call.frame at h
  split at h
  next => contradiction
  next place hplace =>
    obtain ⟨members, hmembers, hframe⟩ := bind_eq_ok_iff.mp h
    cases hframe
    exact ⟨place, members, hplace, hmembers, rfl⟩

theorem Call.frame_eq_error (h : c.frame p stack = .error e) :
    (stack.holder? p.level = none ∧ e = ⟨.noActiveFrame p.name p.level, c.span⟩) ∨
      bindArguments stack c .empty p.params c.args = .error e := by
  unfold Call.frame at h
  split at h
  next hplace =>
    cases h
    exact .inl ⟨hplace, rfl⟩
  next =>
    rcases bind_eq_error_iff.mp h with hmembers | ⟨members, -, hframe⟩
    · exact .inr hmembers
    · contradiction

end

end NestedPascal
