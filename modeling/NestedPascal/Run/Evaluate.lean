import NestedPascal.Run.CallStack
import NestedPascal.Run.EvaluationError
import NestedPascal.Tree.Basic

/-!
# Evaluating expressions

Evaluation reads the stack and changes nothing.  Both operands of an operator are evaluated, left
first, before it is applied.
-/

namespace NestedPascal

/-- Applies an operator to two values. -/
def BinaryOperator.apply (op : BinaryOperator) (left right : Value) :
    Except EvaluationCause Value :=
  let x := left.number
  let y := right.number
  let checked (r : Except Value.RangeError Value) := r.mapError EvaluationCause.range
  match left.kind, right.kind with
  | .integer, .integer =>
    match op with
    | .add => checked (Value.checkInteger (x + y))
    | .sub => checked (Value.checkInteger (x - y))
    | .mul => checked (Value.checkInteger (x * y))
    | .intDiv =>
      if y.isZero then .error .divisionByZero else checked (Value.checkInteger (x / y).truncate)
    | .realDiv => .error (.undefinedOperands op .integer)
  | .real, .real =>
    match op with
    | .add => checked (Value.checkReal (x + y))
    | .sub => checked (Value.checkReal (x - y))
    | .mul => checked (Value.checkReal (x * y))
    | .realDiv =>
      if y.isZero then .error .divisionByZero else checked (Value.checkReal (x / y))
    | .intDiv => .error (.undefinedOperands op .real)
  | l, r => .error (.mixedOperands op l r)

/-- Applies a sign: minus subtracts from zero, plus does nothing. -/
def Sign.apply (sign : Sign) (operand : Value) : Except EvaluationCause Value :=
  match sign, operand.kind with
  | .plus, _ => .ok operand
  | .minus, .integer =>
    (Value.checkInteger (.zero false - operand.number)).mapError EvaluationCause.range
  | .minus, .real =>
    (Value.checkReal (.zero false - operand.number)).mapError EvaluationCause.range

/-- Blames a cause on a place. -/
def located (span : Span) (r : Except EvaluationCause α) : Except EvaluationError α :=
  r.mapError (⟨·, span⟩)

/-- The symbol of a reference and the place of the frame that holds it. -/
def VariableRef.locate (stack : CallStack (Frame Nat)) (r : VariableRef) :
    Except EvaluationError (VariableSymbol × Nat) :=
  match r.symbol with
  | none => .error ⟨.unresolvedVariable r.name, r.span⟩
  | some symbol =>
    match stack.holder? symbol.level with
    | none => .error ⟨.noActiveFrame symbol.name symbol.level, r.span⟩
    | some place => .ok (symbol, place)

def VariableRef.eval (stack : CallStack (Frame Nat)) (r : VariableRef) :
    Except EvaluationError Value := do
  let (symbol, place) ← r.locate stack
  match stack.frames[place]?.bind (·.get? symbol.name) with
  | some value => .ok value
  | none => .error ⟨.unassigned r.name, r.span⟩

def Expr.eval (stack : CallStack (Frame Nat)) : Expr → Except EvaluationError Value
  | .literal _ value => .ok value
  | .variable r => r.eval stack
  | .unary span sign operand => do
    let v ← operand.eval stack
    located span (sign.apply v)
  | .binary span op left right => do
    let l ← left.eval stack
    let r ← right.eval stack
    located span (op.apply l r)

end NestedPascal
