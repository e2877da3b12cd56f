import NestedPascal.Diagnostic
import NestedPascal.Run.DepthLimit
import NestedPascal.Tree.Operator
import NestedPascal.Value

/-!
# Evaluation errors

The reasons why a run fails.  Of an analysed program only overflow, an invalid real, division by
zero, a variable that has no value yet and the limit on the depth of calls can come up.
-/

namespace NestedPascal

inductive EvaluationCause where
  | range (e : Value.RangeError)
  | divisionByZero
  | unassigned (name : String)
  | unresolvedVariable (name : String)
  | unresolvedCall (name : String)
  | depthLimit (limit : DepthLimit) (call procedure : String)
  | missingArgument (param call : String)
  | noActiveFrame (name : String) (level : Nat)
  | mixedOperands (op : BinaryOperator) (left right : Kind)
  | undefinedOperands (op : BinaryOperator) (kind : Kind)
deriving DecidableEq

namespace EvaluationCause

def code : EvaluationCause → ErrorCode
  | depthLimit .. => .callDepth
  | _ => .evaluation

def message : EvaluationCause → String
  | range (.integerOverflow _) => "Integer overflow."
  | range (.invalidReal _) => "Invalid real value."
  | divisionByZero => "Division by zero."
  | unassigned name => "Variable '" ++ name ++ "' is used before it is assigned."
  | unresolvedVariable name => "Variable '" ++ name ++ "' has not been analyzed."
  | unresolvedCall name => "Call to '" ++ name ++ "' has not been analyzed."
  | depthLimit limit call _ =>
    "Call depth limit of " ++ limit.number.text ++ " exceeded calling '" ++ call ++ "'."
  | missingArgument param call =>
    "Missing argument for '" ++ param ++ "' in call to '" ++ call ++ "'."
  | noActiveFrame name _ => "No active frame holds '" ++ name ++ "'."
  | mixedOperands op left right =>
    "Operator '" ++ op.text ++ "' cannot combine " ++ left.text ++ " and " ++ right.text ++ "."
  | undefinedOperands op kind =>
    "Operator '" ++ op.text ++ "' is not defined for " ++ kind.text ++ " operands."

private def operandKinds (op : BinaryOperator) (left right : Kind) : Json :=
  .ofFields [("op", some (.ofString op.text)), ("left", some (.ofString left.text)),
    ("right", some (.ofString right.text))]

def details? : EvaluationCause → Option Json
  | range (.integerOverflow x) | range (.invalidReal x) =>
    some (.ofFields [("value", some (.ofString x.text))])
  | unassigned name => some (.ofFields [("name", some (.ofString name))])
  | depthLimit limit _ procedure =>
    some (.ofFields [("limit", some (.number limit.number)), ("procedure", some (.ofString procedure))])
  | noActiveFrame name level =>
    some (.ofFields [("name", some (.ofString name)), ("level", some (.ofNat level))])
  | mixedOperands op left right => some (operandKinds op left right)
  | undefinedOperands op kind => some (operandKinds op kind kind)
  | divisionByZero | unresolvedVariable _ | unresolvedCall _ | missingArgument .. => none

end EvaluationCause

structure EvaluationError where
  cause : EvaluationCause
  span : Span
deriving DecidableEq

def EvaluationError.diagnostic (file : String) (e : EvaluationError) : Diagnostic :=
  .report e.cause.code.text e.cause.message (some (e.span.inFile file))

end NestedPascal
