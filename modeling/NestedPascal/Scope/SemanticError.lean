import NestedPascal.Diagnostic
import NestedPascal.Tree.Operator
import NestedPascal.Value

/-!
# Semantic errors

The reasons why a program is not well formed.  Messages show names as they are written.
-/

namespace NestedPascal

inductive SemanticCause where
  | duplicate (name scope : String)
  | unknownType (name : String)
  | unknownProcedure (name : String)
  | unknownVariable (name : String)
  | argumentCount (name : String) (expected actual : Nat)
  | assignment (name : String) (expected actual : Kind)
  | argument (position : Nat) (name : String) (expected actual : Kind)
  | mixedOperands (op : BinaryOperator) (left right : Kind)
  | undefinedOperands (op : BinaryOperator) (kind : Kind)
deriving DecidableEq

namespace SemanticCause

def code : SemanticCause → ErrorCode
  | duplicate .. => .duplicateId
  | unknownType _ | unknownProcedure _ | unknownVariable _ => .idNotFound
  | argumentCount .. => .paramCount
  | assignment .. | argument .. | mixedOperands .. | undefinedOperands .. => .typeMismatch

def message : SemanticCause → String
  | duplicate name scope => "Duplicate identifier '" ++ name ++ "' in scope '" ++ scope ++ "'."
  | unknownType name => "Identifier not found: type '" ++ name ++ "'."
  | unknownProcedure name => "Identifier not found: procedure '" ++ name ++ "'."
  | unknownVariable name => "Identifier not found: '" ++ name ++ "'."
  | argumentCount name expected actual =>
    "Procedure '" ++ name ++ "' expects " ++ toString expected ++ " argument(s), got " ++
      toString actual ++ "."
  | assignment name expected actual =>
    "Cannot assign a " ++ actual.text ++ " value to " ++ expected.text ++ " variable '" ++ name ++
      "'."
  | argument position name expected actual =>
    "Argument " ++ toString position ++ " of '" ++ name ++ "' is " ++ actual.text ++
      ", expected " ++ expected.text ++ "."
  | mixedOperands op left right =>
    "Operator '" ++ op.text ++ "' cannot combine " ++ left.text ++ " and " ++ right.text ++ "."
  | undefinedOperands op kind =>
    "Operator '" ++ op.text ++ "' is not defined for " ++ kind.text ++ " operands."

private def kindMismatch (name : String) (expected actual : Kind) : Json :=
  .ofFields [("name", some (.ofString name)), ("expected", some (.ofString expected.text)),
    ("actual", some (.ofString actual.text))]

private def operands (op : BinaryOperator) (left right : Kind) : Json :=
  .ofFields [("op", some (.ofString op.text)), ("left", some (.ofString left.text)),
    ("right", some (.ofString right.text))]

def details : SemanticCause → Json
  | duplicate name scope =>
    .ofFields [("name", some (.ofString name)), ("scope", some (.ofString scope))]
  | unknownType name | unknownProcedure name | unknownVariable name =>
    .ofFields [("name", some (.ofString name))]
  | argumentCount name expected actual =>
    .ofFields [("name", some (.ofString name)), ("expected", some (.ofNat expected)),
      ("actual", some (.ofNat actual))]
  | assignment name expected actual => kindMismatch name expected actual
  | argument _ name expected actual => kindMismatch name expected actual
  | mixedOperands op left right => operands op left right
  | undefinedOperands op kind => operands op kind kind

end SemanticCause

structure SemanticError where
  cause : SemanticCause
  span : Span
deriving DecidableEq

def SemanticError.diagnostic (file : String) (e : SemanticError) : Diagnostic :=
  .report e.cause.code.text e.cause.message (some (e.span.inFile file))

end NestedPascal
