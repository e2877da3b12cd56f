/-!
# Operators

The binary operators and the signs of the language, with the text that names each of them.
-/

namespace NestedPascal

inductive BinaryOperator where
  | add
  | sub
  | mul
  | intDiv
  | realDiv
deriving DecidableEq, Repr

def BinaryOperator.text : BinaryOperator → String
  | .add => "+"
  | .sub => "-"
  | .mul => "*"
  | .intDiv => "DIV"
  | .realDiv => "/"

inductive Sign where
  | plus
  | minus
deriving DecidableEq, Repr

def Sign.text : Sign → String
  | .plus => "+"
  | .minus => "-"

end NestedPascal
