import NestedPascal.Scope.Symbol
import NestedPascal.Span
import NestedPascal.Tree.Operator

/-!
# Program trees

The tree of a program, every node with its span.  References and calls carry the symbol that they
were resolved to, none before analysis.  A declaration of several names is one node for each name.
-/

namespace NestedPascal

structure VariableRef where
  span : Span
  /-- The name as it is written. -/
  name : String
  symbol : Option VariableSymbol := none
deriving DecidableEq

inductive Expr where
  | literal (span : Span) (value : Value)
  | variable (ref : VariableRef)
  | unary (span : Span) (sign : Sign) (operand : Expr)
  | binary (span : Span) (op : BinaryOperator) (left right : Expr)
deriving DecidableEq

def Expr.span : Expr → Span
  | .literal span _ => span
  | .variable ref => ref.span
  | .unary span _ _ => span
  | .binary span _ _ _ => span

structure Call where
  span : Span
  name : String
  args : List Expr
  symbol : Option ProcedureSymbol := none

inductive Statement where
  | compound (span : Span) (children : List Statement)
  | assignment (span : Span) (target : VariableRef) (value : Expr)
  | call (c : Call)

structure TypeName where
  span : Span
  text : String
deriving DecidableEq

/-- A declared variable or parameter. -/
structure TypedName where
  span : Span
  name : String
  type : TypeName
deriving DecidableEq

mutual

inductive Block where
  | mk (span : Span) (declarations : List Declaration) (bodySpan : Span) (body : List Statement)

inductive Declaration where
  | variable (v : TypedName)
  | procedure (span : Span) (name : String) (params : List TypedName) (block : Block)

end

namespace Block

def span : Block → Span
  | .mk span _ _ _ => span

def declarations : Block → List Declaration
  | .mk _ declarations _ _ => declarations

def bodySpan : Block → Span
  | .mk _ _ bodySpan _ => bodySpan

def body : Block → List Statement
  | .mk _ _ _ body => body

/-- The block of the procedure that a path leads to. -/
def at? : Block → DeclarationPath → Option Block
  | block, [] => some block
  | block, i :: path =>
    match block.declarations[i]? with
    | some (.procedure _ _ _ inner) => inner.at? path
    | _ => none

end Block

structure Program where
  file : String
  span : Span
  name : String
  block : Block

end NestedPascal
