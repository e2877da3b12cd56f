import NestedPascal.Name
import NestedPascal.Value

/-!
# Symbols

What a name can denote: a builtin type, a variable or a procedure.  A variable or procedure has the
level of the scope that declares it; the body of a procedure runs one level deeper.  A procedure
also knows which declaration it is, by the way that leads to it from the program's block.
-/

namespace NestedPascal

structure VariableSymbol where
  name : String
  kind : Kind
  level : Nat
deriving DecidableEq, Inhabited

/-- The way from a block to a procedure declared in it: at each step the place of a declaration in
the block reached so far. -/
abbrev DeclarationPath := List Nat

structure ProcedureSymbol where
  name : String
  params : List VariableSymbol
  level : Nat
  declaration : DeclarationPath
deriving DecidableEq, Inhabited

inductive ScopeSymbol where
  | builtinType (kind : Kind)
  | variable (v : VariableSymbol)
  | procedure (p : ProcedureSymbol)
deriving DecidableEq

def ScopeSymbol.name : ScopeSymbol → String
  | .builtinType kind => kind.text
  | .variable v => v.name
  | .procedure p => p.name

end NestedPascal
