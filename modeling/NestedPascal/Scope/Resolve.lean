import NestedPascal.Scope.SemanticError
import NestedPascal.Scope.Table
import NestedPascal.Tree.Basic

/-!
# Resolving names in expressions and statements

Resolution goes through a tree in source order and annotates references and calls with the symbols
they denote, up to the first problem.  What it returns is the tree as far as it was annotated
and either what was asked for or the problem.  A call is annotated only after its arguments have
passed; the target of an assignment after its value, and before their kinds are compared.
-/

namespace NestedPascal

/-- A tree as annotated so far, and the outcome. -/
abbrev Resolved (α ε : Type) := α × Except SemanticError ε

def VariableRef.resolve (chain : ScopeChain) (r : VariableRef) :
    Resolved VariableRef VariableSymbol :=
  match chain.lookup (canonicalName r.name) with
  | some (.variable v) => ({ r with symbol := some v }, .ok v)
  | _ => (r, .error ⟨.unknownVariable r.name, r.span⟩)

/-- Whether the operator is defined for two operands of the kind. -/
def BinaryOperator.definedFor : BinaryOperator → Kind → Bool
  | .intDiv, .real => false
  | .realDiv, .integer => false
  | _, _ => true

def BinaryOperator.check (op : BinaryOperator) (span : Span) (left right : Kind) :
    Except SemanticError Kind :=
  if left ≠ right then .error ⟨.mixedOperands op left right, span⟩
  else if op.definedFor left then .ok left
  else .error ⟨.undefinedOperands op left, span⟩

/-- Resolves an expression and infers its kind. -/
def Expr.resolve (chain : ScopeChain) : Expr → Resolved Expr Kind
  | .literal span value => (.literal span value, .ok value.kind)
  | .variable r =>
    let resolved := r.resolve chain
    (.variable resolved.1, resolved.2.map VariableSymbol.kind)
  | .unary span sign operand =>
    let resolved := operand.resolve chain
    (.unary span sign resolved.1, resolved.2)
  | .binary span op left right =>
    let l := left.resolve chain
    match l.2 with
    | .error e => (.binary span op l.1 right, .error e)
    | .ok leftKind =>
      let r := right.resolve chain
      (.binary span op l.1 r.1, do op.check span leftKind (← r.2))

/-- Resolves the arguments from the given position on, against the parameters they are for. -/
def resolveArguments (chain : ScopeChain) (name : String) (position : Nat) :
    List VariableSymbol → List Expr → Resolved (List Expr) Unit
  | param :: params, arg :: args =>
    let resolved := arg.resolve chain
    match resolved.2 with
    | .error e => (resolved.1 :: args, .error e)
    | .ok kind =>
      if kind.assignable param.kind then
        let rest := resolveArguments chain name (position + 1) params args
        (resolved.1 :: rest.1, rest.2)
      else
        (resolved.1 :: args, .error ⟨.argument position name param.kind kind, arg.span⟩)
  | _, args => (args, .ok ())

def Call.resolve (chain : ScopeChain) (c : Call) : Resolved Call Unit :=
  match chain.lookup (canonicalName c.name) with
  | some (.procedure p) =>
    if p.params.length = c.args.length then
      let args := resolveArguments chain c.name 1 p.params c.args
      match args.2 with
      | .ok () => ({ c with args := args.1, symbol := some p }, .ok ())
      | .error e => ({ c with args := args.1 }, .error e)
    else
      (c, .error ⟨.argumentCount c.name p.params.length c.args.length, c.span⟩)
  | _ => (c, .error ⟨.unknownProcedure c.name, c.span⟩)

mutual

def Statement.resolve (chain : ScopeChain) : Statement → Resolved Statement Unit
  | .compound span children =>
    let resolved := resolveStatements chain children
    (.compound span resolved.1, resolved.2)
  | .assignment span target value =>
    let v := value.resolve chain
    match v.2 with
    | .error e => (.assignment span target v.1, .error e)
    | .ok kind =>
      let t := target.resolve chain
      (.assignment span t.1 v.1, do
        let symbol ← t.2
        if kind.assignable symbol.kind then .ok ()
        else .error ⟨.assignment target.name symbol.kind kind, span⟩)
  | .call c =>
    let resolved := c.resolve chain
    (.call resolved.1, resolved.2)

def resolveStatements (chain : ScopeChain) : List Statement → Resolved (List Statement) Unit
  | [] => ([], .ok ())
  | s :: rest =>
    let first := s.resolve chain
    match first.2 with
    | .error e => (first.1 :: rest, .error e)
    | .ok () =>
      let more := resolveStatements chain rest
      (first.1 :: more.1, more.2)

end

end NestedPascal
