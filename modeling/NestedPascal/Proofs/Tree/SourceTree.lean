import NestedPascal.Proofs.Token.Image
import NestedPascal.Tree.Basic

/-!
# Trees as they come from a source

Nothing in such a tree is resolved yet, its names are identifiers, its types are the two builtin
ones, and an INTEGER literal is a whole number of 32 bits.
-/

namespace NestedPascal

/-- An INTEGER is the number of a whole number of 32 bits. -/
def Value.InRange (v : Value) : Prop :=
  v.kind = .integer → ∃ n, InIntegerRange n ∧ v.number = .ofInt n

structure VariableRef.FromSource (r : VariableRef) : Prop where
  name : IsIdentifier r.name
  unresolved : r.symbol = none

def Expr.FromSource : Expr → Prop
  | .literal _ value => value.InRange
  | .variable r => r.FromSource
  | .unary _ _ operand => operand.FromSource
  | .binary _ _ left right => left.FromSource ∧ right.FromSource

structure Call.FromSource (c : Call) : Prop where
  name : IsIdentifier c.name
  unresolved : c.symbol = none
  args : ∀ arg ∈ c.args, arg.FromSource

mutual

def Statement.FromSource : Statement → Prop
  | .compound _ children => statementsFromSource children
  | .assignment _ target value => target.FromSource ∧ value.FromSource
  | .call c => c.FromSource

def statementsFromSource : List Statement → Prop
  | [] => True
  | s :: rest => s.FromSource ∧ statementsFromSource rest

end

/-- The type of a declared name is builtin. -/
structure TypedName.FromSource (v : TypedName) : Prop where
  name : IsIdentifier v.name
  type : canonicalName v.type.text = "integer" ∨ canonicalName v.type.text = "real"

mutual

def Block.FromSource : Block → Prop
  | .mk _ declarations _ body => declarationsFromSource declarations ∧ statementsFromSource body

def Declaration.FromSource : Declaration → Prop
  | .variable v => v.FromSource
  | .procedure _ name params block =>
    IsIdentifier name ∧ (∀ p ∈ params, p.FromSource) ∧ block.FromSource

def declarationsFromSource : List Declaration → Prop
  | [] => True
  | d :: rest => d.FromSource ∧ declarationsFromSource rest

end

structure Program.FromSource (p : Program) : Prop where
  name : IsIdentifier p.name
  block : p.block.FromSource

theorem declarationsFromSource_iff {declarations : List Declaration} :
    declarationsFromSource declarations ↔ ∀ d ∈ declarations, d.FromSource := by
  induction declarations with
  | nil => simp [declarationsFromSource]
  | cons d rest ih => simp [declarationsFromSource, ih]

theorem Block.fromSource_iff {b : Block} :
    b.FromSource ↔ declarationsFromSource b.declarations ∧ statementsFromSource b.body := by
  cases b
  rw [Block.FromSource, Block.declarations, Block.body]

end NestedPascal
