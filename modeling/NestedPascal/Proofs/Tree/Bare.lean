import NestedPascal.Proofs.Tree.SourceTree

/-!
# Trees without annotations

What is left of a tree when the symbols of its references and calls are taken away.  A tree as it
comes from a source has none.
-/

namespace NestedPascal

def VariableRef.bare (r : VariableRef) : VariableRef :=
  { r with symbol := none }

def Expr.bare : Expr → Expr
  | .literal span value => .literal span value
  | .variable r => .variable r.bare
  | .unary span sign operand => .unary span sign operand.bare
  | .binary span op left right => .binary span op left.bare right.bare

def Call.bare (c : Call) : Call :=
  { c with args := c.args.map Expr.bare, symbol := none }

mutual

def Statement.bare : Statement → Statement
  | .compound span children => .compound span (bareStatements children)
  | .assignment span target value => .assignment span target.bare value.bare
  | .call c => .call c.bare

def bareStatements : List Statement → List Statement
  | [] => []
  | s :: rest => s.bare :: bareStatements rest

end

mutual

def Block.bare : Block → Block
  | .mk span declarations bodySpan body =>
    .mk span (bareDeclarations declarations) bodySpan (bareStatements body)

def Declaration.bare : Declaration → Declaration
  | .variable v => .variable v
  | .procedure span name params block => .procedure span name params block.bare

def bareDeclarations : List Declaration → List Declaration
  | [] => []
  | d :: rest => d.bare :: bareDeclarations rest

end

def Program.bare (p : Program) : Program :=
  { p with block := p.block.bare }

/-! ## Trees from a source -/

theorem VariableRef.FromSource.bare_eq {r : VariableRef} (hr : r.FromSource) : r.bare = r := by
  rw [VariableRef.bare, ← hr.unresolved]

theorem Expr.bare_eq_of_fromSource {e : Expr} (he : e.FromSource) : e.bare = e := by
  induction e with
  | literal => rfl
  | «variable» r => rw [Expr.bare, VariableRef.FromSource.bare_eq he]
  | unary span sign operand ih => rw [Expr.bare, ih he]
  | binary span op left right ihl ihr => rw [Expr.bare, ihl he.1, ihr he.2]

theorem Call.FromSource.bare_eq {c : Call} (hc : c.FromSource) : c.bare = c := by
  have hargs : c.args.map Expr.bare = c.args := by
    rw [List.map_congr_left fun arg harg => Expr.bare_eq_of_fromSource (hc.args arg harg),
      List.map_id']
  rw [Call.bare, hargs, ← hc.unresolved]

mutual

theorem Statement.bare_eq_of_fromSource : (s : Statement) → s.FromSource → s.bare = s
  | .compound _ children, hs => by
    rw [Statement.bare, bareStatements_eq_of_fromSource children hs]
  | .assignment _ _ _, hs => by
    rw [Statement.bare, hs.1.bare_eq, Expr.bare_eq_of_fromSource hs.2]
  | .call _, hs => by
    rw [Statement.bare, Call.FromSource.bare_eq hs]

theorem bareStatements_eq_of_fromSource :
    (ss : List Statement) → statementsFromSource ss → bareStatements ss = ss
  | [], _ => rfl
  | s :: rest, hs => by
    rw [bareStatements, s.bare_eq_of_fromSource hs.1, bareStatements_eq_of_fromSource rest hs.2]

end

mutual

theorem Block.bare_eq_of_fromSource : (b : Block) → b.FromSource → b.bare = b
  | .mk _ declarations _ body, hb => by
    rw [Block.bare, bareDeclarations_eq_of_fromSource declarations hb.1,
      bareStatements_eq_of_fromSource body hb.2]

theorem Declaration.bare_eq_of_fromSource : (d : Declaration) → d.FromSource → d.bare = d
  | .variable _, _ => rfl
  | .procedure _ _ _ block, hd => by
    rw [Declaration.bare, block.bare_eq_of_fromSource hd.2.2]

theorem bareDeclarations_eq_of_fromSource : (declarations : List Declaration) →
    declarationsFromSource declarations → bareDeclarations declarations = declarations
  | [], _ => rfl
  | d :: rest, hd => by
    rw [bareDeclarations, d.bare_eq_of_fromSource hd.1,
      bareDeclarations_eq_of_fromSource rest hd.2]

end

theorem Program.FromSource.bare_eq {p : Program} (hp : p.FromSource) : p.bare = p := by
  rw [Program.bare, p.block.bare_eq_of_fromSource hp.block]

end NestedPascal
