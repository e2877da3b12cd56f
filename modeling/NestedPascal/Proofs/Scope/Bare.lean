import NestedPascal.Proofs.Scope.Literals
import NestedPascal.Proofs.Tree.Bare

/-!
# Analysis annotates and does nothing else

However far it gets, the tree that analysis gives back is the one it was given, but for the symbols
of references and calls.
-/

namespace NestedPascal

theorem VariableRef.bare_resolve (chain : ScopeChain) (r : VariableRef) :
    (r.resolve chain).1.bare = r.bare := by
  rw [resolve]
  split <;> rfl

theorem Expr.bare_resolve (chain : ScopeChain) (e : Expr) : (e.resolve chain).1.bare = e.bare := by
  induction e with
  | literal => rfl
  | «variable» r => simp only [resolve, bare, r.bare_resolve]
  | unary span sign operand ih => simp only [resolve, bare, ih]
  | binary span op left right ihl ihr =>
      simp only [resolve]
      split <;> simp [bare, ihl, ihr]

theorem bare_resolveArguments (chain : ScopeChain) (name : String) (position : Nat)
    (params : List VariableSymbol) (args : List Expr) :
    (resolveArguments chain name position params args).1.map Expr.bare = args.map Expr.bare := by
  induction params generalizing position args with
  | nil => rw [resolveArguments]; simp
  | cons param params ih =>
      cases args with
      | nil => rfl
      | cons arg args =>
          have harg := arg.bare_resolve chain
          simp only [resolveArguments]
          split
          next => rw [List.map_cons, List.map_cons, harg]
          next =>
            split
            next => rw [List.map_cons, List.map_cons, harg, ih]
            next => rw [List.map_cons, List.map_cons, harg]

theorem Call.bare_resolve (chain : ScopeChain) (c : Call) : (c.resolve chain).1.bare = c.bare := by
  unfold resolve
  split
  next p _ =>
    split
    next =>
      have hargs := bare_resolveArguments chain c.name 1 p.params c.args
      simp only
      split <;> simp [bare, hargs]
    next => rfl
  next => rfl

mutual

theorem Statement.bare_resolve (chain : ScopeChain) :
    (s : Statement) → (s.resolve chain).1.bare = s.bare
  | .compound span children => by
    simp only [Statement.resolve, Statement.bare, bare_resolveStatements chain children]
  | .assignment span target value => by
    have hvalue := value.bare_resolve chain
    have htarget := target.bare_resolve chain
    simp only [Statement.resolve]
    split <;> simp [Statement.bare, hvalue, htarget]
  | .call c => by
    simp only [Statement.resolve, Statement.bare, c.bare_resolve]

theorem bare_resolveStatements (chain : ScopeChain) :
    (ss : List Statement) → bareStatements (resolveStatements chain ss).1 = bareStatements ss
  | [] => by rw [resolveStatements]
  | s :: rest => by
    have hfirst := s.bare_resolve chain
    have hrest := bare_resolveStatements chain rest
    simp only [resolveStatements]
    split
    next => rw [bareStatements, bareStatements, hfirst]
    next => rw [bareStatements, bareStatements, hfirst, hrest]

end

mutual

theorem Block.bare_analyze (outer : ScopeChain) (own : ScopeTable) (path : DeclarationPath) :
    (b : Block) → (b.analyze outer own path).part.bare = b.bare
  | .mk span declarations bodySpan body => by
    rw [Block.analyze]
    split
    next => rfl
    next own' _ =>
      have hmembers := bare_analyzeDeclarations outer own' path 0 declarations
      simp only
      split
      next => rw [Analysis.within, Block.bare, Block.bare, hmembers]
      next => rw [Block.bare, Block.bare, hmembers, bare_resolveStatements]

theorem bare_analyzeDeclarations (outer : ScopeChain) (own : ScopeTable) (path : DeclarationPath)
    (place : Nat) : (declarations : List Declaration) →
      bareDeclarations (analyzeDeclarations outer own path place declarations).part =
        bareDeclarations declarations
  | [] => by rw [analyzeDeclarations]
  | .variable v :: rest => by
    rw [analyzeDeclarations]
    split
    next => rfl
    next own' _ =>
      have hrest := bare_analyzeDeclarations outer own' path (place + 1) rest
      rw [Analysis.within, bareDeclarations, bareDeclarations, hrest]
  | .procedure span name params block :: rest => by
    have hinner (table : ScopeTable) :=
      Block.bare_analyze (own :: outer) table (path ++ [place]) block
    have hrest := bare_analyzeDeclarations outer own path (place + 1) rest
    rw [analyzeDeclarations]
    have hpart : (procedureScope own span name params block fun table =>
        block.analyze (own :: outer) table (path ++ [place])).part.bare = block.bare := by
      rcases procedureScope_part own span name params block fun table =>
          block.analyze (own :: outer) table (path ++ [place]) with heq | ⟨table, heq⟩
      · rw [heq]
      · rw [heq, hinner]
    split
    next => rw [bareDeclarations, bareDeclarations, Declaration.bare, Declaration.bare, hpart]
    next => rw [Analysis.within, bareDeclarations, bareDeclarations, Declaration.bare,
        Declaration.bare, hpart, hrest]

end

theorem Program.bare_analyze (p : Program) : p.analyze.program.bare = p.bare := by
  have hblock : (p.block.analyze [] (ScopeTable.new "global" 1) []).part.bare = p.block.bare :=
    p.block.bare_analyze [] _ []
  simp only [analyze, bare, hblock]

end NestedPascal
