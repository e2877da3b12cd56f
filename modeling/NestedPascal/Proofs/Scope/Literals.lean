import NestedPascal.Proofs.Scope.WellFormed
import NestedPascal.Scope.Analysis

/-!
# Literals

The literals of a tree are listed with their values, in the order of the source.  Analysis annotates
references and calls and leaves the literals as they are, wherever it stops.
-/

namespace NestedPascal

/-! ## The literals of a tree -/

def Expr.literals : Expr → List Value
  | .literal _ value => [value]
  | .variable _ => []
  | .unary _ _ operand => operand.literals
  | .binary _ _ left right => left.literals ++ right.literals

def Call.literals (c : Call) : List Value :=
  c.args.flatMap Expr.literals

mutual

def Statement.literals : Statement → List Value
  | .compound _ children => statementLiterals children
  | .assignment _ _ value => value.literals
  | .call c => c.literals

def statementLiterals : List Statement → List Value
  | [] => []
  | s :: rest => s.literals ++ statementLiterals rest

end

mutual

def Block.literals : Block → List Value
  | .mk _ declarations _ body => declarationLiterals declarations ++ statementLiterals body

def Declaration.literals : Declaration → List Value
  | .variable _ => []
  | .procedure _ _ _ block => block.literals

def declarationLiterals : List Declaration → List Value
  | [] => []
  | d :: rest => d.literals ++ declarationLiterals rest

end

theorem statementLiterals_append (front back : List Statement) :
    statementLiterals (front ++ back) = statementLiterals front ++ statementLiterals back := by
  induction front with
  | nil => rfl
  | cons s rest ih => simp [statementLiterals, ih]

theorem declarationLiterals_eq (declarations : List Declaration) :
    declarationLiterals declarations = declarations.flatMap Declaration.literals := by
  induction declarations with
  | nil => rfl
  | cons d rest ih => rw [declarationLiterals, List.flatMap_cons, ih]

theorem Block.body_literals_subset (b : Block) : statementLiterals b.body ⊆ b.literals := by
  obtain ⟨span, declarations, bodySpan, body⟩ := b
  rw [literals, Block.body]
  exact List.subset_append_right ..

/-- The literals of a procedure are literals of the block it is declared in. -/
theorem Block.literals_subset_of_at? {b inner : Block} {path : DeclarationPath}
    (h : b.at? path = some inner) : inner.literals ⊆ b.literals := by
  induction path generalizing b with
  | nil =>
      cases h
      exact List.Subset.refl _
  | cons i path ih =>
      rw [Block.at?] at h
      split at h
      next span name params block hget =>
        obtain ⟨blockSpan, declarations, bodySpan, body⟩ := b
        intro v hv
        rw [literals, declarationLiterals_eq, List.mem_append, List.mem_flatMap]
        exact .inl ⟨_, List.mem_of_getElem? hget, ih h hv⟩
      next => contradiction

theorem Expr.literals_subset_of_mem_subterms {e x : Expr} (h : e ∈ x.subterms) :
    e.literals ⊆ x.literals := by
  induction x with
  | literal span value => rw [List.mem_singleton.mp h]; exact List.Subset.refl _
  | «variable» r => rw [List.mem_singleton.mp h]; exact List.Subset.refl _
  | unary span sign operand ih =>
      rcases List.mem_cons.mp h with rfl | h
      · exact List.Subset.refl _
      · exact ih h
  | binary span op left right ihl ihr =>
      rw [subterms, List.mem_cons, List.mem_append] at h
      rcases h with rfl | h | h
      · exact List.Subset.refl _
      · exact List.subset_append_of_subset_left _ (ihl h)
      · exact List.subset_append_of_subset_right _ (ihr h)

theorem Statement.expression_literals_subset {st : Statement} {x : Expr} (h : x ∈ st.expressions) :
    x.literals ⊆ st.literals := by
  cases st with
  | compound => contradiction
  | assignment span target value =>
      rw [List.mem_singleton.mp h]
      exact List.Subset.refl _
  | call c => exact fun v hv => List.mem_flatMap.mpr ⟨x, h, hv⟩

mutual

theorem Statement.simple_literals_subset : (s : Statement) → ∀ st ∈ s.simple,
    st.literals ⊆ s.literals
  | .compound _ children, st, hst => simpleStatements_literals_subset children st hst
  | .assignment _ _ _, st, hst => by
    rw [List.mem_singleton.mp hst]
    exact List.Subset.refl _
  | .call _, st, hst => by
    rw [List.mem_singleton.mp hst]
    exact List.Subset.refl _

theorem simpleStatements_literals_subset : (ss : List Statement) → ∀ st ∈ simpleStatements ss,
    st.literals ⊆ statementLiterals ss
  | [], _, hst => absurd hst List.not_mem_nil
  | s :: rest, st, hst => by
    rcases List.mem_append.mp hst with hfirst | hrest
    · exact List.subset_append_of_subset_left _ (s.simple_literals_subset st hfirst)
    · exact List.subset_append_of_subset_right _ (simpleStatements_literals_subset rest st hrest)

end

/-! ## Analysis keeps them -/

theorem Expr.resolve_literals (chain : ScopeChain) (e : Expr) :
    (e.resolve chain).1.literals = e.literals := by
  induction e with
  | literal => rfl
  | «variable» => rfl
  | unary span sign operand ih => exact ih
  | binary span op left right ihl ihr =>
      rw [resolve]
      simp only
      split <;> simp [literals, ihl, ihr]

theorem resolveArguments_literals (chain : ScopeChain) (name : String) (position : Nat)
    (params : List VariableSymbol) (args : List Expr) :
    (resolveArguments chain name position params args).1.flatMap Expr.literals =
      args.flatMap Expr.literals := by
  induction params generalizing position args with
  | nil => rw [resolveArguments]; simp
  | cons param params ih =>
      cases args with
      | nil => rfl
      | cons arg args =>
          have harg := arg.resolve_literals chain
          rw [resolveArguments]
          simp only
          split
          next => rw [List.flatMap_cons, List.flatMap_cons, harg]
          next =>
            split
            next => rw [List.flatMap_cons, List.flatMap_cons, harg, ih]
            next => rw [List.flatMap_cons, List.flatMap_cons, harg]

theorem Call.resolve_literals (chain : ScopeChain) (c : Call) :
    (c.resolve chain).1.literals = c.literals := by
  unfold resolve
  split
  next p _ =>
    split
    next =>
      have hargs := resolveArguments_literals chain c.name 1 p.params c.args
      simp only
      split <;> exact hargs
    next => rfl
  next => rfl

mutual

theorem Statement.resolve_literals (chain : ScopeChain) :
    (s : Statement) → (s.resolve chain).1.literals = s.literals
  | .compound span children => by
    rw [Statement.resolve, Statement.literals, Statement.literals]
    exact resolveStatements_literals chain children
  | .assignment span target value => by
    rw [Statement.resolve]
    simp only
    split <;> exact value.resolve_literals chain
  | .call c => by
    rw [Statement.resolve, Statement.literals, Statement.literals]
    exact c.resolve_literals chain

theorem resolveStatements_literals (chain : ScopeChain) :
    (ss : List Statement) → statementLiterals (resolveStatements chain ss).1 = statementLiterals ss
  | [] => by rw [resolveStatements]
  | s :: rest => by
    have hfirst := s.resolve_literals chain
    have hrest := resolveStatements_literals chain rest
    rw [resolveStatements]
    simp only
    split
    next => rw [statementLiterals, statementLiterals, hfirst]
    next => rw [statementLiterals, statementLiterals, hfirst, hrest]

end

/-- The body of a procedure is left alone if its parameters are refused. -/
theorem procedureScope_part (enclosing : ScopeTable) (span : Span) (name : String)
    (params : List TypedName) (block : Block) (analyzeBody : ScopeTable → Analysis Block) :
    (procedureScope enclosing span name params block analyzeBody).part = block ∨
      ∃ table, (procedureScope enclosing span name params block analyzeBody).part =
        (analyzeBody table).part := by
  simp only [procedureScope]
  split
  next => exact .inl rfl
  next table _ => exact .inr ⟨table, rfl⟩

mutual

theorem Block.analyze_literals (outer : ScopeChain) (own : ScopeTable) (path : DeclarationPath) :
    (b : Block) → (b.analyze outer own path).part.literals = b.literals
  | .mk span declarations bodySpan body => by
    rw [Block.analyze]
    split
    next => rfl
    next own' _ =>
      have hmembers := analyzeDeclarations_literals outer own' path 0 declarations
      simp only
      split
      next => rw [Analysis.within, Block.literals, Block.literals, hmembers]
      next => rw [Block.literals, Block.literals, hmembers, resolveStatements_literals]

theorem analyzeDeclarations_literals (outer : ScopeChain) (own : ScopeTable)
    (path : DeclarationPath) (place : Nat) : (declarations : List Declaration) →
      declarationLiterals (analyzeDeclarations outer own path place declarations).part =
        declarationLiterals declarations
  | [] => by rw [analyzeDeclarations]
  | .variable v :: rest => by
    rw [analyzeDeclarations]
    split
    next => rfl
    next own' _ =>
      have hrest := analyzeDeclarations_literals outer own' path (place + 1) rest
      rw [Analysis.within, declarationLiterals, declarationLiterals, hrest]
  | .procedure span name params block :: rest => by
    have hinner (table : ScopeTable) :=
      Block.analyze_literals (own :: outer) table (path ++ [place]) block
    have hrest := analyzeDeclarations_literals outer own path (place + 1) rest
    rw [analyzeDeclarations]
    have hpart : (procedureScope own span name params block fun table =>
        block.analyze (own :: outer) table (path ++ [place])).part.literals = block.literals := by
      rcases procedureScope_part own span name params block fun table =>
          block.analyze (own :: outer) table (path ++ [place]) with heq | ⟨table, heq⟩
      · rw [heq]
      · rw [heq, hinner]
    split
    next => rw [declarationLiterals, declarationLiterals, Declaration.literals,
        Declaration.literals, hpart]
    next => rw [Analysis.within, declarationLiterals, declarationLiterals, Declaration.literals,
        Declaration.literals, hpart, hrest]

end

theorem Program.analyze_literals (p : Program) :
    p.analyze.program.block.literals = p.block.literals :=
  p.block.analyze_literals [] _ []

end NestedPascal
