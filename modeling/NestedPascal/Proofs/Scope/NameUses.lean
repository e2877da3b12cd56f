import NestedPascal.Proofs.Scope.BlockAnalysis

/-!
# Uses of names

The references and calls of a program in the order in which their names get resolved: a call after
its arguments, the target of an assignment after the value.  Each belongs to the scope whose
statements it stands in.  Put among the requirements, they tell what has been annotated when one of
those turns out to be broken.
-/

namespace NestedPascal

/-- A reference or a call in the statements of a scope, with the symbol it is annotated with. -/
structure NameUse where
  declaration : DeclarationPath
  span : Span
  name : String
  symbol : Option ScopeSymbol

def VariableRef.use (path : DeclarationPath) (r : VariableRef) : NameUse :=
  ⟨path, r.span, r.name, r.symbol.map .variable⟩

def Call.use (path : DeclarationPath) (c : Call) : NameUse :=
  ⟨path, c.span, c.name, c.symbol.map .procedure⟩

def Expr.uses (path : DeclarationPath) : Expr → List NameUse
  | .literal .. => []
  | .variable r => [r.use path]
  | .unary _ _ operand => operand.uses path
  | .binary _ _ left right => left.uses path ++ right.uses path

def Call.uses (path : DeclarationPath) (c : Call) : List NameUse :=
  c.args.flatMap (Expr.uses path) ++ [c.use path]

mutual

def Statement.uses (path : DeclarationPath) : Statement → List NameUse
  | .compound _ children => statementUses path children
  | .assignment _ target value => value.uses path ++ [target.use path]
  | .call c => c.uses path

def statementUses (path : DeclarationPath) : List Statement → List NameUse
  | [] => []
  | s :: rest => s.uses path ++ statementUses path rest

end

mutual

def Block.uses (path : DeclarationPath) : Block → List NameUse
  | .mk _ declarations _ body => declarationUses path 0 declarations ++ statementUses path body

/-- The uses in the blocks of procedures among declarations, the first of which stands at the given
place. -/
def declarationUses (path : DeclarationPath) (place : Nat) : List Declaration → List NameUse
  | [] => []
  | .variable _ :: rest => declarationUses path (place + 1) rest
  | .procedure _ _ _ block :: rest =>
    block.uses (path ++ [place]) ++ declarationUses path (place + 1) rest

end

def Program.uses (p : Program) : List NameUse :=
  p.block.uses []

/-! ## Uses and requirements in one order -/

inductive Milestone where
  | check (r : Requirement)
  | finished (use : NameUse)

def Expr.milestones (path : DeclarationPath) (visible : Visible) : Expr → List Milestone
  | .literal .. => []
  | .variable r => [.check (.reference visible r), .finished (r.use path)]
  | .unary _ _ operand => operand.milestones path visible
  | .binary span op left right =>
    left.milestones path visible ++ right.milestones path visible ++
      [.check (.operands visible span op left right)]

def argumentMilestones (path : DeclarationPath) (visible : Visible) (c : Call) (index : Nat) :
    List Expr → List Milestone
  | [] => []
  | arg :: rest =>
    arg.milestones path visible ++ .check (.argument visible c index arg) ::
      argumentMilestones path visible c (index + 1) rest

def Call.milestones (path : DeclarationPath) (visible : Visible) (c : Call) : List Milestone :=
  .check (.callee visible c) :: .check (.argumentCount visible c) ::
    (argumentMilestones path visible c 0 c.args ++ [.finished (c.use path)])

mutual

def Statement.milestones (path : DeclarationPath) (visible : Visible) : Statement → List Milestone
  | .compound _ children => statementMilestones path visible children
  | .assignment span target value =>
    value.milestones path visible ++ [.check (.reference visible target),
      .finished (target.use path), .check (.assignment visible span target value)]
  | .call c => c.milestones path visible

def statementMilestones (path : DeclarationPath) (visible : Visible) :
    List Statement → List Milestone
  | [] => []
  | s :: rest => s.milestones path visible ++ statementMilestones path visible rest

end

mutual

/-- Of a block: the headings of its procedures, its declarations, its statements. -/
def Block.milestones (path : DeclarationPath) (params : List TypedName) (outer : Visible) :
    Block → List Milestone
  | .mk span declarations bodySpan body =>
    let scope : LexicalScope := ⟨path, params, .mk span declarations bodySpan body, outer⟩
    (headerRequirements (params.map (canonicalName ·.name)) declarations).map .check ++
      declarationMilestones path outer scope.hoisted 0 declarations ++
      statementMilestones path scope.visible body

def declarationMilestones (path : DeclarationPath) (outer : Visible) (offered : List ScopeSymbol)
    (place : Nat) : List Declaration → List Milestone
  | [] => []
  | .variable v :: rest =>
    .check (.fresh (offered.map ScopeSymbol.name) (canonicalName v.name) v.span) ::
      declarationMilestones path outer (offered ++ [.variable (v.symbol (path.length + 1))])
        (place + 1) rest
  | .procedure _ _ params block :: rest =>
    (paramRequirements [] params).map .check ++
      block.milestones (path ++ [place]) params (offered :: outer) ++
      declarationMilestones path outer offered (place + 1) rest

end

def Program.milestones (p : Program) : List Milestone :=
  p.block.milestones [] [] []

/-! ## The uses without the requirements -/

def Milestone.use? : Milestone → Option NameUse
  | .check _ => none
  | .finished use => some use

/-- The uses among milestones. -/
def usesAmong (milestones : List Milestone) : List NameUse :=
  milestones.filterMap Milestone.use?

section

variable {path : DeclarationPath} {visible : Visible}

@[simp] theorem usesAmong_nil : usesAmong [] = [] := rfl

@[simp] theorem usesAmong_check (r : Requirement) (rest : List Milestone) :
    usesAmong (.check r :: rest) = usesAmong rest := rfl

@[simp] theorem usesAmong_finished (use : NameUse) (rest : List Milestone) :
    usesAmong (.finished use :: rest) = use :: usesAmong rest := rfl

@[simp] theorem usesAmong_append (front back : List Milestone) :
    usesAmong (front ++ back) = usesAmong front ++ usesAmong back :=
  List.filterMap_append

@[simp] theorem usesAmong_map_check (requirements : List Requirement) :
    usesAmong (requirements.map .check) = [] := by
  simp [usesAmong, Milestone.use?]

@[simp] theorem Expr.usesAmong_milestones (e : Expr) :
    usesAmong (e.milestones path visible) = e.uses path := by
  induction e <;> simp_all [Expr.milestones, Expr.uses]

@[simp] theorem usesAmong_argumentMilestones (c : Call) (index : Nat) (args : List Expr) :
    usesAmong (argumentMilestones path visible c index args) = args.flatMap (Expr.uses path) := by
  induction args generalizing index with
  | nil => rfl
  | cons arg args ih => simp [argumentMilestones, ih]

@[simp] theorem Call.usesAmong_milestones (c : Call) :
    usesAmong (c.milestones path visible) = c.uses path := by
  simp [Call.milestones, Call.uses]

mutual

@[simp] theorem Statement.usesAmong_milestones :
    (s : Statement) → usesAmong (s.milestones path visible) = s.uses path
  | .compound _ children => by
    rw [Statement.milestones, Statement.uses, usesAmong_statementMilestones children]
  | .assignment .. => by simp [Statement.milestones, Statement.uses]
  | .call _ => by simp [Statement.milestones, Statement.uses]

@[simp] theorem usesAmong_statementMilestones :
    (ss : List Statement) → usesAmong (statementMilestones path visible ss) = statementUses path ss
  | [] => rfl
  | s :: rest => by
    rw [statementMilestones, statementUses, usesAmong_append, s.usesAmong_milestones,
      usesAmong_statementMilestones rest]

end

mutual

@[simp] theorem Block.usesAmong_milestones (path : DeclarationPath) (params : List TypedName)
    (outer : Visible) :
    (block : Block) → usesAmong (block.milestones path params outer) = block.uses path
  | .mk _ declarations _ _ => by
    simp [Block.milestones, Block.uses, usesAmong_declarationMilestones _ _ _ _ declarations]

@[simp] theorem usesAmong_declarationMilestones (path : DeclarationPath) (outer : Visible)
    (offered : List ScopeSymbol) (place : Nat) :
    (declarations : List Declaration) →
      usesAmong (declarationMilestones path outer offered place declarations) =
        declarationUses path place declarations
  | [] => rfl
  | .variable _ :: rest => by
    simp [declarationMilestones, declarationUses, usesAmong_declarationMilestones _ _ _ _ rest]
  | .procedure _ _ params block :: rest => by
    simp [declarationMilestones, declarationUses, block.usesAmong_milestones,
      usesAmong_declarationMilestones _ _ _ _ rest]

end

end

end NestedPascal
