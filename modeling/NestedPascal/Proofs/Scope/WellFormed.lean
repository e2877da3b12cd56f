import NestedPascal.Proofs.Scope.Visibility
import NestedPascal.Scope.SemanticError

/-!
# Well-formed programs

When a program is well formed, said without tables or order: in each scope the declared names differ,
calls and references denote what they must under lexical visibility, and kinds fit.  Beside it stand
the single requirements behind this, in the order in which a reader from top to bottom who takes the
procedure headers of each block first would check them.  A rejected program is told the first that
fails.
-/

namespace NestedPascal

/-- INTEGER flows into REAL, nothing flows the other way. -/
def Kind.FlowsInto (source target : Kind) : Prop :=
  source = target ∨ source = .integer ∧ target = .real

/-- DIV is for INTEGERs only and the slash for REALs only. -/
def BinaryOperator.Admits (op : BinaryOperator) (kind : Kind) : Prop :=
  (op = .intDiv → kind = .integer) ∧ (op = .realDiv → kind = .real)

/-- The kind of an expression, where every name in it denotes a variable. -/
def Expr.kindIn? (visible : Visible) : Expr → Option Kind
  | .literal _ value => some value.kind
  | .variable r =>
    match visible.denote (canonicalName r.name) with
    | some (.variable v) => some v.kind
    | _ => none
  | .unary _ _ operand => operand.kindIn? visible
  | .binary _ _ left _ => left.kindIn? visible

/-- An expression and all expressions inside it. -/
def Expr.subterms : Expr → List Expr
  | .literal span value => [.literal span value]
  | .variable r => [.variable r]
  | .unary span sign operand => .unary span sign operand :: operand.subterms
  | .binary span op left right => .binary span op left right :: (left.subterms ++ right.subterms)

mutual

/-- The assignments and calls of a statement, compounds taken apart. -/
def Statement.simple : Statement → List Statement
  | .compound _ children => simpleStatements children
  | .assignment span target value => [.assignment span target value]
  | .call c => [.call c]

def simpleStatements : List Statement → List Statement
  | [] => []
  | s :: rest => s.simple ++ simpleStatements rest

end

def Statement.expressions : Statement → List Expr
  | .compound .. => []
  | .assignment _ _ value => [value]
  | .call c => c.args

structure LexicalScope.WellFormed (s : LexicalScope) : Prop where
  distinct : (s.offered.map ScopeSymbol.name).Nodup
  calls : ∀ c, .call c ∈ simpleStatements s.block.body →
    ∃ q, s.visible.denote (canonicalName c.name) = some (.procedure q) ∧
      q.params.length = c.args.length
  references : ∀ st ∈ simpleStatements s.block.body, ∀ e ∈ st.expressions,
    ∀ r, .variable r ∈ e.subterms →
      ∃ v, s.visible.denote (canonicalName r.name) = some (.variable v)
  targets : ∀ span target value, .assignment span target value ∈ simpleStatements s.block.body →
    ∃ v, s.visible.denote (canonicalName target.name) = some (.variable v)
  operands : ∀ st ∈ simpleStatements s.block.body, ∀ e ∈ st.expressions,
    ∀ span op left right, .binary span op left right ∈ e.subterms →
      ∃ kind, left.kindIn? s.visible = some kind ∧ right.kindIn? s.visible = some kind ∧
        op.Admits kind
  assignments : ∀ span target value,
    .assignment span target value ∈ simpleStatements s.block.body →
      ∃ v kind, s.visible.denote (canonicalName target.name) = some (.variable v) ∧
        value.kindIn? s.visible = some kind ∧ kind.FlowsInto v.kind
  arguments : ∀ c, .call c ∈ simpleStatements s.block.body →
    ∃ q, s.visible.denote (canonicalName c.name) = some (.procedure q) ∧
      ∀ (i : Nat) param arg, q.params[i]? = some param → c.args[i]? = some arg →
        ∃ kind, arg.kindIn? s.visible = some kind ∧ kind.FlowsInto param.kind

def Program.WellFormed (p : Program) : Prop :=
  ∀ path s, p.scope? path = some s → s.WellFormed

/-! ## Single requirements in order -/

/-- Something that must hold at one place of a program. -/
inductive Requirement where
  /-- A declared name is none of those entered before it. -/
  | fresh (entered : List String) (name : String) (span : Span)
  | callee (visible : Visible) (c : Call)
  | argumentCount (visible : Visible) (c : Call)
  | argument (visible : Visible) (c : Call) (index : Nat) (arg : Expr)
  | reference (visible : Visible) (r : VariableRef)
  | operands (visible : Visible) (span : Span) (op : BinaryOperator) (left right : Expr)
  | assignment (visible : Visible) (span : Span) (target : VariableRef) (value : Expr)

namespace Requirement

/-- What is required.  The later requirements of a phrase say something only where the earlier ones
hold. -/
def Holds : Requirement → Prop
  | fresh entered name _ => name ∉ entered
  | callee visible c => ∃ q, visible.denote (canonicalName c.name) = some (.procedure q)
  | argumentCount visible c => ∀ q, visible.denote (canonicalName c.name) = some (.procedure q) →
    q.params.length = c.args.length
  | argument visible c index arg =>
    ∀ q param kind, visible.denote (canonicalName c.name) = some (.procedure q) →
      q.params[index]? = some param → arg.kindIn? visible = some kind → kind.FlowsInto param.kind
  | reference visible r => ∃ v, visible.denote (canonicalName r.name) = some (.variable v)
  | operands visible _ op left right =>
    ∀ leftKind rightKind, left.kindIn? visible = some leftKind →
      right.kindIn? visible = some rightKind → leftKind = rightKind ∧ op.Admits leftKind
  | assignment visible _ target value =>
    ∀ v kind, visible.denote (canonicalName target.name) = some (.variable v) →
      value.kindIn? visible = some kind → kind.FlowsInto v.kind

/-- How a program that breaks the requirement is told so. -/
def code : Requirement → ErrorCode
  | fresh .. => .duplicateId
  | callee .. | reference .. => .idNotFound
  | argumentCount .. => .paramCount
  | argument .. | operands .. | assignment .. => .typeMismatch

/-- The place that is blamed when the requirement is broken. -/
def span : Requirement → Span
  | fresh _ _ span => span
  | callee _ c | argumentCount _ c => c.span
  | argument _ _ _ arg => arg.span
  | reference _ r => r.span
  | operands _ span .. => span
  | assignment _ span .. => span

end Requirement

def Expr.requirements (visible : Visible) : Expr → List Requirement
  | .literal .. => []
  | .variable r => [.reference visible r]
  | .unary _ _ operand => operand.requirements visible
  | .binary span op left right =>
    left.requirements visible ++ right.requirements visible ++
      [.operands visible span op left right]

/-- What is required of the arguments of a call from a position on. -/
def argumentRequirements (visible : Visible) (c : Call) (index : Nat) : List Expr → List Requirement
  | [] => []
  | arg :: rest =>
    arg.requirements visible ++ .argument visible c index arg ::
      argumentRequirements visible c (index + 1) rest

def Call.requirements (visible : Visible) (c : Call) : List Requirement :=
  .callee visible c :: .argumentCount visible c :: argumentRequirements visible c 0 c.args

mutual

def Statement.requirements (visible : Visible) : Statement → List Requirement
  | .compound _ children => statementRequirements visible children
  | .assignment span target value =>
    value.requirements visible ++
      [.reference visible target, .assignment visible span target value]
  | .call c => c.requirements visible

def statementRequirements (visible : Visible) : List Statement → List Requirement
  | [] => []
  | s :: rest => s.requirements visible ++ statementRequirements visible rest

end

def paramRequirements (entered : List String) : List TypedName → List Requirement
  | [] => []
  | p :: rest =>
    .fresh entered (canonicalName p.name) p.span ::
      paramRequirements (entered ++ [canonicalName p.name]) rest

def headerRequirements (entered : List String) : List Declaration → List Requirement
  | [] => []
  | .variable _ :: rest => headerRequirements entered rest
  | .procedure span name _ _ :: rest =>
    .fresh entered (canonicalName name) span ::
      headerRequirements (entered ++ [canonicalName name]) rest

mutual

def Block.requirements (path : DeclarationPath) (params : List TypedName) (outer : Visible) :
    Block → List Requirement
  | .mk span declarations bodySpan body =>
    let scope : LexicalScope := ⟨path, params, .mk span declarations bodySpan body, outer⟩
    headerRequirements (params.map (canonicalName ·.name)) declarations ++
      declarationRequirements path outer scope.hoisted 0 declarations ++
      statementRequirements scope.visible body

/-- What is required of the variables and procedure bodies among declarations of a scope that offers
some symbols already. -/
def declarationRequirements (path : DeclarationPath) (outer : Visible)
    (offered : List ScopeSymbol) (place : Nat) : List Declaration → List Requirement
  | [] => []
  | .variable v :: rest =>
    .fresh (offered.map ScopeSymbol.name) (canonicalName v.name) v.span ::
      declarationRequirements path outer (offered ++ [.variable (v.symbol (path.length + 1))])
        (place + 1) rest
  | .procedure _ _ params block :: rest =>
    paramRequirements [] params ++
      block.requirements (path ++ [place]) params (offered :: outer) ++
      declarationRequirements path outer offered (place + 1) rest

end

def Program.requirements (p : Program) : List Requirement :=
  p.block.requirements [] [] []

/-- The requirements up to the first that is broken. -/
def FirstBroken (requirements : List Requirement) (broken : Requirement) : Prop :=
  ∃ before after, requirements = before ++ broken :: after ∧ (∀ r ∈ before, r.Holds) ∧
    ¬ broken.Holds

end NestedPascal
