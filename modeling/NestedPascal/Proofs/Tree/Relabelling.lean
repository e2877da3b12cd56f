import NestedPascal.Event
import NestedPascal.Run.EvaluationError
import NestedPascal.Scope.SemanticError
import NestedPascal.Token.Basic
import NestedPascal.Tree.Basic
import NestedPascal.Tree.ParseError

/-!
# Relabelled programs

A tree is labelled with what its source looked like: where each node stands and how each name is
written.  A relabelling puts other labels in their place and keeps everything else, the canonical
form of each name too.  Symbols have canonical names only, so they are not relabelled; errors tell of
labels and are.
-/

namespace NestedPascal

structure Relabelling where
  span : Span → Span
  text : String → String
  span_to : ∀ first last, span (first.to last) = (span first).to (span last)
  canonicalName_text : ∀ name, canonicalName (text name) = canonicalName name

variable (R : Relabelling)

/-! ## Trees -/

def VariableRef.relabel (r : VariableRef) : VariableRef :=
  { r with span := R.span r.span, name := R.text r.name }

def Expr.relabel : Expr → Expr
  | .literal span value => .literal (R.span span) value
  | .variable r => .variable (r.relabel R)
  | .unary span sign operand => .unary (R.span span) sign operand.relabel
  | .binary span op left right => .binary (R.span span) op left.relabel right.relabel

def Call.relabel (c : Call) : Call :=
  { c with span := R.span c.span, name := R.text c.name, args := c.args.map (·.relabel R) }

mutual

def Statement.relabel : Statement → Statement
  | .compound span children => .compound (R.span span) (relabelStatements children)
  | .assignment span target value =>
    .assignment (R.span span) (target.relabel R) (value.relabel R)
  | .call c => .call (c.relabel R)

def relabelStatements : List Statement → List Statement
  | [] => []
  | s :: rest => s.relabel :: relabelStatements rest

end

def TypeName.relabel (t : TypeName) : TypeName :=
  ⟨R.span t.span, R.text t.text⟩

def TypedName.relabel (v : TypedName) : TypedName :=
  ⟨R.span v.span, R.text v.name, v.type.relabel R⟩

mutual

def Block.relabel : Block → Block
  | .mk span declarations bodySpan body =>
    .mk (R.span span) (relabelDeclarations declarations) (R.span bodySpan)
      (relabelStatements R body)

def Declaration.relabel : Declaration → Declaration
  | .variable v => .variable (v.relabel R)
  | .procedure span name params block =>
    .procedure (R.span span) (R.text name) (params.map (·.relabel R)) block.relabel

def relabelDeclarations : List Declaration → List Declaration
  | [] => []
  | d :: rest => d.relabel :: relabelDeclarations rest

end

def Program.relabel (p : Program) : Program :=
  { p with span := R.span p.span, name := R.text p.name, block := p.block.relabel R }

/-! ## Tokens, errors and events -/

def Token.relabel (t : Token) : Token :=
  { t with image := R.text t.image, span := R.span t.span }

/-- The numerals among tokens keep their digits. -/
def Relabelling.KeepsNumerals (ts : List Token) : Prop :=
  ∀ t ∈ ts, t.kind = .integerNumber ∨ t.kind = .realNumber → R.text t.image = t.image

def ParseError.relabel (e : ParseError) : ParseError :=
  { e with found := e.found.map (·.relabel R) }

/-- The cause with the names in it written otherwise. -/
def SemanticCause.relabel : SemanticCause → SemanticCause
  | duplicate name scope => duplicate (R.text name) scope
  | unknownType name => unknownType (R.text name)
  | unknownProcedure name => unknownProcedure (R.text name)
  | unknownVariable name => unknownVariable (R.text name)
  | argumentCount name expected actual => argumentCount (R.text name) expected actual
  | assignment name expected actual => assignment (R.text name) expected actual
  | argument position name expected actual => argument position (R.text name) expected actual
  | mixedOperands op left right => mixedOperands op left right
  | undefinedOperands op kind => undefinedOperands op kind

def SemanticError.relabel (e : SemanticError) : SemanticError :=
  ⟨e.cause.relabel R, R.span e.span⟩

/-- The cause with the names in it written otherwise that are told as they are written. -/
def EvaluationCause.relabel : EvaluationCause → EvaluationCause
  | unassigned name => unassigned (R.text name)
  | unresolvedVariable name => unresolvedVariable (R.text name)
  | unresolvedCall name => unresolvedCall (R.text name)
  | depthLimit limit call procedure => depthLimit limit (R.text call) procedure
  | missingArgument param call => missingArgument param (R.text call)
  | range e => range e
  | divisionByZero => divisionByZero
  | noActiveFrame name level => noActiveFrame name level
  | mixedOperands op left right => mixedOperands op left right
  | undefinedOperands op kind => undefinedOperands op kind

def EvaluationError.relabel (e : EvaluationError) : EvaluationError :=
  ⟨e.cause.relabel R, R.span e.span⟩

def EventKind.relabel : EventKind → EventKind
  | runStart program file => runStart (R.text program) file
  | kind => kind

def Event.relabel (e : Event) : Event :=
  ⟨e.kind.relabel R, R.span e.span⟩

/-! ## What is kept -/

variable {R}

attribute [simp] Relabelling.span_to Relabelling.canonicalName_text

@[simp] theorem Token.kind_relabel (t : Token) : (t.relabel R).kind = t.kind := rfl

@[simp] theorem Token.span_relabel (t : Token) : (t.relabel R).span = R.span t.span := rfl

@[simp] theorem Token.image_relabel (t : Token) : (t.relabel R).image = R.text t.image := rfl

@[simp] theorem Expr.span_relabel (e : Expr) : (e.relabel R).span = R.span e.span := by
  cases e <;> rfl

@[simp] theorem TypedName.span_relabel (v : TypedName) : (v.relabel R).span = R.span v.span := rfl

@[simp] theorem TypedName.name_relabel (v : TypedName) : (v.relabel R).name = R.text v.name := rfl

@[simp] theorem TypedName.type_relabel (v : TypedName) :
    (v.relabel R).type = v.type.relabel R := rfl

@[simp] theorem mapError_ok {α ε ε' : Type} (a : α) (f : ε → ε') :
    (Except.ok a).mapError f = .ok a := rfl

@[simp] theorem mapError_error {α ε ε' : Type} (e : ε) (f : ε → ε') :
    (Except.error e : Except ε α).mapError f = .error (f e) := rfl

theorem mapError_bind {α β ε ε' : Type} (r : Except ε α) (next : α → Except ε β) (f : ε → ε') :
    (r >>= next).mapError f = r.mapError f >>= fun a => (next a).mapError f := by
  cases r <;> rfl

theorem relabelDeclarations_eq_map (declarations : List Declaration) :
    relabelDeclarations R declarations = declarations.map (·.relabel R) := by
  induction declarations with
  | nil => rfl
  | cons d rest ih => rw [relabelDeclarations, ih, List.map_cons]

theorem Block.body_relabel (block : Block) :
    (block.relabel R).body = relabelStatements R block.body := by
  cases block
  rfl

theorem Block.at?_relabel (block : Block) (path : DeclarationPath) :
    (block.relabel R).at? path = (block.at? path).map (·.relabel R) := by
  induction path generalizing block with
  | nil => rfl
  | cons place path ih =>
      obtain ⟨span, declarations, bodySpan, body⟩ := block
      simp only [Block.relabel, Block.at?, Block.declarations, relabelDeclarations_eq_map,
        List.getElem?_map]
      cases declarations[place]? with
      | none => rfl
      | some d =>
          cases d with
          | «variable» v => rfl
          | procedure span name params inner => exact ih inner

theorem Block.body_at?_relabel (block : Block) (path : DeclarationPath) :
    (((block.relabel R).at? path).map Block.body).getD [] =
      relabelStatements R (((block.at? path).map Block.body).getD []) := by
  rw [at?_relabel]
  cases block.at? path with
  | none => rfl
  | some inner => exact inner.body_relabel

@[simp] theorem SemanticCause.code_relabel (c : SemanticCause) : (c.relabel R).code = c.code := by
  cases c <;> rfl

@[simp] theorem EvaluationCause.code_relabel (c : EvaluationCause) :
    (c.relabel R).code = c.code := by
  cases c <;> rfl

namespace Relabelling

theorem KeepsNumerals.tail {t : Token} {rest : List Token} (h : R.KeepsNumerals (t :: rest)) :
    R.KeepsNumerals rest :=
  fun u hu => h u (List.mem_cons_of_mem t hu)

end Relabelling

end NestedPascal
