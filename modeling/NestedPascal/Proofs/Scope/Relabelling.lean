import NestedPascal.Proofs.Tree.Relabelling
import NestedPascal.Scope.Analysis

/-!
# Analysis of relabelled programs

Analysis looks names up in their canonical form and copies labels into errors and events.  So it
makes the same tables of a relabelled program, annotates it with the same symbols, and stops at the
same problem if it stops.
-/

namespace NestedPascal

variable {R : Relabelling}

/-! ## Declarations -/

namespace ScopeTable

variable (t : ScopeTable) (outer : ScopeChain)

theorem resolveType_relabel (type : TypeName) :
    t.resolveType outer (type.relabel R) = (t.resolveType outer type).mapError (·.relabel R) := by
  simp only [resolveType, TypeName.relabel, R.canonicalName_text]
  split <;> rfl

theorem requireUnique_relabel (key text : String) (span : Span) :
    t.requireUnique key (R.text text) (R.span span) =
      (t.requireUnique key text span).mapError (·.relabel R) := by
  unfold requireUnique
  split <;> rfl

theorem declareVariable_relabel (v : TypedName) :
    t.declareVariable outer (v.relabel R) =
      (t.declareVariable outer v).mapError (·.relabel R) := by
  simp [declareVariable, mapError_bind, resolveType_relabel, requireUnique_relabel]

theorem paramSymbols_relabel (params : List TypedName) :
    t.paramSymbols outer (params.map (·.relabel R)) =
      (t.paramSymbols outer params).mapError (·.relabel R) := by
  induction params with
  | nil => rfl
  | cons p rest ih =>
      simp [paramSymbols, mapError_bind, resolveType_relabel, ih]

theorem declareProcedure_relabel (declaration : DeclarationPath) (span : Span) (name : String)
    (params : List TypedName) :
    t.declareProcedure outer declaration (R.span span) (R.text name) (params.map (·.relabel R)) =
      (t.declareProcedure outer declaration span name params).mapError (·.relabel R) := by
  simp [declareProcedure, mapError_bind, requireUnique_relabel, paramSymbols_relabel]

theorem declareHeaders_relabel (path : DeclarationPath) (place : Nat)
    (declarations : List Declaration) :
    t.declareHeaders outer path place (relabelDeclarations R declarations) =
      (t.declareHeaders outer path place declarations).mapError (·.relabel R) := by
  induction declarations generalizing t place with
  | nil => rfl
  | cons d rest ih =>
      cases d with
      | «variable» v => exact ih t (place + 1)
      | procedure span name params block =>
          simp only [relabelDeclarations, Declaration.relabel, declareHeaders, mapError_bind,
            declareProcedure_relabel, ih]

theorem declareParams_relabel (params : List TypedName) (symbols : List VariableSymbol) :
    t.declareParams (params.map (·.relabel R)) symbols =
      (t.declareParams params symbols).mapError (·.relabel R) := by
  induction params generalizing t symbols with
  | nil => rfl
  | cons p rest ih =>
      cases symbols with
      | nil => rfl
      | cons symbol symbols =>
          simp [declareParams, mapError_bind, requireUnique_relabel, ih]

end ScopeTable

/-! ## Names in expressions and statements -/

/-- The outcome of resolving a part, of that part relabelled. -/
def Resolved.relabel {α ε : Type} (R : Relabelling) (f : α → α) (r : Resolved α ε) :
    Resolved α ε :=
  (f r.1, r.2.mapError (·.relabel R))

variable (chain : ScopeChain)

theorem VariableRef.resolve_relabel (r : VariableRef) :
    (r.relabel R).resolve chain = (r.resolve chain).relabel R (·.relabel R) := by
  simp only [VariableRef.resolve, VariableRef.relabel, R.canonicalName_text]
  split <;> rfl

theorem BinaryOperator.check_relabel (op : BinaryOperator) (span : Span) (left right : Kind) :
    op.check (R.span span) left right = (op.check span left right).mapError (·.relabel R) := by
  unfold check
  split
  next => rfl
  next => split <;> rfl

theorem Expr.resolve_relabel (e : Expr) :
    (e.relabel R).resolve chain = (e.resolve chain).relabel R (·.relabel R) := by
  induction e with
  | literal span value => rfl
  | «variable» r =>
      simp only [Expr.relabel, Expr.resolve, r.resolve_relabel]
      cases h : (r.resolve chain).2 <;> simp [Resolved.relabel, h, Expr.relabel] <;> rfl
  | unary span sign operand ih =>
      simp only [Expr.relabel, Expr.resolve, ih]
      rfl
  | binary span op left right ihl ihr =>
      simp only [Expr.relabel, Expr.resolve, ihl, ihr]
      cases hleft : (left.resolve chain).2 with
      | error e => simp [Resolved.relabel, hleft, Expr.relabel]
      | ok kind =>
          simp only [Resolved.relabel, hleft, mapError_ok, Expr.relabel]
          cases hright : (right.resolve chain).2 with
          | error e => rfl
          | ok rightKind => exact congrArg _ (op.check_relabel span kind rightKind)

theorem resolveArguments_relabel (name : String) (position : Nat) (params : List VariableSymbol)
    (args : List Expr) :
    resolveArguments chain (R.text name) position params (args.map (·.relabel R)) =
      (resolveArguments chain name position params args).relabel R (List.map (·.relabel R)) := by
  induction params generalizing position args with
  | nil => rfl
  | cons param params ih =>
      cases args with
      | nil => rfl
      | cons arg args =>
          simp only [List.map_cons, resolveArguments, arg.resolve_relabel]
          cases harg : (arg.resolve chain).2 with
          | error e => simp [Resolved.relabel, harg]
          | ok kind =>
              simp only [Resolved.relabel, harg, mapError_ok]
              by_cases hassignable : kind.assignable param.kind = true
              · simp [hassignable, ih, Resolved.relabel]
              · simp [hassignable, SemanticError.relabel, SemanticCause.relabel]

theorem Call.resolve_relabel (c : Call) :
    (c.relabel R).resolve chain = (c.resolve chain).relabel R (·.relabel R) := by
  simp only [Call.resolve, Call.relabel, R.canonicalName_text, List.length_map,
    resolveArguments_relabel]
  split
  next p hlookup =>
    split
    next =>
      cases hargs : (resolveArguments chain c.name 1 p.params c.args).2 <;>
        simp [Resolved.relabel, hargs]
    next => simp [Resolved.relabel, SemanticError.relabel, SemanticCause.relabel]
  next => rfl

mutual

theorem Statement.resolve_relabel :
    (s : Statement) → (s.relabel R).resolve chain = (s.resolve chain).relabel R (·.relabel R)
  | .compound span children => by
    simp only [Statement.relabel, Statement.resolve, resolveStatements_relabel children]
    rfl
  | .assignment span target value => by
    simp only [Statement.relabel, Statement.resolve, value.resolve_relabel, target.resolve_relabel]
    cases hvalue : (value.resolve chain).2 with
    | error e => simp [Resolved.relabel, hvalue, Statement.relabel]
    | ok kind =>
        simp only [Resolved.relabel, hvalue, mapError_ok]
        cases htarget : (target.resolve chain).2 with
        | error e => simp [Statement.relabel, bind, Except.bind]
        | ok symbol =>
            by_cases hassignable : kind.assignable symbol.kind = true
            · simp [hassignable, Statement.relabel, bind, Except.bind]
            · simp [hassignable, Statement.relabel, bind, Except.bind, VariableRef.relabel,
                SemanticError.relabel, SemanticCause.relabel]
  | .call c => by
    simp only [Statement.relabel, Statement.resolve, c.resolve_relabel]
    rfl

theorem resolveStatements_relabel :
    (ss : List Statement) → resolveStatements chain (relabelStatements R ss) =
      (resolveStatements chain ss).relabel R (relabelStatements R)
  | [] => rfl
  | s :: rest => by
    simp only [relabelStatements, resolveStatements, s.resolve_relabel,
      resolveStatements_relabel rest]
    cases hfirst : (s.resolve chain).2 with
    | error e => simp [Resolved.relabel, hfirst, relabelStatements]
    | ok done => simp [Resolved.relabel, hfirst, relabelStatements]

end

/-! ## Blocks and programs -/

/-- The outcome of analysing a part, of that part relabelled. -/
def Analysis.relabel {α : Type} (R : Relabelling) (f : α → α) (a : Analysis α) : Analysis α :=
  { a with
    part := f a.part
    events := a.events.map (·.relabel R)
    error := a.error.map (·.relabel R) }

theorem scopeEvents_relabel {α : Type} (span : Span) (entered : ScopeTable) (inner : Analysis α)
    (f : α → α) :
    scopeEvents (R.span span) entered (inner.relabel R f) =
      (scopeEvents span entered inner).map (·.relabel R) := by
  cases herror : inner.error <;>
    simp [scopeEvents, Analysis.relabel, herror, Event.relabel, EventKind.relabel]

theorem procedureScope_relabel (enclosing : ScopeTable) (span : Span) (name : String)
    (params : List TypedName) (block : Block) {analyzeBody analyzeBody' : ScopeTable → Analysis Block}
    (hbody : ∀ table, analyzeBody' table = (analyzeBody table).relabel R (·.relabel R)) :
    procedureScope enclosing (R.span span) (R.text name) (params.map (·.relabel R))
        (block.relabel R) analyzeBody' =
      (procedureScope enclosing span name params block analyzeBody).relabel R (·.relabel R) := by
  simp only [procedureScope, R.canonicalName_text, ScopeTable.declareParams_relabel]
  generalize (ScopeTable.new (canonicalName name) (enclosing.level + 1)).declareParams params _ =
    entered
  cases entered with
  | error e =>
      simp [Analysis.relabel, scopeEvents, Event.relabel, EventKind.relabel]
  | ok table =>
      simp only [mapError_ok, hbody, scopeEvents_relabel]
      rfl

theorem Analysis.relabel_within {α β : Type} (a : Analysis α) {f : α → α} {g : β → β}
    {put put' : α → β} (nested : List ScopeTree) (events : List Event)
    (hput : ∀ part, put' (f part) = g (put part)) :
    (a.relabel R f).within put' nested (events.map (·.relabel R)) =
      (a.within put nested events).relabel R g := by
  simp [Analysis.within, Analysis.relabel, hput]

mutual

theorem Block.analyze_relabel (outer : ScopeChain) (own : ScopeTable) (path : DeclarationPath) :
    (block : Block) → (block.relabel R).analyze outer own path =
      (block.analyze outer own path).relabel R (·.relabel R)
  | .mk span declarations bodySpan body => by
    simp only [Block.relabel, Block.analyze, ScopeTable.declareHeaders_relabel]
    cases own.declareHeaders outer path 0 declarations with
    | error e => rfl
    | ok own =>
        simp only [mapError_ok, analyzeDeclarations_relabel outer own path 0 declarations,
          resolveStatements_relabel]
        cases herror : (analyzeDeclarations outer own path 0 declarations).error with
        | some e =>
            simp [Analysis.relabel, Analysis.within, herror, Block.relabel]
        | none => 
            cases hbody : (resolveStatements
                ((analyzeDeclarations outer own path 0 declarations).table :: outer) body).2 <;>
              simp [Analysis.relabel, Resolved.relabel, herror, hbody, Block.relabel]

theorem analyzeDeclarations_relabel (outer : ScopeChain) (own : ScopeTable)
    (path : DeclarationPath) (place : Nat) :
    (declarations : List Declaration) →
      analyzeDeclarations outer own path place (relabelDeclarations R declarations) =
        (analyzeDeclarations outer own path place declarations).relabel R (relabelDeclarations R)
  | [] => rfl
  | .variable v :: rest => by
    simp only [relabelDeclarations, Declaration.relabel, analyzeDeclarations,
      ScopeTable.declareVariable_relabel]
    cases own.declareVariable outer v with
    | error e => rfl
    | ok own =>
        simp only [mapError_ok, analyzeDeclarations_relabel outer own path (place + 1) rest]
        exact Analysis.relabel_within _ [] [] fun _ => rfl
  | .procedure span name params block :: rest => by
    have hscope := procedureScope_relabel own span name params block (R := R)
      fun table => block.analyze_relabel (own :: outer) table (path ++ [place])
    simp only [relabelDeclarations, Declaration.relabel, analyzeDeclarations, hscope]
    cases herror : (procedureScope own span name params block fun table =>
        block.analyze (own :: outer) table (path ++ [place])).error with
    | some e =>
        simp [Analysis.relabel, herror, relabelDeclarations, Declaration.relabel]
    | none =>
        simp only [Analysis.relabel, herror, Option.map_none]
        rw [analyzeDeclarations_relabel outer own path (place + 1) rest]
        exact Analysis.relabel_within _ _ _ fun _ => rfl

end

/-- A relabelled program is analysed like the program itself: the same tables, the same symbols, or
the same problem. -/
theorem Program.analyze_relabel (p : Program) :
    (p.relabel R).analyze =
      ⟨p.analyze.program.relabel R, p.analyze.events.map (·.relabel R),
        p.analyze.scopes.mapError (·.relabel R)⟩ := by
  simp only [analyze, relabel, Block.analyze_relabel, scopeEvents_relabel]
  cases herror : (p.block.analyze [] (ScopeTable.new "global" 1) []).error <;>
    simp [Analysis.relabel, herror]

/-- Programs that a relabelling makes the same are analysed alike. -/
theorem Program.analyze_eq_of_relabel_eq {p p' : Program} (h : p.relabel R = p'.relabel R) :
    p.analyze.program.relabel R = p'.analyze.program.relabel R ∧
      p.analyze.scopes.mapError (·.relabel R) = p'.analyze.scopes.mapError (·.relabel R) := by
  have hanalysis := p.analyze_relabel (R := R)
  rw [h, p'.analyze_relabel] at hanalysis
  obtain ⟨hannotated, -, hscopes⟩ := ProgramAnalysis.mk.inj hanalysis
  exact ⟨hannotated.symm, hscopes.symm⟩

end NestedPascal
