import NestedPascal.Event
import NestedPascal.Scope.Resolve

/-!
# Analysis of programs

In each block the headers of all procedures are entered first, so that bodies can call procedures
declared after them.  Then the variables and the procedure bodies are taken in source order, so a
body sees of an enclosing block only the variables declared before it; the block's own statements
come last.  Analysis stops at the first problem.  Either way it yields the program as far as it was
annotated and the events so far.
-/

namespace NestedPascal

namespace ScopeTable

/-- The kind that a type name denotes. -/
def resolveType (t : ScopeTable) (outer : ScopeChain) (type : TypeName) :
    Except SemanticError Kind :=
  match ScopeChain.lookup (t :: outer) (canonicalName type.text) with
  | some (.builtinType kind) => .ok kind
  | _ => .error ⟨.unknownType type.text, type.span⟩

/-- Refuses a name that the table already has. -/
def requireUnique (t : ScopeTable) (key text : String) (span : Span) : Except SemanticError Unit :=
  if (t.find? key).isSome then .error ⟨.duplicate text t.name, span⟩ else .ok ()

def declareVariable (t : ScopeTable) (outer : ScopeChain) (v : TypedName) :
    Except SemanticError ScopeTable := do
  let kind ← t.resolveType outer v.type
  let name := canonicalName v.name
  t.requireUnique name v.name v.span
  .ok (t.insert (.variable ⟨name, kind, t.level⟩))

/-- The symbols of parameters; they belong to the scope of the procedure's body. -/
def paramSymbols (t : ScopeTable) (outer : ScopeChain) :
    List TypedName → Except SemanticError (List VariableSymbol)
  | [] => .ok []
  | p :: rest => do
    let kind ← t.resolveType outer p.type
    let more ← t.paramSymbols outer rest
    .ok (⟨canonicalName p.name, kind, t.level + 1⟩ :: more)

/-- Enters the header of a procedure. -/
def declareProcedure (t : ScopeTable) (outer : ScopeChain) (declaration : DeclarationPath)
    (span : Span) (name : String) (params : List TypedName) : Except SemanticError ScopeTable := do
  let key := canonicalName name
  t.requireUnique key name span
  let symbols ← t.paramSymbols outer params
  .ok (t.insert (.procedure ⟨key, symbols, t.level, declaration⟩))

/-- Enters the headers of the procedures among declarations, the first of which stands at the given
place in its block. -/
def declareHeaders (t : ScopeTable) (outer : ScopeChain) (path : DeclarationPath) (place : Nat) :
    List Declaration → Except SemanticError ScopeTable
  | [] => .ok t
  | .variable _ :: rest => t.declareHeaders outer path (place + 1) rest
  | .procedure span name params _ :: rest => do
    let t ← t.declareProcedure outer (path ++ [place]) span name params
    t.declareHeaders outer path (place + 1) rest

/-- Enters parameters into the table of the body. -/
def declareParams (t : ScopeTable) :
    List TypedName → List VariableSymbol → Except SemanticError ScopeTable
  | p :: params, symbol :: symbols => do
    t.requireUnique symbol.name p.name p.span
    (t.insert (.variable symbol)).declareParams params symbols
  | _, _ => .ok t

end ScopeTable

/-- The outcome of analysing a part of a program: the part as annotated so far, the table of its
scope as filled so far, the scopes completed inside it, the events so far, and the problem that
stopped the analysis, if one did. -/
structure Analysis (α : Type) where
  part : α
  table : ScopeTable
  nested : List ScopeTree := []
  events : List Event := []
  error : Option SemanticError := none

/-- Takes a part into a larger one, after what happened before it. -/
def Analysis.within {α β : Type} (a : Analysis α) (f : α → β) (nested : List ScopeTree)
    (events : List Event) : Analysis β :=
  { a with part := f a.part, nested := nested ++ a.nested, events := events ++ a.events }

/-- The events around the analysis of a scope, the second only if the scope is left. -/
def scopeEvents (span : Span) (entered : ScopeTable) (inner : Analysis α) : List Event :=
  ⟨.scopeEnter entered.name entered.level, span⟩ :: inner.events ++
    match inner.error with
    | some _ => []
    | none => [⟨.scopeLeave entered.name entered.level inner.table.symbols.length, span⟩]

/-- Analyses the body of a procedure, whose header the enclosing scope has, in a scope of its own
that starts with the parameters. -/
def procedureScope (enclosing : ScopeTable) (span : Span) (name : String)
    (params : List TypedName) (block : Block) (analyzeBody : ScopeTable → Analysis Block) :
    Analysis Block :=
  let key := canonicalName name
  let entered := ScopeTable.new key (enclosing.level + 1)
  let symbols := match enclosing.find? key with
    | some (.procedure p) => p.params
    | _ => []
  let inner : Analysis Block := match entered.declareParams params symbols with
    | .error e => ⟨block, entered, [], [], some e⟩
    | .ok table => analyzeBody table
  { inner with
    nested := [.node inner.table inner.nested]
    events := scopeEvents span entered inner }

mutual

/-- Analyses a block whose scope already has its parameters. -/
def Block.analyze (outer : ScopeChain) (own : ScopeTable) (path : DeclarationPath) :
    Block → Analysis Block
  | .mk span declarations bodySpan body =>
    match own.declareHeaders outer path 0 declarations with
    | .error e => ⟨.mk span declarations bodySpan body, own, [], [], some e⟩
    | .ok own =>
      let members := analyzeDeclarations outer own path 0 declarations
      match members.error with
      | some _ => members.within (fun ds => .mk span ds bodySpan body) [] []
      | none =>
        let resolved := resolveStatements (members.table :: outer) body
        let error := match resolved.2 with
          | .ok () => none
          | .error e => some e
        ⟨.mk span members.part bodySpan resolved.1, members.table, members.nested, members.events,
          error⟩

/-- Analyses the variables and procedure bodies among declarations in source order. -/
def analyzeDeclarations (outer : ScopeChain) (own : ScopeTable) (path : DeclarationPath)
    (place : Nat) : List Declaration → Analysis (List Declaration)
  | [] => ⟨[], own, [], [], none⟩
  | .variable v :: rest =>
    match own.declareVariable outer v with
    | .error e => ⟨.variable v :: rest, own, [], [], some e⟩
    | .ok own =>
      (analyzeDeclarations outer own path (place + 1) rest).within (.variable v :: ·) [] []
  | .procedure span name params block :: rest =>
    let inner := procedureScope own span name params block fun table =>
      block.analyze (own :: outer) table (path ++ [place])
    match inner.error with
    | some e => ⟨.procedure span name params inner.part :: rest, own, [], inner.events, some e⟩
    | none =>
      (analyzeDeclarations outer own path (place + 1) rest).within
        (.procedure span name params inner.part :: ·) inner.nested inner.events

end

/-- The outcome of analysing a program: the program as annotated so far, its scopes if the analysis
went through, and the events so far. -/
structure ProgramAnalysis where
  program : Program
  events : List Event
  scopes : Except SemanticError ScopeForest

def Program.analyze (p : Program) : ProgramAnalysis :=
  let entered := ScopeTable.new "global" 1
  let inner := p.block.analyze [] entered []
  { program := { p with block := inner.part }
    events := scopeEvents p.span entered inner
    scopes := match inner.error with
      | some e => .error e
      | none => .ok (ScopeTree.node inner.table inner.nested).forest }

end NestedPascal
