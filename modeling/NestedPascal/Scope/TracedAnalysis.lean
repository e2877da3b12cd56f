import NestedPascal.Scope.Analysis

/-!
# Analysis that tells its events

Analysis goes on only when an event was told, so it is written here in the monad in which events are
told.  What it comes to is what it comes to without a trace.
-/

namespace NestedPascal

variable {m : Type → Type} [Monad m]

/-- Tells that a scope is entered, and left if its analysis went through. -/
def tellScope (tell : Event → m Unit) (span : Span) (entered : ScopeTable)
    (analyzeInner : m (Analysis α)) : m (Analysis α) := do
  tell ⟨.scopeEnter entered.name entered.level, span⟩
  let inner ← analyzeInner
  if inner.error.isNone then
    tell ⟨.scopeLeave entered.name entered.level inner.table.symbols.length, span⟩
  pure inner

def procedureScopeTraced (tell : Event → m Unit) (enclosing : ScopeTable) (span : Span)
    (name : String) (params : List TypedName) (block : Block)
    (analyzeBody : ScopeTable → m (Analysis Block)) : m (Analysis Block) := do
  let key := canonicalName name
  let entered := ScopeTable.new key (enclosing.level + 1)
  let symbols := match enclosing.find? key with
    | some (.procedure p) => p.params
    | _ => []
  let inner ← tellScope tell span entered <| match entered.declareParams params symbols with
    | .error e => pure ⟨block, entered, [], [], some e⟩
    | .ok table => analyzeBody table
  pure { inner with
    nested := [.node inner.table inner.nested]
    events := scopeEvents span entered inner }

mutual

def Block.analyzeTraced (tell : Event → m Unit) (outer : ScopeChain) (own : ScopeTable)
    (path : DeclarationPath) : Block → m (Analysis Block)
  | .mk span declarations bodySpan body =>
    match own.declareHeaders outer path 0 declarations with
    | .error e => pure ⟨.mk span declarations bodySpan body, own, [], [], some e⟩
    | .ok own => do
      let members ← analyzeDeclarationsTraced tell outer own path 0 declarations
      match members.error with
      | some _ => pure (members.within (fun ds => .mk span ds bodySpan body) [] [])
      | none =>
        let resolved := resolveStatements (members.table :: outer) body
        let error := match resolved.2 with
          | .ok () => none
          | .error e => some e
        pure ⟨.mk span members.part bodySpan resolved.1, members.table, members.nested,
          members.events, error⟩

def analyzeDeclarationsTraced (tell : Event → m Unit) (outer : ScopeChain) (own : ScopeTable)
    (path : DeclarationPath) (place : Nat) : List Declaration → m (Analysis (List Declaration))
  | [] => pure ⟨[], own, [], [], none⟩
  | .variable v :: rest =>
    match own.declareVariable outer v with
    | .error e => pure ⟨.variable v :: rest, own, [], [], some e⟩
    | .ok own => do
      let others ← analyzeDeclarationsTraced tell outer own path (place + 1) rest
      pure (others.within (.variable v :: ·) [] [])
  | .procedure span name params block :: rest => do
    let inner ← procedureScopeTraced tell own span name params block fun table =>
      block.analyzeTraced tell (own :: outer) table (path ++ [place])
    match inner.error with
    | some e => pure ⟨.procedure span name params inner.part :: rest, own, [], inner.events, some e⟩
    | none =>
      let others ← analyzeDeclarationsTraced tell outer own path (place + 1) rest
      pure (others.within (.procedure span name params inner.part :: ·) inner.nested inner.events)

end

def Program.analyzeTraced (tell : Event → m Unit) (p : Program) : m ProgramAnalysis := do
  let entered := ScopeTable.new "global" 1
  let inner ← tellScope tell p.span entered (p.block.analyzeTraced tell [] entered [])
  pure {
    program := { p with block := inner.part }
    events := scopeEvents p.span entered inner
    scopes := match inner.error with
      | some e => .error e
      | none => .ok (ScopeTree.node inner.table inner.nested).forest }

end NestedPascal
