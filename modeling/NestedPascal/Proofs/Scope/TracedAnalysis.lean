import NestedPascal.Scope.TracedAnalysis

/-!
# Telling the events of analysis

Analysis that tells its events as they happen tells those of the analysis, in order, and comes to the
same.
-/

namespace NestedPascal

variable {m : Type → Type} [Monad m] [LawfulMonad m] {tell : Event → m Unit}

/-- Tells the events of an analysis and yields it. -/
def Analysis.told (tell : Event → m Unit) (a : Analysis α) : m (Analysis α) := do
  forM a.events tell
  pure a

theorem Analysis.told_of_nil {a : Analysis α} (h : a.events = []) : a.told tell = pure a := by
  simp [told, h]

theorem tellScope_told (span : Span) (entered : ScopeTable) (inner : Analysis α) :
    tellScope tell span entered (inner.told tell) =
      forM (scopeEvents span entered inner) tell >>= fun _ => pure inner := by
  cases herror : inner.error <;> simp [tellScope, scopeEvents, Analysis.told, herror]

theorem tellScope_pure (span : Span) (entered : ScopeTable) {inner : Analysis α}
    (h : inner.events = []) :
    tellScope tell span entered (pure inner) =
      forM (scopeEvents span entered inner) tell >>= fun _ => pure inner := by
  rw [← tellScope_told, Analysis.told_of_nil h]

theorem procedureScopeTraced_eq (tell : Event → m Unit) (enclosing : ScopeTable) (span : Span)
    (name : String) (params : List TypedName) (block : Block) {analyzeBody : ScopeTable → m (Analysis Block)}
    {body : ScopeTable → Analysis Block} (h : ∀ table, analyzeBody table = (body table).told tell) :
    procedureScopeTraced tell enclosing span name params block analyzeBody =
      (procedureScope enclosing span name params block body).told tell := by
  rw [procedureScopeTraced, procedureScope]
  -- Both look the parameters up in the same way, but only by cases is that seen.
  rcases enclosing.find? (canonicalName name) with _ | _ | _ | _ <;>
    split <;>
    simp only [*, tellScope_told, tellScope_pure, bind_assoc, pure_bind] <;>
    rfl

mutual

theorem Block.analyzeTraced_eq (outer : ScopeChain) (own : ScopeTable) (path : DeclarationPath) :
    ∀ block : Block, block.analyzeTraced tell outer own path =
      (block.analyze outer own path).told tell
  | .mk span declarations bodySpan body => by
      rw [Block.analyzeTraced, Block.analyze]
      cases own.declareHeaders outer path 0 declarations with
      | error e => exact (Analysis.told_of_nil rfl).symm
      | ok own =>
          simp only [analyzeDeclarationsTraced_eq outer own path 0 declarations]
          cases herror : (analyzeDeclarations outer own path 0 declarations).error with
          | some e => simp [Analysis.told, Analysis.within, herror]
          | none =>
              cases hbody : (resolveStatements
                ((analyzeDeclarations outer own path 0 declarations).table :: outer) body).2 <;>
                simp [Analysis.told, herror, hbody]

theorem analyzeDeclarationsTraced_eq (outer : ScopeChain) (own : ScopeTable)
    (path : DeclarationPath) (place : Nat) : ∀ declarations : List Declaration,
      analyzeDeclarationsTraced tell outer own path place declarations =
        (analyzeDeclarations outer own path place declarations).told tell
  | [] => by
      rw [analyzeDeclarationsTraced, analyzeDeclarations]
      exact (Analysis.told_of_nil rfl).symm
  | .variable v :: rest => by
      rw [analyzeDeclarationsTraced, analyzeDeclarations]
      cases own.declareVariable outer v with
      | error e => exact (Analysis.told_of_nil rfl).symm
      | ok own =>
          simp only [analyzeDeclarationsTraced_eq outer own path (place + 1) rest]
          simp [Analysis.told, Analysis.within]
  | .procedure span name params block :: rest => by
      rw [analyzeDeclarationsTraced, analyzeDeclarations]
      have hscope := procedureScopeTraced_eq tell own span name params block
        fun table => Block.analyzeTraced_eq (own :: outer) table (path ++ [place]) block
      simp only [hscope, analyzeDeclarationsTraced_eq outer own path (place + 1) rest]
      generalize procedureScope own span name params block _ = inner
      cases herror : inner.error <;> simp [Analysis.told, Analysis.within, herror]

end

/-- The analysis of a program that tells its events tells them in order and comes to the same. -/
theorem Program.analyzeTraced_eq (p : Program) :
    p.analyzeTraced tell = forM p.analyze.events tell >>= fun _ => pure p.analyze := by
  rw [Program.analyzeTraced, Block.analyzeTraced_eq, tellScope_told]
  cases herror : (p.block.analyze [] (ScopeTable.new "global" 1) []).error <;>
    simp [Program.analyze, herror]

end NestedPascal
