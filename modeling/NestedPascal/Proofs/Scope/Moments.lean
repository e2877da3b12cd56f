import Mathlib.Logic.Relation
import NestedPascal.Proofs.Scope.Acceptance

/-!
# Moments of analysis

Between two changes of a table analysis stands at some place of some scope, with the table of the
scope and those around it.  These moments follow one another: the parameters of a scope are entered,
then the headers of its block, then its variables one after another with the bodies of its procedures
in between, and at last its statements are resolved.  There is one way through them, and analysis as
it is defined goes it to the end: the tables it yields are those of scopes that are over, and the
problem that stops it is the one that is met at the last moment.
-/

namespace NestedPascal

open Relation

/-- How far the analysis of a scope is: what is looked at next. -/
inductive AnalysisStage where
  | parameters (place : Nat)
  | headers (place : Nat)
  | members (place : Nat)
  | over

structure AnalysisMoment where
  /-- The path to the scope. -/
  path : DeclarationPath
  stage : AnalysisStage
  table : ScopeTable
  outer : ScopeChain

namespace Program

/-- What analysis does from one moment to the next. -/
inductive AnalysisStep (p : Program) : AnalysisMoment → AnalysisMoment → Prop where
  | parameter {path s place v t outer} : p.scope? path = some s → s.params[place]? = some v →
    t.requireUnique (canonicalName v.name) v.name v.span = .ok () →
    AnalysisStep p ⟨path, .parameters place, t, outer⟩
      ⟨path, .parameters (place + 1), t.insert (.variable (v.symbol t.level)), outer⟩
  | parametersOver {path s place t outer} : p.scope? path = some s → s.params[place]? = none →
    AnalysisStep p ⟨path, .parameters place, t, outer⟩ ⟨path, .headers 0, t, outer⟩
  | header {path s place span name params block t t' outer} : p.scope? path = some s →
    s.block.declarations[place]? = some (.procedure span name params block) →
    t.declareProcedure outer (path ++ [place]) span name params = .ok t' →
    AnalysisStep p ⟨path, .headers place, t, outer⟩ ⟨path, .headers (place + 1), t', outer⟩
  | noHeader {path s place v t outer} : p.scope? path = some s →
    s.block.declarations[place]? = some (.variable v) →
    AnalysisStep p ⟨path, .headers place, t, outer⟩ ⟨path, .headers (place + 1), t, outer⟩
  | headersOver {path s place t outer} : p.scope? path = some s →
    s.block.declarations[place]? = none →
    AnalysisStep p ⟨path, .headers place, t, outer⟩ ⟨path, .members 0, t, outer⟩
  | variable {path s place v t t' outer} : p.scope? path = some s →
    s.block.declarations[place]? = some (.variable v) → t.declareVariable outer v = .ok t' →
    AnalysisStep p ⟨path, .members place, t, outer⟩ ⟨path, .members (place + 1), t', outer⟩
  | enter {path s place span name params block t outer} : p.scope? path = some s →
    s.block.declarations[place]? = some (.procedure span name params block) →
    AnalysisStep p ⟨path, .members place, t, outer⟩
      ⟨path ++ [place], .parameters 0, .new (canonicalName name) (t.level + 1), t :: outer⟩
  | statements {path s place t outer} : p.scope? path = some s →
    s.block.declarations[place]? = none → (resolveStatements (t :: outer) s.block.body).2 = .ok () →
    AnalysisStep p ⟨path, .members place, t, outer⟩ ⟨path, .over, t, outer⟩
  | leave {path place t around outer} :
    AnalysisStep p ⟨path ++ [place], .over, t, around :: outer⟩
      ⟨path, .members (place + 1), around, outer⟩

/-- A problem that analysis meets instead of going on. -/
inductive AnalysisFails (p : Program) : AnalysisMoment → SemanticError → Prop where
  | parameter {path s place v t outer e} : p.scope? path = some s → s.params[place]? = some v →
    t.requireUnique (canonicalName v.name) v.name v.span = .error e →
    AnalysisFails p ⟨path, .parameters place, t, outer⟩ e
  | header {path s place span name params block t outer e} : p.scope? path = some s →
    s.block.declarations[place]? = some (.procedure span name params block) →
    t.declareProcedure outer (path ++ [place]) span name params = .error e →
    AnalysisFails p ⟨path, .headers place, t, outer⟩ e
  | variable {path s place v t outer e} : p.scope? path = some s →
    s.block.declarations[place]? = some (.variable v) → t.declareVariable outer v = .error e →
    AnalysisFails p ⟨path, .members place, t, outer⟩ e
  | statements {path s place t outer e} : p.scope? path = some s →
    s.block.declarations[place]? = none →
    (resolveStatements (t :: outer) s.block.body).2 = .error e →
    AnalysisFails p ⟨path, .members place, t, outer⟩ e

section

variable {p : Program} {m m₁ m₂ : AnalysisMoment} {e : SemanticError}

/-- At a moment analysis can do one thing only. -/
theorem AnalysisStep.unique (h : p.AnalysisStep m m₁) (h' : p.AnalysisStep m m₂) : m₁ = m₂ := by
  generalize hm : m = m' at h'
  cases h <;> cases h' <;> simp_all

/-- Where analysis meets a problem it cannot go on. -/
theorem AnalysisFails.not_step (h : p.AnalysisFails m e) : ¬ p.AnalysisStep m m₁ := by
  intro h'
  generalize hm : m = m' at h'
  cases h <;> cases h' <;> simp_all

end

/-- The moment at which analysis begins. -/
def firstMoment : AnalysisMoment :=
  ⟨[], .parameters 0, .new "global" 1, []⟩

def AnalysisReaches (p : Program) : AnalysisMoment → Prop :=
  ReflTransGen p.AnalysisStep firstMoment

/-- The table is that of a scope whose analysis is over. -/
def Completes (p : Program) (t : ScopeTable) : Prop :=
  ∃ m, p.AnalysisReaches m ∧ m.stage = .over ∧ m.table = t

/-- Analysis comes to a moment at which it meets the problem. -/
def AnalysisStops (p : Program) (e : SemanticError) : Prop :=
  ∃ m, p.AnalysisReaches m ∧ p.AnalysisFails m e

/-- The moment is the last one that analysis comes to. -/
def AnalysisEnds (p : Program) (m : AnalysisMoment) : Prop :=
  p.AnalysisReaches m ∧ ∀ m', p.AnalysisReaches m' → ReflTransGen p.AnalysisStep m' m

/-- There is one way through the moments, so it ends where it cannot go on. -/
theorem AnalysisReaches.ends {p : Program} {m : AnalysisMoment} (h : p.AnalysisReaches m)
    (hend : ∀ m', ¬ p.AnalysisStep m m') : p.AnalysisEnds m := by
  refine ⟨h, ?_⟩
  intro m' hm'
  have hunique : Relator.RightUnique p.AnalysisStep := fun _ _ _ hstep => hstep.unique
  rcases ReflTransGen.total_of_right_unique hunique h hm' with hback | hforth
  · rcases ReflTransGen.cases_head hback with rfl | ⟨next, hstep, -⟩
    · exact .refl
    · exact absurd hstep (hend next)
  · exact hforth

end Program

/-! ## Tables of trees and forests -/

mutual

/-- Every table of the tree has the property. -/
def ScopeTree.All (P : ScopeTable → Prop) : ScopeTree → Prop
  | .node table nested => P table ∧ allAmong P nested

def allAmong (P : ScopeTable → Prop) : List ScopeTree → Prop
  | [] => True
  | tree :: rest => tree.All P ∧ allAmong P rest

end

section

variable {P : ScopeTable → Prop}

theorem allAmong_append {front back : List ScopeTree} (hfront : allAmong P front)
    (hback : allAmong P back) : allAmong P (front ++ back) := by
  induction front with
  | nil => exact hback
  | cons tree rest ih => exact ⟨hfront.1, ih hfront.2⟩

mutual

theorem ScopeTree.addTo_all {enclosing : Option Nat} {f : ScopeForest}
    (hf : ∀ t ∈ f.tables, P t.table) :
    (tree : ScopeTree) → tree.All P → ∀ t ∈ (tree.addTo enclosing f).tables, P t.table
  | .node table nested, htree => by
    refine addAllTo_all (fun t ht => ?_) nested htree.2
    rw [ScopeForest.add, Array.mem_push] at ht
    rcases ht with ht | rfl
    · exact hf t ht
    · exact htree.1

theorem addAllTo_all {enclosing : Option Nat} {f : ScopeForest}
    (hf : ∀ t ∈ f.tables, P t.table) :
    (trees : List ScopeTree) → allAmong P trees →
      ∀ t ∈ (ScopeTree.addAllTo enclosing f trees).tables, P t.table
  | [], _ => hf
  | tree :: rest, htrees => addAllTo_all (tree.addTo_all hf htrees.1) rest htrees.2

end

theorem ScopeTree.forest_all {tree : ScopeTree} (h : tree.All P) :
    ∀ t ∈ tree.forest.tables, P t.table :=
  tree.addTo_all (by simp [ScopeForest.empty]) h

end

/-! ## Analysis goes from moment to moment -/

section

variable {p : Program} {path : DeclarationPath} {s : LexicalScope} {outer : ScopeChain}

/-- What comes after a part of the analysis, or the problem that it ends in. -/
def Program.Continues (p : Program) (next : ScopeTable → AnalysisMoment) :
    Except SemanticError ScopeTable → Prop
  | .ok t => p.AnalysisReaches (next t)
  | .error e => p.AnalysisStops e

theorem declareParams_continues (hs : p.scope? path = some s) {t : ScopeTable}
    (front params : List TypedName) (hsplit : s.params = front ++ params) {place : Nat}
    (hplace : front.length = place)
    (hreached : p.AnalysisReaches ⟨path, .parameters place, t, outer⟩) :
    p.Continues (⟨path, .headers 0, ·, outer⟩)
      (t.declareParams params (params.map (·.symbol t.level))) := by
  induction params generalizing t front place with
  | nil => exact hreached.tail (.parametersOver hs (by simp [hsplit, hplace]))
  | cons v rest ih =>
      have hget : s.params[place]? = some v := by simp [hsplit, ← hplace]
      rw [List.map_cons, ScopeTable.declareParams]
      cases hunique : t.requireUnique (v.symbol t.level).name v.name v.span with
      | error e => exact ⟨_, hreached, .parameter hs hget hunique⟩
      | ok _ =>
          have hnext := hreached.tail (.parameter hs hget hunique)
          exact ih (front ++ [v]) (by rw [hsplit, List.append_cons]) (by simp [hplace]) hnext

theorem declareHeaders_continues (hs : p.scope? path = some s) {t : ScopeTable}
    (front declarations : List Declaration) (hsplit : s.block.declarations = front ++ declarations)
    {place : Nat} (hplace : front.length = place)
    (hreached : p.AnalysisReaches ⟨path, .headers place, t, outer⟩) :
    p.Continues (⟨path, .members 0, ·, outer⟩)
      (t.declareHeaders outer path place declarations) := by
  induction declarations generalizing t front place with
  | nil => exact hreached.tail (.headersOver hs (by simp [hsplit, hplace]))
  | cons d rest ih =>
      have hget : s.block.declarations[place]? = some d := by simp [hsplit, ← hplace]
      have hlater {t' : ScopeTable} :
          p.AnalysisReaches ⟨path, .headers (place + 1), t', outer⟩ →
            p.Continues (⟨path, .members 0, ·, outer⟩)
              (t'.declareHeaders outer path (place + 1) rest) :=
        ih (front ++ [d]) (by rw [hsplit, List.append_cons]) (by simp [hplace])
      cases d with
      | «variable» v => exact hlater (hreached.tail (.noHeader hs hget))
      | procedure span name params block =>
          rw [ScopeTable.declareHeaders]
          cases hdeclared : t.declareProcedure outer (path ++ [place]) span name params with
          | error e => exact ⟨_, hreached, .header hs hget hdeclared⟩
          | ok t' => exact hlater (hreached.tail (.header hs hget hdeclared))

/-- A part of the analysis either goes through and comes to the given stage of the scope or stops at
a moment that it comes to. -/
structure Analysis.Traced {α : Type} (a : Analysis α) (p : Program) (path : DeclarationPath)
    (stage : AnalysisStage) (outer : ScopeChain) : Prop where
  passes : a.error = none → p.AnalysisReaches ⟨path, stage, a.table, outer⟩
  nested : a.error = none → allAmong p.Completes a.nested
  stops : ∀ e, a.error = some e → p.AnalysisStops e

theorem Analysis.Traced.of_error {α : Type} {a : Analysis α} {stage : AnalysisStage}
    {e : SemanticError} (herror : a.error = some e) (hstops : p.AnalysisStops e) :
    a.Traced p path stage outer := by
  refine ⟨?_, ?_, ?_⟩
  · simp [herror]
  · simp [herror]
  · intro e' he'
    rw [herror, Option.some.injEq] at he'
    exact he' ▸ hstops

theorem procedureScope_traced {own : ScopeTable} {offered : List ScopeSymbol}
    (hown : own.Holds offered) {span : Span} {name : String} {params : List TypedName}
    {block : Block} {level : Nat} {declaration : DeclarationPath}
    (hmem : .procedure ⟨canonicalName name, params.map (·.symbol (own.level + 1)), level,
      declaration⟩ ∈ offered)
    (hparams : ∀ p ∈ params, p.FromSource) (hs : p.scope? path = some s) {place : Nat}
    (hget : s.block.declarations[place]? = some (.procedure span name params block))
    {below : LexicalScope} (hbelow : p.scope? (path ++ [place]) = some below)
    (hformals : below.params = params)
    (hreached : p.AnalysisReaches ⟨path, .members place, own, outer⟩)
    {analyzeBody : ScopeTable → Analysis Block}
    (hbody : ∀ entered : ScopeTable,
      entered.Holds ((params.map (·.symbol (own.level + 1))).map .variable) →
        entered.level = own.level + 1 →
        p.AnalysisReaches ⟨path ++ [place], .headers 0, entered, own :: outer⟩ →
        (analyzeBody entered).Traced p (path ++ [place]) .over (own :: outer)) :
    (procedureScope own span name params block analyzeBody).Traced p (path ++ [place]) .over
      (own :: outer) := by
  have hfind : own.find? (canonicalName name) = some (.procedure ⟨canonicalName name,
      params.map (·.symbol (own.level + 1)), level, declaration⟩) := hown.find?_of_mem hmem
  have hsettles := ScopeTable.declareParams_settles hparams (own.level + 1)
    (ScopeTable.holds_new (canonicalName name) (own.level + 1))
  have hentered := declareParams_continues hbelow [] params hformals List.length_nil
    (hreached.tail (.enter hs hget))
  change p.Continues _ ((ScopeTable.new (canonicalName name) (own.level + 1)).declareParams params
    (params.map (·.symbol (own.level + 1)))) at hentered
  simp only [procedureScope, hfind]
  cases hresult : (ScopeTable.new (canonicalName name) (own.level + 1)).declareParams params
      (params.map (·.symbol (own.level + 1))) with
  | error e =>
      rw [hresult] at hentered
      exact .of_error rfl hentered
  | ok entered =>
      rw [hresult] at hentered
      obtain ⟨-, hholds, hlevel⟩ := hsettles.passes entered hresult
      have hinner := hbody entered hholds hlevel hentered
      refine ⟨hinner.passes, ?_, hinner.stops⟩
      intro herror
      exact ⟨⟨⟨_, hinner.passes herror, rfl, rfl⟩, hinner.nested herror⟩, trivial⟩

end

mutual

theorem Block.analyze_traced {p : Program} {path : DeclarationPath} {s : LexicalScope}
    (hs : p.scope? path = some s) {outer : ScopeChain} {own : ScopeTable}
    (hown : own.Holds (s.parameters.map .variable)) (hlevel : own.level = path.length + 1)
    (hreached : p.AnalysisReaches ⟨path, .headers 0, own, outer⟩) :
    (block : Block) → s.block = block → block.FromSource →
      (block.analyze outer own path).Traced p path .over outer
  | .mk span declarations bodySpan body, hblock, hsource => by
    have hdeclarations : s.block.declarations = [] ++ declarations := by rw [hblock]; rfl
    have hsettles := ScopeTable.declareHeaders_settles outer path 0 hsource.1 hown hlevel
    have hcontinues := declareHeaders_continues hs [] declarations hdeclarations List.length_nil
      hreached
    rw [Block.analyze]
    cases hresult : own.declareHeaders outer path 0 declarations with
    | error e =>
        rw [hresult] at hcontinues
        exact .of_error rfl hcontinues
    | ok own' =>
        rw [hresult] at hcontinues
        obtain ⟨-, hown', hlevel'⟩ := hsettles.passes own' hresult
        have hmembers := analyzeDeclarations_traced hs hown' (hlevel'.trans hlevel) []
          List.length_nil hcontinues declarations hdeclarations hsource.1
          (fun q hq => List.mem_append_right _ (List.mem_map_of_mem hq))
        simp only
        cases herror : (analyzeDeclarations outer own' path 0 declarations).error with
        | some e => exact .of_error herror (hmembers.stops e herror)
        | none =>
            have hend := hmembers.passes herror
            have hover : s.block.declarations[s.block.declarations.length]? = none := by simp
            have hbody : s.block.body = body := by rw [hblock, Block.body]
            simp only
            cases hresolved : (resolveStatements
                ((analyzeDeclarations outer own' path 0 declarations).table :: outer) body).2 with
            | ok _ =>
                refine ⟨fun _ => hend.tail (.statements hs hover ?_),
                  fun _ => hmembers.nested herror, by simp⟩
                rw [hbody, hresolved]
            | error e =>
                refine .of_error rfl ⟨_, hend, .statements hs hover ?_⟩
                rw [hbody, hresolved]

theorem analyzeDeclarations_traced {p : Program} {path : DeclarationPath} {s : LexicalScope}
    (hs : p.scope? path = some s) {outer : ScopeChain} {own : ScopeTable}
    {offered : List ScopeSymbol} (hown : own.Holds offered) (hlevel : own.level = path.length + 1)
    (front : List Declaration) {place : Nat} (hplace : front.length = place)
    (hreached : p.AnalysisReaches ⟨path, .members place, own, outer⟩) :
    (declarations : List Declaration) → s.block.declarations = front ++ declarations →
      declarationsFromSource declarations →
      (∀ q ∈ procedureSymbols path place declarations, .procedure q ∈ offered) →
      (analyzeDeclarations outer own path place declarations).Traced p path
        (.members s.block.declarations.length) outer
  | [], hsplit, _, _ => by
    rw [hsplit, List.append_nil, hplace]
    exact ⟨fun _ => hreached, fun _ => trivial, by simp [analyzeDeclarations]⟩
  | .variable v :: rest, hsplit, hsource, hheaders => by
    have hget : s.block.declarations[place]? = some (.variable v) := by simp [hsplit, ← hplace]
    have hsettles := ScopeTable.declareVariable_settles hown outer hsource.1
    rw [analyzeDeclarations]
    cases hresult : own.declareVariable outer v with
    | error e => exact .of_error rfl ⟨_, hreached, .variable hs hget hresult⟩
    | ok own' =>
        obtain ⟨-, hown', hlevel'⟩ := hsettles.passes own' hresult
        have hmore := analyzeDeclarations_traced hs hown' (hlevel'.trans hlevel)
          (front ++ [.variable v]) (by simp [hplace])
          (hreached.tail (.variable hs hget hresult)) rest (by rw [hsplit, List.append_cons])
          hsource.2 (fun q hq => List.mem_append_left _ (hheaders q hq))
        exact ⟨hmore.passes, hmore.nested, hmore.stops⟩
  | .procedure span name params block :: rest, hsplit, hsource, hheaders => by
    have hget : s.block.declarations[place]? = some (.procedure span name params block) := by
      simp [hsplit, ← hplace]
    have hbelow := Program.scope?_concat hs hget
    have hdeep := Program.level_of_scope? hbelow
    rw [List.length_append, List.length_singleton, ← hlevel] at hdeep
    have hsymbol := hheaders _ (List.mem_cons_self ..)
    have hformals : path.length + 2 = own.level + 1 := by rw [hlevel]
    rw [hformals] at hsymbol
    have hscope := procedureScope_traced hown hsymbol hsource.1.2.1 hs hget hbelow rfl hreached
      fun entered hentered hentersAt hbelowReached => by
        rw [← hdeep] at hentered
        refine Block.analyze_traced hbelow hentered ?_ hbelowReached block rfl hsource.1.2.2
        rw [hentersAt, ← hdeep, Program.level_of_scope? hbelow]
    rw [analyzeDeclarations]
    cases herror : (procedureScope own span name params block fun table =>
        block.analyze (own :: outer) table (path ++ [place])).error with
    | some e => exact .of_error rfl (hscope.stops e herror)
    | none =>
        have hleft := (hscope.passes herror).tail .leave
        have hmore := analyzeDeclarations_traced hs hown hlevel
          (front ++ [.procedure span name params block]) (by simp [hplace]) hleft rest
          (by rw [hsplit, List.append_cons]) hsource.2
          (fun q hq => hheaders q (List.mem_cons_of_mem _ hq))
        refine ⟨hmore.passes, fun hmoreError => ?_, hmore.stops⟩
        exact allAmong_append (hscope.nested herror) (hmore.nested hmoreError)

end

namespace Program

variable {p : Program}

theorem block_traced (hp : p.FromSource) :
    (p.block.analyze [] (ScopeTable.new "global" 1) []).Traced p [] .over [] := by
  have hfirst : p.AnalysisReaches ⟨[], .headers 0, .new "global" 1, []⟩ :=
    .single (.parametersOver rfl rfl)
  have hentered : (ScopeTable.new "global" 1).Holds (p.globalScope.parameters.map .variable) :=
    ScopeTable.holds_new "global" 1
  exact Block.analyze_traced rfl hentered rfl hfirst p.block rfl hp.block

/-- Analysis that goes through ends when the program's scope is over, and the scopes that it returns
are over by then. -/
theorem ends_of_analyze_ok (hp : p.FromSource) {scopes : ScopeForest}
    (hscopes : p.analyze.scopes = .ok scopes) :
    (∃ t, p.AnalysisEnds ⟨[], .over, t, []⟩) ∧ ∀ t ∈ scopes.tables, p.Completes t.table := by
  have htraced := block_traced hp
  have herror := error_of_analyze_ok ⟨scopes, hscopes⟩
  have hlast := htraced.passes herror
  constructor
  · refine ⟨_, hlast.ends fun m' hstep => ?_⟩
    generalize hm : AnalysisMoment.mk [] .over _ [] = m at hstep
    cases hstep <;> simp at hm
  · rw [analyze, herror, Except.ok.injEq] at hscopes
    rw [← hscopes]
    exact ScopeTree.forest_all ⟨⟨_, hlast, rfl, rfl⟩, htraced.nested herror⟩

/-- Analysis that does not go through ends where it meets the problem. -/
theorem ends_of_analyze_error (hp : p.FromSource) {e : SemanticError}
    (he : p.analyze.scopes = .error e) : ∃ m, p.AnalysisEnds m ∧ p.AnalysisFails m e := by
  rcases p.analyze_scopes_cases with ⟨-, scopes, hok⟩ | ⟨e', herror, he'⟩
  · rw [hok] at he
    contradiction
  · rw [he', Except.error.injEq] at he
    obtain ⟨m, hm, hfails⟩ := (block_traced hp).stops e (he ▸ herror)
    exact ⟨m, hm.ends fun _ => hfails.not_step, hfails⟩

end Program

end NestedPascal
