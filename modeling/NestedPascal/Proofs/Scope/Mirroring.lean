import NestedPascal.Proofs.Scope.Acceptance
import NestedPascal.Proofs.Scope.Outline

/-!
# Scopes mirror the procedures

If analysis accepts a program, its tables are those of the program's outline, one for each scope in
the order of the headings, and its events are the brackets of the outline.  If it stops at a problem,
the events so far are the first of these brackets, and at least the last is missing.
-/

namespace NestedPascal

/-- An analysis tells the first of the expected events.  If it goes through, it tells them all, and
ends with the expected table and the expected scopes. -/
structure Analysis.Mirrors {α : Type} (a : Analysis α) (events : List Event) (table : ScopeTable)
    (nested : List ScopeTree) : Prop where
  isPrefix : a.events <+: events
  events : a.error = none → a.events = events
  table : a.error = none → a.table = table
  nested : a.error = none → a.nested = nested

namespace Analysis.Mirrors

variable {α β : Type} {a : Analysis α} {events : List Event} {table : ScopeTable}
  {nested : List ScopeTree}

theorem of_error {e : SemanticError} (herror : a.error = some e) (hevents : a.events <+: events) :
    a.Mirrors events table nested := by
  refine ⟨hevents, ?_, ?_, ?_⟩ <;>
    simp [herror]

theorem within (h : a.Mirrors events table nested) (f : α → β) (before : List ScopeTree)
    (told : List Event) :
    (a.within f before told).Mirrors (told ++ events) table (before ++ nested) := by
  refine ⟨?_, ?_, h.table, ?_⟩
  · exact (List.prefix_append_right_inj told).mpr h.isPrefix
  · intro herror
    rw [Analysis.within, h.events herror]
  · intro herror
    rw [Analysis.within, h.nested herror]

end Analysis.Mirrors

section

variable {α : Type} {inner : Analysis α} {events : List Event} {table : ScopeTable}
  {nested : List ScopeTree}

/-- The events of a scope are the first of its bracket. -/
theorem scopeEvents_starts (h : inner.Mirrors events table nested) (span : Span)
    (entered : ScopeTable) :
    scopeEvents span entered inner <+:
      bracket entered.name entered.level table.symbols.length span events := by
  rw [scopeEvents, bracket]
  cases herror : inner.error with
  | none => rw [h.events herror, h.table herror]
  | some e =>
      rw [List.append_nil, List.cons_append, List.prefix_cons_inj]
      exact h.isPrefix.trans (List.prefix_append _ _)

theorem scopeEvents_of_ok (h : inner.Mirrors events table nested) (span : Span)
    (entered : ScopeTable) (herror : inner.error = none) :
    scopeEvents span entered inner =
      bracket entered.name entered.level table.symbols.length span events := by
  rw [scopeEvents, bracket, herror, h.events herror, h.table herror]

/-- A scope that is not left lacks the end of its bracket. -/
theorem scopeEvents_ne_of_error (h : inner.Mirrors events table nested) (span : Span)
    (entered : ScopeTable) {e : SemanticError} (herror : inner.error = some e) (symbols : Nat) :
    scopeEvents span entered inner ≠ bracket entered.name entered.level symbols span events := by
  intro heq
  have hle := h.isPrefix.length_le
  have hlength := congrArg List.length heq
  simp only [scopeEvents, bracket, herror, List.append_nil, List.length_cons, List.length_append,
    List.length_nil] at hlength
  omega

end

theorem procedureScope_mirrors {own : ScopeTable} {offered : List ScopeSymbol}
    (hown : own.Holds offered) {name : String} {params : List TypedName} {level : Nat}
    {declaration : DeclarationPath}
    (hmem : .procedure ⟨canonicalName name, params.map (·.symbol (own.level + 1)), level,
      declaration⟩ ∈ offered)
    (hparams : ∀ p ∈ params, p.FromSource) (span : Span) (block : Block)
    {analyzeBody : ScopeTable → Analysis Block} {events : List Event} {table : ScopeTable}
    {nested : List ScopeTree}
    (hbody : ∀ entered : ScopeTable,
      entered.Holds ((params.map (·.symbol (own.level + 1))).map .variable) →
        entered.level = own.level + 1 → entered.name = canonicalName name →
        (analyzeBody entered).Mirrors events table nested) :
    (procedureScope own span name params block analyzeBody).Mirrors
      (bracket (canonicalName name) (own.level + 1) table.symbols.length span events) table
      [.node table nested] := by
  have hfind : own.find? (canonicalName name) = some (.procedure ⟨canonicalName name,
      params.map (·.symbol (own.level + 1)), level, declaration⟩) := hown.find?_of_mem hmem
  have hsettles := ScopeTable.declareParams_settles hparams (own.level + 1)
    (ScopeTable.holds_new (canonicalName name) (own.level + 1))
  simp only [procedureScope, hfind]
  cases hresult : (ScopeTable.new (canonicalName name) (own.level + 1)).declareParams params
      (params.map (·.symbol (own.level + 1))) with
  | error e =>
      refine .of_error rfl ?_
      exact List.prefix_append [_] _
  | ok entered =>
      obtain ⟨-, hentered, hlevel⟩ := hsettles.passes entered hresult
      have hinner := hbody entered hentered hlevel (ScopeTable.declareParams_grownBy hresult).name
      refine ⟨scopeEvents_starts hinner span _, scopeEvents_of_ok hinner span _, hinner.table, ?_⟩
      intro herror
      rw [hinner.table herror, hinner.nested herror]

mutual

theorem Block.analyze_mirrors (outer : ScopeChain) {own : ScopeTable} {path : DeclarationPath}
    {params : List TypedName}
    (hown : own.Holds ((params.map (·.symbol (path.length + 1))).map .variable))
    (hlevel : own.level = path.length + 1) :
    (block : Block) → block.FromSource →
      (block.analyze outer own path).Mirrors (block.brackets own.level)
        ((LexicalScope.mk path params block []).table own.name)
        (outlinesAmong path 0 block.declarations)
  | .mk span declarations bodySpan body, hblock => by
    have hsettles := ScopeTable.declareHeaders_settles outer path 0 hblock.1 hown hlevel
    rw [Block.analyze, Block.brackets]
    cases hresult : own.declareHeaders outer path 0 declarations with
    | error e => exact .of_error rfl (List.nil_prefix ..)
    | ok own' =>
        obtain ⟨-, hown', hlevel'⟩ := hsettles.passes own' hresult
        have hmembers := analyzeDeclarations_mirrors outer hown' (hlevel'.trans hlevel) 0
          declarations hblock.1 (fun q hq => List.mem_append_right _ (List.mem_map_of_mem hq))
        rw [hlevel', (ScopeTable.declareHeaders_grownBy hresult).name] at hmembers
        simp only
        cases herror : (analyzeDeclarations outer own' path 0 declarations).error with
        | some e => exact .of_error herror hmembers.isPrefix
        | none =>
            refine ⟨hmembers.isPrefix, fun _ => hmembers.events herror, fun _ => ?_,
              fun _ => hmembers.nested herror⟩
            rw [hmembers.table herror, hlevel]
            rfl

theorem analyzeDeclarations_mirrors (outer : ScopeChain) {own : ScopeTable}
    {offered : List ScopeSymbol} {path : DeclarationPath} (hown : own.Holds offered)
    (hlevel : own.level = path.length + 1) (place : Nat) :
    (declarations : List Declaration) → declarationsFromSource declarations →
      (∀ q ∈ procedureSymbols path place declarations, .procedure q ∈ offered) →
      (analyzeDeclarations outer own path place declarations).Mirrors
        (bracketsAmong own.level declarations)
        (.holding own.name own.level
          (offered ++ (variableSymbols own.level declarations).map .variable))
        (outlinesAmong path place declarations)
  | [], _, _ => by
    rw [analyzeDeclarations, variableSymbols, List.map_nil, List.append_nil, ← hown.eq_holding]
    exact ⟨List.prefix_rfl, fun _ => rfl, fun _ => rfl, fun _ => rfl⟩
  | .variable v :: rest, hdeclarations, hheaders => by
    have hsettles := ScopeTable.declareVariable_settles hown outer hdeclarations.1
    rw [analyzeDeclarations, bracketsAmong, variableSymbols, outlinesAmong]
    cases hresult : own.declareVariable outer v with
    | error e => exact .of_error rfl (List.nil_prefix ..)
    | ok own' =>
        obtain ⟨-, hown', hlevel'⟩ := hsettles.passes own' hresult
        have hmore := analyzeDeclarations_mirrors outer hown' (hlevel'.trans hlevel) (place + 1)
          rest hdeclarations.2 (fun q hq => List.mem_append_left _ (hheaders q hq))
        rw [hlevel', (ScopeTable.declareVariable_grownBy hresult).name] at hmore
        rw [List.map_cons, List.append_cons]
        exact hmore.within _ [] []
  | .procedure span name params block :: rest, hdeclarations, hheaders => by
    have hsymbol := hheaders _ (List.mem_cons_self ..)
    have hdeep : own.level + 1 = (path ++ [place]).length + 1 := by
      rw [hlevel, List.length_append, List.length_singleton]
    have hformals : path.length + 2 = own.level + 1 := by rw [hlevel]
    rw [hformals] at hsymbol
    have hscope := procedureScope_mirrors hown hsymbol hdeclarations.1.2.1 span block
      fun entered hentered hentersAt hname => by
        have hinner := Block.analyze_mirrors (own :: outer) (hdeep ▸ hentered)
          (hentersAt.trans hdeep) block hdeclarations.1.2.2
        rw [hentersAt, hname] at hinner
        exact hinner
    have hmore := analyzeDeclarations_mirrors outer hown hlevel (place + 1) rest hdeclarations.2
      (fun q hq => hheaders q (List.mem_cons_of_mem _ hq))
    rw [LexicalScope.length_symbols_table] at hscope
    rw [analyzeDeclarations, bracketsAmong, variableSymbols, outlinesAmong]
    cases herror : (procedureScope own span name params block fun table =>
        block.analyze (own :: outer) table (path ++ [place])).error with
    | some e =>
        simp only
        exact .of_error rfl (hscope.isPrefix.trans (List.prefix_append _ _))
    | none =>
        simp only
        rw [hscope.events herror, hscope.nested herror]
        cases block with
        | mk => exact hmore.within _ [_] _

end

namespace Program

variable {p : Program}

theorem block_mirrors (hp : p.FromSource) :
    (p.block.analyze [] (ScopeTable.new "global" 1) []).Mirrors (p.block.brackets 1)
      (p.globalScope.table "global") (outlinesAmong [] 0 p.block.declarations) := by
  have hentered : (ScopeTable.new "global" 1).Holds
      ((([] : List TypedName).map (·.symbol 1)).map .variable) := ScopeTable.holds_new "global" 1
  exact Block.analyze_mirrors [] hentered rfl p.block hp.block

theorem outline_eq (p : Program) :
    p.block.outline [] [] "global" =
      .node (p.globalScope.table "global") (outlinesAmong [] 0 p.block.declarations) := by
  rw [globalScope]
  cases p.block
  rfl

/-- The scopes of a program are the program and its procedures, and the paths to them are in the order
of their headings.  An accepted program has a table for each of them, in this order, and its events are
their brackets.  What the events of any other program lack of these brackets is at their end. -/
theorem scopes_mirror_procedures {source : List Char} {file : String} {detailed : Bool}
    (hparse : parse source file detailed = .ok p) :
    p.scopePaths.Pairwise (· < ·) ∧
      (∀ path, path ∈ p.scopePaths ↔ ∃ s, p.scope? path = some s) ∧
      (∀ scopes, p.analyze.scopes = .ok scopes →
        scopes.Shows p p.scopePaths ∧
          (∀ t ∈ scopes.tables, ∀ i, t.enclosing = some i →
            ∃ around, scopes.tables[i]? = some around ∧
              t.table.level = around.table.level + 1) ∧
          p.analyze.events = p.brackets) ∧
      ∀ e, p.analyze.scopes = .error e →
        p.analyze.events <+: p.brackets ∧ p.analyze.events ≠ p.brackets := by
  have hmirrors := block_mirrors (fromSource_of_parse hparse)
  have hcount : (p.globalScope.table "global").symbols.length = p.block.symbolCount [] :=
    p.globalScope.length_symbols_table "global"
  refine ⟨p.block.procedurePaths_pairwise, fun _ => mem_scopePaths_iff, ?_, ?_⟩
  · intro scopes hscopes
    have herror := error_of_analyze_ok ⟨scopes, hscopes⟩
    rw [analyze, herror, hmirrors.table herror, hmirrors.nested herror, ← outline_eq,
      Except.ok.injEq] at hscopes
    have hshows := p.outline_shows
    rw [hscopes] at hshows
    refine ⟨hshows, fun t ht i hi => hshows.level_enclosing ht hi, ?_⟩
    rw [analyze, scopeEvents_of_ok hmirrors p.span _ herror, hcount]
    rfl
  · intro e he
    rcases p.analyze_scopes_cases with ⟨-, scopes, hok⟩ | ⟨e', herror, -⟩
    · rw [hok] at he
      contradiction
    · have hstarts := scopeEvents_starts hmirrors p.span (ScopeTable.new "global" 1)
      rw [hcount] at hstarts
      exact ⟨hstarts, scopeEvents_ne_of_error hmirrors p.span _ herror _⟩

/-- A program with a procedure inside another has three tables; one that assigns to an unknown name in
its procedure comes no further than into the body. -/
theorem scopes_mirror_nested_and_refused_procedures :
    (∃ p scopes, parse ("program p; procedure q(x, y : real); var b : integer; " ++
        "procedure r; begin end; begin end; var a : integer; begin end.").toList "p.pas" false =
          .ok p ∧ p.scopePaths = [[], [0], [0, 1]] ∧ p.analyze.scopes = .ok scopes ∧
        scopes.Shows p p.scopePaths ∧ p.analyze.events = p.brackets) ∧
      ∃ p, parse "program p; procedure q; begin x := 1 end; begin end.".toList "p.pas" false =
        .ok p ∧ p.analyze.events.length = 2 ∧ p.brackets.length = 4 ∧
        p.analyze.events <+: p.brackets := by
  have hnested : (parse ("program p; procedure q(x, y : real); var b : integer; " ++
      "procedure r; begin end; begin end; var a : integer; begin end.").toList "p.pas"
      false).toOption.any (fun p => p.analyze.scopes.isOk &&
        p.scopePaths = [[], [0], [0, 1]]) = true := by decide +kernel
  have hrefused : (parse "program p; procedure q; begin x := 1 end; begin end.".toList "p.pas"
      false).toOption.any (fun p => !p.analyze.scopes.isOk && p.analyze.events.length = 2 &&
        p.brackets.length = 4) = true := by decide +kernel
  constructor
  · obtain ⟨p, hp, htest⟩ := parse_of_any hnested
    simp only [Bool.and_eq_true, decide_eq_true_eq] at htest
    obtain ⟨scopes, hscopes⟩ := exists_scopes_of_isOk htest.1
    obtain ⟨-, -, haccepted, -⟩ := scopes_mirror_procedures hp
    obtain ⟨hshows, -, hevents⟩ := haccepted scopes hscopes
    exact ⟨p, scopes, hp, htest.2, hscopes, hshows, hevents⟩
  · obtain ⟨p, hp, htest⟩ := parse_of_any hrefused
    simp only [Bool.and_eq_true, decide_eq_true_eq] at htest
    obtain ⟨⟨hnotOk, htold⟩, hbrackets⟩ := htest
    obtain ⟨-, -, -, hstopped⟩ := scopes_mirror_procedures hp
    cases hscopes : p.analyze.scopes with
    | ok scopes =>
        rw [hscopes] at hnotOk
        contradiction
    | error e => exact ⟨p, hp, htold, hbrackets, (hstopped e hscopes).1⟩

end Program

end NestedPascal
