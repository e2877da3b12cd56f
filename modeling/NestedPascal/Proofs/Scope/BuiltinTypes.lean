import NestedPascal.Proofs.Run.Evaluation
import NestedPascal.Proofs.Scope.Entries
import NestedPascal.Proofs.Scope.Moments

/-!
# Builtin types are never shadowed

A declared name is an identifier, and no spelling of a keyword is one.  So at every moment of analysis
each table still has the builtin types under their names, every declared type is found, and whatever
takes a declared name already is something that the program itself declares.
-/

namespace NestedPascal

/-! ## Names that a program declares -/

/-- A variable or parameter of the program, at any depth. -/
def Program.DeclaresTyped (p : Program) (v : TypedName) : Prop :=
  ∃ path s, p.scope? path = some s ∧ (v ∈ s.params ∨ .variable v ∈ s.block.declarations)

/-- A name that the program declares, its own included. -/
inductive Program.Declares (p : Program) : String → Prop where
  | program : Declares p p.name
  | typed {v} : p.DeclaresTyped v → Declares p v.name
  | procedure {path s span name params block} : p.scope? path = some s →
    .procedure span name params block ∈ s.block.declarations → Declares p name

namespace Program.FromSource

variable {p : Program} {path : DeclarationPath} {s : LexicalScope}

theorem declaration (hp : p.FromSource) (hs : p.scope? path = some s) {d : Declaration}
    (hd : d ∈ s.block.declarations) : d.FromSource := by
  have hblock : s.block.FromSource :=
    LexicalScope.everywhere_fromSource (s := p.globalScope) hp.block path s hs
  exact declarationsFromSource_iff.mp (Block.fromSource_iff.mp hblock).1 d hd

theorem param (hp : p.FromSource) (hs : p.scope? path = some s) {v : TypedName}
    (hv : v ∈ s.params) : v.FromSource := by
  induction path using List.reverseRecOn with
  | nil =>
      cases hs
      contradiction
  | append_singleton above place =>
      rw [Program.scope?, LexicalScope.descendant?_concat] at hs
      obtain ⟨around, haround, hinner⟩ := Option.bind_eq_some_iff.mp hs
      obtain ⟨span, name, hget, -, -⟩ := LexicalScope.inner?_eq_some hinner
      exact (hp.declaration haround (List.mem_of_getElem? hget)).2.1 v hv

theorem typed (hp : p.FromSource) {v : TypedName} (hv : p.DeclaresTyped v) : v.FromSource := by
  obtain ⟨path, s, hs, hparam | hvariable⟩ := hv
  · exact hp.param hs hparam
  · exact hp.declaration hs hvariable

theorem isIdentifier (hp : p.FromSource) {name : String} (hname : p.Declares name) :
    IsIdentifier name := by
  cases hname with
  | program => exact hp.name
  | typed hv => exact (hp.typed hv).name
  | procedure hs hd => exact (hp.declaration hs hd).1

end Program.FromSource

/-! ## Problems of statements -/

/-- The problem is one of a declared name or of its type. -/
def SemanticCause.OfDeclaration : SemanticCause → Prop
  | .duplicate .. | .unknownType _ => True
  | _ => False

section

variable {chain : ScopeChain} {e : SemanticError}

theorem VariableRef.cause_of_resolve {r : VariableRef} (h : (r.resolve chain).2 = .error e) :
    ¬ e.cause.OfDeclaration := by
  unfold resolve at h
  split at h
  next => contradiction
  next =>
    cases h
    exact id

theorem BinaryOperator.cause_of_check {op : BinaryOperator} {span : Span} {left right : Kind}
    (h : op.check span left right = .error e) : ¬ e.cause.OfDeclaration := by
  unfold check at h
  split at h
  next =>
    cases h
    exact id
  next =>
    split at h
    next => contradiction
    next =>
      cases h
      exact id

theorem Expr.cause_of_resolve (x : Expr) (h : (x.resolve chain).2 = .error e) :
    ¬ e.cause.OfDeclaration := by
  induction x with
  | literal span value => contradiction
  | «variable» r =>
      rw [resolve] at h
      cases hr : (r.resolve chain).2 with
      | ok v =>
          rw [hr] at h
          contradiction
      | error e' =>
          rw [hr] at h
          cases h
          exact VariableRef.cause_of_resolve hr
  | unary span sign operand ih => exact ih h
  | binary span op left right ihl ihr =>
      rw [resolve] at h
      cases hl : (left.resolve chain).2 with
      | error e' =>
          rw [hl] at h
          cases h
          exact ihl hl
      | ok leftKind =>
          rw [hl] at h
          rcases bind_eq_error_iff.mp h with hr | ⟨rightKind, -, hcheck⟩
          · exact ihr hr
          · exact BinaryOperator.cause_of_check hcheck

theorem cause_of_resolveArguments {name : String} {position : Nat} {params : List VariableSymbol}
    {args : List Expr} (h : (resolveArguments chain name position params args).2 = .error e) :
    ¬ e.cause.OfDeclaration := by
  fun_induction resolveArguments chain name position params args with
  | case1 position param params arg args resolved e' herror =>
      cases h
      exact arg.cause_of_resolve herror
  | case2 position param params arg args resolved kind hkind hflows rest ih => exact ih h
  | case3 position param params arg args resolved kind hkind hflows =>
      cases h
      exact id
  | case4 => contradiction

theorem Call.cause_of_resolve {c : Call} (h : (c.resolve chain).2 = .error e) :
    ¬ e.cause.OfDeclaration := by
  unfold resolve at h
  split at h
  next q hq =>
    split at h
    next =>
      dsimp only at h
      cases hargs : (resolveArguments chain c.name 1 q.params c.args).2 with
      | ok _ =>
          rw [hargs] at h
          contradiction
      | error e' =>
          rw [hargs] at h
          cases h
          exact cause_of_resolveArguments hargs
    next =>
      cases h
      exact id
  next =>
    cases h
    exact id

mutual

theorem Statement.cause_of_resolve :
    (s : Statement) → (s.resolve chain).2 = .error e → ¬ e.cause.OfDeclaration
  | .compound span children, h => cause_of_resolveStatements children h
  | .call c, h => Call.cause_of_resolve h
  | .assignment span target value, h => by
    rw [Statement.resolve] at h
    cases hv : (value.resolve chain).2 with
    | error e' =>
        rw [hv] at h
        cases h
        exact value.cause_of_resolve hv
    | ok kind =>
        rw [hv] at h
        rcases bind_eq_error_iff.mp h with ht | ⟨symbol, -, hflows⟩
        · exact VariableRef.cause_of_resolve ht
        · split at hflows
          next => contradiction
          next =>
            cases hflows
            exact id

theorem cause_of_resolveStatements :
    (statements : List Statement) → (resolveStatements chain statements).2 = .error e →
      ¬ e.cause.OfDeclaration
  | [], h => by contradiction
  | s :: rest, h => by
    rw [resolveStatements] at h
    cases hs : (s.resolve chain).2 with
    | error e' =>
        rw [hs] at h
        cases h
        exact s.cause_of_resolve hs
    | ok _ =>
        rw [hs] at h
        exact cause_of_resolveStatements rest h

end

end

/-! ## Tables at the moments of analysis -/

namespace ScopeTable

variable {t : ScopeTable} {symbols : List ScopeSymbol} {name : String} {span : Span}
  {e : SemanticError}

/-- No builtin type stands under the name of an identifier. -/
theorem Holds.find?_ne_builtinType (h : t.Holds symbols) (hname : IsIdentifier name) (kind : Kind) :
    t.find? (canonicalName name) ≠ some (.builtinType kind) := by
  intro hfind
  rw [h.find?_unreserved hname.not_reserved] at hfind
  have hkind : (ScopeSymbol.builtinType kind).name = canonicalName name := by
    simpa using List.find?_some hfind
  have hinteger : canonicalName "INTEGER" = "integer" := by decide +kernel
  have hreal : canonicalName "REAL" = "real" := by decide +kernel
  apply hname.not_reserved
  rw [← hname.canonicalName_canonicalName, ← hkind]
  cases kind with
  | integer => exact .inl hinteger
  | real => exact .inr hreal

/-- A table has another symbol under a name of the program that it refuses. -/
structure Taken (t : ScopeTable) (e : SemanticError) (name : String) : Prop where
  cause : e.cause = .duplicate name t.name
  symbol : ∃ symbol, t.find? (canonicalName name) = some symbol ∧
    ∀ kind, symbol ≠ .builtinType kind

theorem Holds.taken (h : t.Holds symbols) (hname : IsIdentifier name)
    (herror : t.requireUnique (canonicalName name) name span = .error e) : t.Taken e name := by
  unfold requireUnique at herror
  split at herror
  next hsome =>
    cases herror
    obtain ⟨symbol, hsymbol⟩ := Option.isSome_iff_exists.mp hsome
    refine ⟨rfl, symbol, hsymbol, ?_⟩
    rintro kind rfl
    exact h.find?_ne_builtinType hname kind hsymbol
  next => contradiction

end ScopeTable

/-- Every table at the moment holds the builtin types and identifiers. -/
def AnalysisMoment.Sound (m : AnalysisMoment) : Prop :=
  ∀ t ∈ m.table :: m.outer, ∃ symbols, t.Holds symbols

namespace Program

variable {p : Program} {m m' : AnalysisMoment}

theorem AnalysisStep.sound (h : p.AnalysisStep m m') (hp : p.FromSource) (hm : m.Sound) :
    m'.Sound := by
  obtain ⟨⟨symbols, htable⟩, houter⟩ := List.forall_mem_cons.mp hm
  cases h with
  | parameter hs hget hunique =>
      have hv := hp.param hs (List.mem_of_getElem? hget)
      obtain ⟨-, hfresh⟩ := (ScopeTable.requireUnique_settles htable hv.name _).passes _ hunique
      refine List.forall_mem_cons.mpr ⟨⟨_, htable.insert ?_ hv.name.not_reserved hfresh⟩, houter⟩
      exact hv.name.canonicalName_canonicalName
  | parametersOver => exact hm
  | header hs hget hdeclared =>
      obtain ⟨hname, hparams, -⟩ := hp.declaration hs (List.mem_of_getElem? hget)
      obtain ⟨-, htable', -⟩ :=
        (ScopeTable.declareProcedure_settles htable _ _ _ hname hparams).passes _ hdeclared
      exact List.forall_mem_cons.mpr ⟨⟨_, htable'⟩, houter⟩
  | noHeader => exact hm
  | headersOver => exact hm
  | «variable» hs hget hdeclared =>
      have hv : TypedName.FromSource _ := hp.declaration hs (List.mem_of_getElem? hget)
      obtain ⟨-, htable', -⟩ :=
        (ScopeTable.declareVariable_settles htable _ hv).passes _ hdeclared
      exact List.forall_mem_cons.mpr ⟨⟨_, htable'⟩, houter⟩
  | enter => exact List.forall_mem_cons.mpr ⟨⟨[], ScopeTable.holds_new _ _⟩, hm⟩
  | statements => exact hm
  | leave => exact houter

theorem AnalysisReaches.sound (h : p.AnalysisReaches m) (hp : p.FromSource) : m.Sound := by
  induction h with
  | refl =>
      exact List.forall_mem_singleton.mpr ⟨[], ScopeTable.holds_new _ _⟩
  | tail _ hstep ih => exact hstep.sound hp ih

/-- Analysis stops for a reason that its statements give, or because a declared name is taken. -/
theorem AnalysisFails.cases {e : SemanticError} (h : p.AnalysisFails m e) (hp : p.FromSource)
    (hm : m.Sound) : ¬ e.cause.OfDeclaration ∨ ∃ name, p.Declares name ∧ m.table.Taken e name := by
  obtain ⟨symbols, htable⟩ := hm m.table (List.mem_cons_self ..)
  cases h with
  | parameter hs hget hunique =>
      have hv := List.mem_of_getElem? hget
      exact .inr ⟨_, .typed ⟨_, _, hs, .inl hv⟩, htable.taken (hp.param hs hv).name hunique⟩
  | header hs hget hdeclared =>
      have hd := List.mem_of_getElem? hget
      obtain ⟨hname, hparams, -⟩ := hp.declaration hs hd
      rcases bind_eq_error_iff.mp hdeclared with hunique | ⟨-, -, hrest⟩
      · exact .inr ⟨_, .procedure hs hd, htable.taken hname hunique⟩
      · rw [ScopeTable.paramSymbols_eq htable _ hparams] at hrest
        contradiction
  | «variable» hs hget hdeclared =>
      have hd := List.mem_of_getElem? hget
      have hv : TypedName.FromSource _ := hp.declaration hs hd
      rw [ScopeTable.declareVariable, hv.resolveType htable] at hdeclared
      rcases bind_eq_error_iff.mp hdeclared with hkind | ⟨kind, -, hrest⟩
      · contradiction
      rcases bind_eq_error_iff.mp hrest with hunique | ⟨-, -, hinsert⟩
      · exact .inr ⟨_, .typed ⟨_, _, hs, .inr hd⟩, htable.taken hv.name hunique⟩
      · contradiction
  | statements _ _ hresolved => exact .inl (cause_of_resolveStatements _ hresolved)

end Program

theorem ScopeForest.lookup_eq {f : ScopeForest} {key : String} {symbol : ScopeSymbol}
    (h : ∀ t ∈ f.tables, t.table.find? key = some symbol) {i : Nat} (hi : i < f.tables.size)
    (currentOnly : Bool) : f.lookup i key currentOnly = some symbol := by
  have hfind := h f.tables[i] (Array.getElem_mem hi)
  rw [lookup, chain, Array.getElem?_eq_getElem hi]
  cases currentOnly <;>
    simp [ScopeChain.lookup, hfind]

namespace Program

variable {p : Program}

/-- No name that a program declares is that of a builtin type.  So at every moment of analysis each
table that is in use has the builtin types under their names, every declared type is resolved, and no
declared name finds a builtin type in the table that it is for.  Each table that analysis returns is
one of these; and if analysis stops, then never at a type, and at a name that is taken only because
something else than a builtin type has it. -/
theorem builtinTypes_never_shadowed {source : List Char} {file : String} {detailed : Bool}
    (hparse : parse source file detailed = .ok p) :
    (∀ name, p.Declares name → canonicalName name ≠ "integer" ∧ canonicalName name ≠ "real") ∧
      (∀ m, p.AnalysisReaches m →
        (∀ t ∈ m.table :: m.outer, t.find? "integer" = some (.builtinType .integer) ∧
          t.find? "real" = some (.builtinType .real)) ∧
        (∀ v, p.DeclaresTyped v → ∃ kind, m.table.resolveType m.outer v.type = .ok kind) ∧
        ∀ name, p.Declares name → ∀ kind,
          m.table.find? (canonicalName name) ≠ some (.builtinType kind)) ∧
      (∀ scopes, p.analyze.scopes = .ok scopes →
        (∃ t, p.AnalysisEnds ⟨[], .over, t, []⟩) ∧
          (∀ t ∈ scopes.tables, p.Completes t.table) ∧
          ∀ i < scopes.tables.size, ∀ currentOnly,
            scopes.lookup i "integer" currentOnly = some (.builtinType .integer) ∧
              scopes.lookup i "real" currentOnly = some (.builtinType .real)) ∧
      ∀ e, p.analyze.scopes = .error e →
        (∀ text, e.cause ≠ .unknownType text) ∧
          ∃ m, p.AnalysisEnds m ∧ p.AnalysisFails m e ∧
            ∀ text scope, e.cause = .duplicate text scope →
              p.Declares text ∧ scope = m.table.name ∧
                ∃ symbol, m.table.find? (canonicalName text) = some symbol ∧
                  ∀ kind, symbol ≠ .builtinType kind := by
  have hp := fromSource_of_parse hparse
  have hbuiltin {m : AnalysisMoment} (hm : p.AnalysisReaches m) :
      ∀ t ∈ m.table :: m.outer, t.find? "integer" = some (.builtinType .integer) ∧
        t.find? "real" = some (.builtinType .real) := by
    intro t ht
    obtain ⟨symbols, hsymbols⟩ := hm.sound hp t ht
    exact ⟨hsymbols.find?_integer, hsymbols.find?_real⟩
  refine ⟨?_, ?_, ?_, ?_⟩
  · intro name hname
    exact not_or.mp (hp.isIdentifier hname).not_reserved
  · intro m hm
    obtain ⟨symbols, htable⟩ := hm.sound hp m.table (List.mem_cons_self ..)
    refine ⟨hbuiltin hm, ?_, ?_⟩
    · intro v hv
      exact ⟨v.kind, (hp.typed hv).resolveType htable m.outer⟩
    · intro name hname kind
      exact htable.find?_ne_builtinType (hp.isIdentifier hname) kind
  · intro scopes hscopes
    obtain ⟨hends, hcompletes⟩ := ends_of_analyze_ok hp hscopes
    have htables : ∀ t ∈ scopes.tables, t.table.find? "integer" = some (.builtinType .integer) ∧
        t.table.find? "real" = some (.builtinType .real) := by
      intro t ht
      obtain ⟨m, hm, -, htable⟩ := hcompletes t ht
      exact hbuiltin hm t.table (htable ▸ List.mem_cons_self ..)
    refine ⟨hends, hcompletes, ?_⟩
    intro i hi currentOnly
    exact ⟨ScopeForest.lookup_eq (fun t ht => (htables t ht).1) hi currentOnly,
      ScopeForest.lookup_eq (fun t ht => (htables t ht).2) hi currentOnly⟩
  · intro e he
    obtain ⟨m, hm, hfails⟩ := ends_of_analyze_error hp he
    rcases hfails.cases hp (hm.1.sound hp) with hcause | ⟨name, hname, htaken⟩
    · refine ⟨?_, m, hm, hfails, ?_⟩
      · intro text htext
        exact hcause (htext ▸ trivial)
      · intro text scope hduplicate
        exact absurd (hduplicate ▸ trivial) hcause
    · refine ⟨?_, m, hm, hfails, ?_⟩
      · intro text htext
        rw [htaken.cause] at htext
        contradiction
      · intro text scope hduplicate
        rw [htaken.cause, SemanticCause.duplicate.injEq] at hduplicate
        obtain ⟨rfl, rfl⟩ := hduplicate
        exact ⟨hname, rfl, htaken.symbol⟩

/-- Longer words than the keywords are names of a program that is accepted; a program that declares a
name twice is refused at something else than a builtin type. -/
theorem builtinTypes_never_shadowed_in_two_programs :
    (∃ p scopes, parse ("program realm; var integers : Integer; procedure reals(x : REAL); " ++
        "begin end; begin end.").toList "p.pas" false = .ok p ∧ p.Declares "realm" ∧
        p.analyze.scopes = .ok scopes ∧ scopes.tables.size = 2 ∧
        scopes.lookup 1 "real" false = some (.builtinType .real)) ∧
      ∃ p m e, parse "program p; var a : integer; procedure A; begin end; begin end.".toList "p.pas"
          false = .ok p ∧ p.analyze.scopes = .error e ∧ e.cause = .duplicate "a" "global" ∧
        p.AnalysisFails m e ∧ ∃ symbol, m.table.find? (canonicalName "a") = some symbol ∧
          ∀ kind, symbol ≠ .builtinType kind := by
  have haccepted : (parse ("program realm; var integers : Integer; procedure reals(x : REAL); " ++
      "begin end; begin end.").toList "p.pas" false).toOption.any (fun p => p.name = "realm" &&
        p.analyze.scopes.toOption.any (·.tables.size = 2)) = true := by decide +kernel
  have hrefused : (parse "program p; var a : integer; procedure A; begin end; begin end.".toList
      "p.pas" false).toOption.any (fun p =>
        p.analysisError?.any (·.cause = .duplicate "a" "global")) = true := by decide +kernel
  constructor
  · obtain ⟨p, hp, htest⟩ := parse_of_any haccepted
    rw [Bool.and_eq_true, decide_eq_true_eq] at htest
    obtain ⟨hname, htest⟩ := htest
    obtain ⟨-, -, hreturned, -⟩ := builtinTypes_never_shadowed hp
    cases hscopes : p.analyze.scopes with
    | error e =>
        rw [hscopes] at htest
        contradiction
    | ok scopes =>
        rw [hscopes] at htest
        have hsize : scopes.tables.size = 2 := of_decide_eq_true htest
        have hlookup := (hreturned scopes hscopes).2.2 1 (by rw [hsize]; decide) false
        exact ⟨p, scopes, hp, hname ▸ .program, hscopes, hsize, hlookup.2⟩
  · obtain ⟨p, hp, htest⟩ := parse_of_any hrefused
    obtain ⟨-, -, -, hstopped⟩ := builtinTypes_never_shadowed hp
    cases hscopes : p.analyze.scopes with
    | ok scopes =>
        rw [analysisError?, hscopes] at htest
        contradiction
    | error e =>
        rw [analysisError?, hscopes] at htest
        have hcause : e.cause = .duplicate "a" "global" := of_decide_eq_true htest
        obtain ⟨-, m, hm, hfails, hduplicate⟩ := hstopped e hscopes
        obtain ⟨-, -, hsymbol⟩ := hduplicate "a" "global" hcause
        exact ⟨p, m, e, hp, hscopes, hcause, hfails, hsymbol⟩

end Program

end NestedPascal
