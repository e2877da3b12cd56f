import NestedPascal.Proofs.Scope.Declaring

/-!
# What the analysis of a block comes to

The table of a scope holds what the scope offers at each moment of its analysis: the parameters, then
all procedures, then one variable after another.  So wherever statements or a nested procedure are
looked at, the chain of tables stands for what is visible there, and every body of the block is either
as it came from the source or resolved against just that.
-/

namespace NestedPascal

/-! ## Declarations that differ in their blocks at most -/

inductive Declaration.SameHeader : Declaration → Declaration → Prop where
  | variable (v) : SameHeader (.variable v) (.variable v)
  | procedure (span name params block block') :
      SameHeader (.procedure span name params block) (.procedure span name params block')

theorem Declaration.SameHeader.refl (d : Declaration) : d.SameHeader d := by
  cases d with
  | «variable» v => exact .variable v
  | procedure span name params block => exact .procedure span name params block block

theorem sameHeaders_refl (ds : List Declaration) : List.Forall₂ Declaration.SameHeader ds ds :=
  List.forall₂_same.mpr fun d _ => .refl d

theorem procedureSymbols_congr {ds ds' : List Declaration}
    (h : List.Forall₂ Declaration.SameHeader ds ds') (path : DeclarationPath) (place : Nat) :
    procedureSymbols path place ds = procedureSymbols path place ds' := by
  induction h generalizing place with
  | nil => rfl
  | cons hd _ ih => cases hd <;> simp [procedureSymbols, ih]

theorem variableSymbols_congr {ds ds' : List Declaration}
    (h : List.Forall₂ Declaration.SameHeader ds ds') (level : Nat) :
    variableSymbols level ds = variableSymbols level ds' := by
  induction h with
  | nil => rfl
  | cons hd _ ih => cases hd <;> simp [variableSymbols, ih]

/-! ## Properties of all scopes of a block -/

namespace LexicalScope

def Everywhere (P : LexicalScope → Prop) (s : LexicalScope) : Prop :=
  ∀ path t, s.descendant? path = some t → P t

theorem everywhere_iff {P : LexicalScope → Prop} {s : LexicalScope} :
    s.Everywhere P ↔ P s ∧ ∀ place t, s.inner? place = some t → t.Everywhere P := by
  constructor
  · intro h
    refine ⟨h [] s rfl, ?_⟩
    intro place t ht path u hu
    exact h (place :: path) u (Option.bind_eq_some_iff.mpr ⟨t, ht, hu⟩)
  · rintro ⟨hs, hinner⟩ path t ht
    cases path with
    | nil =>
        cases ht
        exact hs
    | cons place path =>
        obtain ⟨u, hu, ht⟩ := Option.bind_eq_some_iff.mp ht
        exact hinner place u hu path t ht

theorem Everywhere.mono {P Q : LexicalScope → Prop} {s : LexicalScope} (h : s.Everywhere P)
    (himp : ∀ t, P t → Q t) : s.Everywhere Q :=
  fun path t ht => himp t (h path t ht)

theorem everywhere_fromSource {s : LexicalScope} (hs : s.block.FromSource) :
    s.Everywhere fun t => t.block.FromSource := by
  intro path t ht
  induction path generalizing s with
  | nil =>
      cases ht
      exact hs
  | cons place path ih =>
      obtain ⟨u, hu, ht⟩ := Option.bind_eq_some_iff.mp ht
      obtain ⟨span, name, hget, -, -⟩ := inner?_eq_some hu
      have hdeclarations := declarationsFromSource_iff.mp (Block.fromSource_iff.mp hs).1
      exact ih (hdeclarations _ (List.mem_of_getElem? hget)).2.2 ht

/-- The statements of the scope went through resolution against what is visible to them. -/
def Resolved (s : LexicalScope) : Prop :=
  ∃ chain raw, Represents chain s.visible ∧ statementsFromSource raw ∧
    resolveStatements chain raw = (s.block.body, .ok ())

/-- The statements of the scope are untouched, or resolution went through some of them. -/
def PartlyResolved (s : LexicalScope) : Prop :=
  statementsFromSource s.block.body ∨
    ∃ chain raw, Represents chain s.visible ∧ statementsFromSource raw ∧
      (resolveStatements chain raw).1 = s.block.body

theorem everywhere_partlyResolved_of_fromSource {s : LexicalScope} (hs : s.block.FromSource) :
    s.Everywhere PartlyResolved := by
  exact (everywhere_fromSource hs).mono fun t ht => .inl (Block.fromSource_iff.mp ht).2

theorem Resolved.fit {s : LexicalScope} (h : s.Resolved) : statementsFit s.visible s.block.body := by
  obtain ⟨chain, raw, hchain, hraw, heq⟩ := h
  have hfit := resolveStatements_fit hchain raw hraw (by rw [heq])
  rwa [heq] at hfit

theorem Resolved.nodup {s : LexicalScope} (h : s.Resolved) :
    (s.offered.map ScopeSymbol.name).Nodup := by
  obtain ⟨chain, raw, hchain, -, -⟩ := h
  cases hchain with
  | cons hown _ => exact hown.nodup

theorem Resolved.partly {s : LexicalScope} (h : s.Resolved) : s.PartlyResolved := by
  obtain ⟨chain, raw, hchain, hraw, heq⟩ := h
  exact .inr ⟨chain, raw, hchain, hraw, congrArg Prod.fst heq⟩

end LexicalScope

/-! ## Blocks and their declarations -/

/-- What the analysis of the block of a scope comes to. -/
structure LexicalScope.Analyzed (s : LexicalScope) (a : Analysis Block) : Prop where
  partly : { s with block := a.part }.Everywhere PartlyResolved
  fully : a.error = none → { s with block := a.part }.Everywhere Resolved
  passes : a.error = none → ∀ r ∈ s.block.requirements s.declaration s.params s.outer, r.Holds
  rejects : ∀ e, a.error = some e →
    Rejects (s.block.requirements s.declaration s.params s.outer) e

theorem LexicalScope.Analyzed.of_error {s : LexicalScope} {a : Analysis Block} {e : SemanticError}
    (herror : a.error = some e) (hpartly : { s with block := a.part }.Everywhere PartlyResolved)
    (hrejects : Rejects (s.block.requirements s.declaration s.params s.outer) e) : s.Analyzed a := by
  refine ⟨hpartly, ?_, ?_, ?_⟩
  · intro hnone
    rw [herror] at hnone
    contradiction
  · intro hnone
    rw [herror] at hnone
    contradiction
  · intro e' he'
    rw [herror, Option.some.injEq] at he'
    exact he' ▸ hrejects

/-- The scope of a procedure among declarations of a scope that offers some symbols before them. -/
def scopeAmong (path : DeclarationPath) (outer : Visible) (offered : List ScopeSymbol)
    (place : Nat) (declarations : List Declaration) (i : Nat) : Option LexicalScope :=
  match declarations[i]? with
  | some (.procedure _ _ params block) =>
    some ⟨path ++ [place + i], params, block,
      (offered ++ (variableSymbols (path.length + 1) (declarations.take i)).map .variable) :: outer⟩
  | _ => none

/-- What the analysis of declarations comes to. -/
structure DeclarationsAnalyzed (path : DeclarationPath) (outer : Visible)
    (offered : List ScopeSymbol) (place : Nat) (declarations : List Declaration)
    (a : Analysis (List Declaration)) : Prop where
  headers : List.Forall₂ Declaration.SameHeader declarations a.part
  table : a.error = none →
    a.table.Holds (offered ++ (variableSymbols (path.length + 1) declarations).map .variable)
  partly : ∀ i t, scopeAmong path outer offered place a.part i = some t →
    t.Everywhere LexicalScope.PartlyResolved
  fully : a.error = none → ∀ i t, scopeAmong path outer offered place a.part i = some t →
    t.Everywhere LexicalScope.Resolved
  passes : a.error = none →
    ∀ r ∈ declarationRequirements path outer offered place declarations, r.Holds
  rejects : ∀ e, a.error = some e →
    Rejects (declarationRequirements path outer offered place declarations) e

theorem DeclarationsAnalyzed.of_error {path : DeclarationPath} {outer : Visible}
    {offered : List ScopeSymbol} {place : Nat} {declarations : List Declaration}
    {a : Analysis (List Declaration)} {e : SemanticError} (herror : a.error = some e)
    (hheaders : List.Forall₂ Declaration.SameHeader declarations a.part)
    (hpartly : ∀ i t, scopeAmong path outer offered place a.part i = some t →
      t.Everywhere LexicalScope.PartlyResolved)
    (hrejects : Rejects (declarationRequirements path outer offered place declarations) e) :
    DeclarationsAnalyzed path outer offered place declarations a := by
  refine ⟨hheaders, ?_, hpartly, ?_, ?_, ?_⟩
  · intro hnone
    rw [herror] at hnone
    contradiction
  · intro hnone
    rw [herror] at hnone
    contradiction
  · intro hnone
    rw [herror] at hnone
    contradiction
  · intro e' he'
    rw [herror, Option.some.injEq] at he'
    exact he' ▸ hrejects

theorem scopeAmong_cons_succ (path : DeclarationPath) (outer : Visible)
    (offered : List ScopeSymbol) (place : Nat) (d : Declaration) (rest : List Declaration)
    (i : Nat) :
    scopeAmong path outer offered place (d :: rest) (i + 1) =
      scopeAmong path outer
        (offered ++ (variableSymbols (path.length + 1) [d]).map .variable) (place + 1) rest i := by
  have hplace : place + (i + 1) = place + 1 + i := by omega
  cases d <;>
    simp [scopeAmong, variableSymbols, hplace]

section

variable {P : LexicalScope → Prop} {path : DeclarationPath} {outer : Visible}
  {offered : List ScopeSymbol} {place : Nat} {rest : List Declaration}

theorem forall_scopeAmong_variable {v : TypedName} :
    (∀ i t, scopeAmong path outer offered place (.variable v :: rest) i = some t → P t) ↔
      ∀ i t, scopeAmong path outer (offered ++ [.variable (v.symbol (path.length + 1))])
        (place + 1) rest i = some t → P t := by
  constructor
  · intro h i
    have hi := h (i + 1)
    rwa [scopeAmong_cons_succ] at hi
  · intro h i
    cases i with
    | zero => simp [scopeAmong]
    | succ i =>
        rw [scopeAmong_cons_succ]
        exact h i

theorem forall_scopeAmong_procedure {span : Span} {name : String} {params : List TypedName}
    {block : Block} :
    (∀ i t, scopeAmong path outer offered place (.procedure span name params block :: rest) i =
        some t → P t) ↔
      P ⟨path ++ [place], params, block, offered :: outer⟩ ∧
        ∀ i t, scopeAmong path outer offered (place + 1) rest i = some t → P t := by
  have hfirst : scopeAmong path outer offered place (.procedure span name params block :: rest) 0 =
      some ⟨path ++ [place], params, block, offered :: outer⟩ := by
    simp [scopeAmong, variableSymbols]
  have hlater (i : Nat) :
      scopeAmong path outer offered place (.procedure span name params block :: rest) (i + 1) =
        scopeAmong path outer offered (place + 1) rest i := by
    rw [scopeAmong_cons_succ]
    simp [variableSymbols]
  constructor
  · intro h
    refine ⟨h 0 _ hfirst, ?_⟩
    intro i t ht
    exact h (i + 1) t (by rw [hlater, ht])
  · rintro ⟨hblock, h⟩ i t ht
    cases i with
    | zero =>
        rw [hfirst, Option.some.injEq] at ht
        exact ht ▸ hblock
    | succ i =>
        rw [hlater] at ht
        exact h i t ht

end

theorem scopeAmong_fromSource {path : DeclarationPath} {outer : Visible}
    {offered : List ScopeSymbol} {place : Nat} {declarations : List Declaration}
    (hdeclarations : declarationsFromSource declarations) {i : Nat} {t : LexicalScope}
    (ht : scopeAmong path outer offered place declarations i = some t) :
    t.Everywhere LexicalScope.PartlyResolved := by
  unfold scopeAmong at ht
  split at ht
  next span name params block hget =>
    cases ht
    refine LexicalScope.everywhere_partlyResolved_of_fromSource ?_
    exact (declarationsFromSource_iff.mp hdeclarations _ (List.mem_of_getElem? hget)).2.2
  next => contradiction

/-- The body of a procedure is analysed if its parameters are fresh, in a table that holds them. -/
theorem procedureScope_cases {own : ScopeTable} {offered : List ScopeSymbol}
    (hown : own.Holds offered) {name : String} {params : List TypedName} {level : Nat}
    {declaration : DeclarationPath}
    (hmem : .procedure ⟨canonicalName name, params.map (·.symbol (own.level + 1)), level,
      declaration⟩ ∈ offered)
    (hparams : ∀ p ∈ params, p.FromSource) (span : Span) (block : Block)
    (analyzeBody : ScopeTable → Analysis Block) :
    (∃ e, (procedureScope own span name params block analyzeBody).error = some e ∧
        (procedureScope own span name params block analyzeBody).part = block ∧
        (procedureScope own span name params block analyzeBody).events =
          [⟨.scopeEnter (canonicalName name) (own.level + 1), span⟩] ∧
        Rejects (paramRequirements [] params) e) ∨
      ∃ table, table.Holds ((params.map (·.symbol (own.level + 1))).map .variable) ∧
        table.level = own.level + 1 ∧ (∀ r ∈ paramRequirements [] params, r.Holds) ∧
        (procedureScope own span name params block analyzeBody).part = (analyzeBody table).part ∧
        (procedureScope own span name params block analyzeBody).events =
          scopeEvents span (.new (canonicalName name) (own.level + 1)) (analyzeBody table) ∧
        (procedureScope own span name params block analyzeBody).error =
          (analyzeBody table).error := by
  have hfind : own.find? (canonicalName name) = some (.procedure ⟨canonicalName name,
      params.map (·.symbol (own.level + 1)), level, declaration⟩) := hown.find?_of_mem hmem
  have hsettles := ScopeTable.declareParams_settles hparams (own.level + 1)
    (ScopeTable.holds_new (canonicalName name) (own.level + 1))
  simp only [procedureScope, hfind]
  cases hresult : (ScopeTable.new (canonicalName name) (own.level + 1)).declareParams params
      (params.map (·.symbol (own.level + 1))) with
  | error e => exact .inl ⟨e, rfl, rfl, rfl, hsettles.rejects e hresult⟩
  | ok table =>
      obtain ⟨hholds, htable, hlevel⟩ := hsettles.passes table hresult
      exact .inr ⟨table, htable, hlevel, hholds, rfl, rfl, rfl⟩

/-- The scopes inside a block are those of the procedures among its declarations. -/
theorem LexicalScope.inner?_eq_scopeAmong (s : LexicalScope) (i : Nat) :
    s.inner? i = scopeAmong s.declaration s.outer s.hoisted 0 s.block.declarations i := by
  rw [inner?, scopeAmong, Nat.zero_add]
  rfl

theorem LexicalScope.hoisted_congr {s : LexicalScope} {b : Block}
    (h : List.Forall₂ Declaration.SameHeader s.block.declarations b.declarations) :
    { s with block := b }.hoisted = s.hoisted := by
  rw [hoisted, hoisted, procedures, procedures, procedureSymbols_congr h]
  rfl

theorem LexicalScope.visible_congr {s : LexicalScope} {b : Block}
    (h : List.Forall₂ Declaration.SameHeader s.block.declarations b.declarations) :
    { s with block := b }.visible = s.visible := by
  rw [visible, visible, offered, offered, hoisted_congr h, declaredVariables, declaredVariables,
    variableSymbols_congr h]
  rfl

theorem LexicalScope.everywhere_of_members {P : LexicalScope → Prop} {s : LexicalScope} {b : Block}
    (h : List.Forall₂ Declaration.SameHeader s.block.declarations b.declarations)
    (hs : P { s with block := b })
    (hmembers : ∀ i t, scopeAmong s.declaration s.outer s.hoisted 0 b.declarations i = some t →
      t.Everywhere P) : { s with block := b }.Everywhere P := by
  rw [everywhere_iff]
  constructor
  · exact hs
  · intro i t ht
    rw [inner?_eq_scopeAmong, hoisted_congr h] at ht
    exact hmembers i t ht

/-- What the analysis of a block comes to when that of its declarations is done. -/
theorem block_analyzed_of_members {outer : ScopeChain} {visible : Visible}
    (houter : Represents outer visible) {path : DeclarationPath} {params : List TypedName}
    {span bodySpan : Span} {declarations : List Declaration} {body : List Statement}
    (hblock : (Block.mk span declarations bodySpan body).FromSource)
    (hheaders : ∀ r ∈ headerRequirements (params.map (canonicalName ·.name)) declarations, r.Holds)
    {members : Analysis (List Declaration)}
    (hmembers : DeclarationsAnalyzed path visible
      (LexicalScope.mk path params (.mk span declarations bodySpan body) visible).hoisted 0
      declarations members) :
    (LexicalScope.mk path params (.mk span declarations bodySpan body) visible).Analyzed
      (match members.error with
      | some _ => members.within (fun ds => .mk span ds bodySpan body) [] []
      | none =>
        let resolved := resolveStatements (members.table :: outer) body
        let error := match resolved.2 with
          | .ok () => none
          | .error e => some e
        ⟨.mk span members.part bodySpan resolved.1, members.table, members.nested, members.events,
          error⟩) := by
  set s := LexicalScope.mk path params (.mk span declarations bodySpan body) visible with hs
  cases herror : members.error with
  | some e =>
      apply LexicalScope.Analyzed.of_error herror
      · exact LexicalScope.everywhere_of_members hmembers.headers (.inl hblock.2) hmembers.partly
      · rw [Block.requirements]
        exact (Rejects.after hheaders (hmembers.rejects e herror)).append
  | none =>
      have hchain : Represents (members.table :: outer) s.visible :=
        .cons (hmembers.table herror) houter
      have hbody := resolveStatements_settles hchain body hblock.2
      have hfront := List.forall_mem_append.mpr ⟨hheaders, hmembers.passes herror⟩
      set resolved := resolveStatements (members.table :: outer) body with hresolved
      have hvisible : { s with block := .mk span members.part bodySpan resolved.1 }.visible =
          s.visible := LexicalScope.visible_congr hmembers.headers
      have hpartly : { s with block := .mk span members.part bodySpan resolved.1 }.Everywhere
          LexicalScope.PartlyResolved := by
        refine LexicalScope.everywhere_of_members hmembers.headers (.inr ?_) hmembers.partly
        rw [hvisible]
        exact ⟨_, body, hchain, hblock.2, rfl⟩
      cases hresult : resolved.2 with
      | error e =>
          simp only [hresult]
          apply LexicalScope.Analyzed.of_error rfl hpartly
          rw [Block.requirements]
          exact Rejects.after hfront (hbody.rejects e hresult)
      | ok _ =>
          have hall : { s with block := .mk span members.part bodySpan resolved.1 }.Resolved := by
            rw [LexicalScope.Resolved, hvisible]
            exact ⟨_, body, hchain, hblock.2, Prod.ext rfl hresult⟩
          simp only [hresult]
          refine ⟨hpartly, ?_, ?_, ?_⟩
          · intro _
            exact LexicalScope.everywhere_of_members hmembers.headers hall (hmembers.fully herror)
          · intro _
            rw [Block.requirements]
            exact List.forall_mem_append.mpr ⟨hfront, (hbody.passes _ hresult).1⟩
          · intro e' he'
            contradiction

namespace DeclarationsAnalyzed

variable {path : DeclarationPath} {outer : Visible} {offered : List ScopeSymbol} {place : Nat}
  {rest : List Declaration} {a : Analysis (List Declaration)}

theorem cons_variable {v : TypedName}
    (h : DeclarationsAnalyzed path outer (offered ++ [.variable (v.symbol (path.length + 1))])
      (place + 1) rest a)
    (hfresh : (Requirement.fresh (offered.map ScopeSymbol.name) (canonicalName v.name)
      v.span).Holds) :
    DeclarationsAnalyzed path outer offered place (.variable v :: rest)
      (a.within (.variable v :: ·) [] []) := by
  refine ⟨.cons (.refl _) h.headers, ?_, ?_, ?_, ?_, ?_⟩
  · intro herror
    rw [variableSymbols, List.map_cons, List.append_cons]
    exact h.table herror
  · exact forall_scopeAmong_variable.mpr h.partly
  · intro herror
    exact forall_scopeAmong_variable.mpr (h.fully herror)
  · intro herror
    rw [declarationRequirements]
    exact List.forall_mem_cons.mpr ⟨hfresh, h.passes herror⟩
  · intro e he
    rw [declarationRequirements]
    exact .cons hfresh (h.rejects e he)

theorem cons_procedure {span : Span} {name : String} {params : List TypedName}
    {block block' : Block} {nested : List ScopeTree} {events : List Event}
    (h : DeclarationsAnalyzed path outer offered (place + 1) rest a)
    (hholds : ∀ r ∈ paramRequirements [] params ++
      block.requirements (path ++ [place]) params (offered :: outer), r.Holds)
    (hresolved : (LexicalScope.mk (path ++ [place]) params block' (offered :: outer)).Everywhere
      LexicalScope.Resolved) :
    DeclarationsAnalyzed path outer offered place (.procedure span name params block :: rest)
      (a.within (.procedure span name params block' :: ·) nested events) := by
  refine ⟨.cons (.procedure span name params block block') h.headers, ?_, ?_, ?_, ?_, ?_⟩
  · intro herror
    exact h.table herror
  · have hpartly := hresolved.mono fun _ => LexicalScope.Resolved.partly
    exact forall_scopeAmong_procedure.mpr ⟨hpartly, h.partly⟩
  · intro herror
    exact forall_scopeAmong_procedure.mpr ⟨hresolved, h.fully herror⟩
  · intro herror
    rw [declarationRequirements]
    exact List.forall_mem_append.mpr ⟨hholds, h.passes herror⟩
  · intro e he
    rw [declarationRequirements]
    exact Rejects.after hholds (h.rejects e he)

theorem stopped_procedure {span : Span} {name : String} {params : List TypedName}
    {block block' : Block} {own : ScopeTable} {events : List Event} {e : SemanticError}
    (hrest : declarationsFromSource rest)
    (hpartly : (LexicalScope.mk (path ++ [place]) params block' (offered :: outer)).Everywhere
      LexicalScope.PartlyResolved)
    (hrejects : Rejects (paramRequirements [] params ++
      block.requirements (path ++ [place]) params (offered :: outer)) e) :
    DeclarationsAnalyzed path outer offered place (.procedure span name params block :: rest)
      ⟨.procedure span name params block' :: rest, own, [], events, some e⟩ := by
  apply DeclarationsAnalyzed.of_error rfl
  · exact .cons (.procedure span name params block block') (sameHeaders_refl _)
  · refine forall_scopeAmong_procedure.mpr ⟨hpartly, ?_⟩
    intro i t ht
    exact scopeAmong_fromSource hrest ht
  · rw [declarationRequirements]
    exact hrejects.append

end DeclarationsAnalyzed

mutual

theorem Block.analyze_analyzed {outer : ScopeChain} {visible : Visible}
    (houter : Represents outer visible) {own : ScopeTable} {path : DeclarationPath}
    {params : List TypedName}
    (hown : own.Holds ((params.map (·.symbol (path.length + 1))).map .variable))
    (hlevel : own.level = path.length + 1) :
    (block : Block) → block.FromSource →
      (LexicalScope.mk path params block visible).Analyzed (block.analyze outer own path)
  | .mk span declarations bodySpan body, hblock => by
    have hheaders := ScopeTable.declareHeaders_settles outer path 0 hblock.1 hown hlevel
    have hentered : ((params.map (·.symbol (path.length + 1))).map ScopeSymbol.variable).map
        ScopeSymbol.name = params.map (canonicalName ·.name) := by
      simp [ScopeSymbol.name, TypedName.symbol]
    rw [Block.analyze]
    cases hresult : own.declareHeaders outer path 0 declarations with
    | error e =>
        have hrejects := hheaders.rejects e hresult
        rw [hentered] at hrejects
        apply LexicalScope.Analyzed.of_error rfl
        · exact LexicalScope.everywhere_partlyResolved_of_fromSource hblock
        · rw [Block.requirements, List.append_assoc]
          exact hrejects.append
    | ok own' =>
        obtain ⟨hholds, hown', hlevel'⟩ := hheaders.passes own' hresult
        rw [hentered] at hholds
        have hmembers := analyzeDeclarations_analyzed houter hown' (hlevel'.trans hlevel) 0
          declarations hblock.1 (fun q hq => List.mem_append_right _ (List.mem_map_of_mem hq))
        exact block_analyzed_of_members houter hblock hholds hmembers

theorem analyzeDeclarations_analyzed {outer : ScopeChain} {visible : Visible}
    (houter : Represents outer visible) {own : ScopeTable} {offered : List ScopeSymbol}
    {path : DeclarationPath} (hown : own.Holds offered) (hlevel : own.level = path.length + 1)
    (place : Nat) :
    (declarations : List Declaration) → declarationsFromSource declarations →
      (∀ q ∈ procedureSymbols path place declarations, .procedure q ∈ offered) →
      DeclarationsAnalyzed path visible offered place declarations
        (analyzeDeclarations outer own path place declarations)
  | [], _, _ => by
    rw [analyzeDeclarations]
    refine ⟨.nil, ?_, ?_, ?_, ?_, ?_⟩
    · simpa [variableSymbols] using hown
    · simp [scopeAmong]
    · simp [scopeAmong]
    · simp [declarationRequirements]
    · simp
  | .variable v :: rest, hdeclarations, hheaders => by
    have hfirst := ScopeTable.declareVariable_settles hown outer hdeclarations.1
    rw [hlevel] at hfirst
    rw [analyzeDeclarations]
    cases hresult : own.declareVariable outer v with
    | error e =>
        apply DeclarationsAnalyzed.of_error rfl
        · exact sameHeaders_refl _
        · intro i t ht
          exact scopeAmong_fromSource hdeclarations ht
        · rw [declarationRequirements]
          exact (hfirst.rejects e hresult).cons_of_singleton
    | ok own' =>
        obtain ⟨hholds, hown', hlevel'⟩ := hfirst.passes own' hresult
        have hmore := analyzeDeclarations_analyzed houter hown' hlevel' (place + 1) rest
          hdeclarations.2 (fun q hq => List.mem_append_left _ (hheaders q hq))
        exact hmore.cons_variable (List.forall_mem_singleton.mp hholds)
  | .procedure span name params block :: rest, hdeclarations, hheaders => by
    have hprocedures : ∀ q ∈ procedureSymbols path (place + 1) rest, .procedure q ∈ offered :=
      fun q hq => hheaders q (List.mem_cons_of_mem _ hq)
    have hsymbol := hheaders _ (List.mem_cons_self ..)
    have hdeep : own.level + 1 = (path ++ [place]).length + 1 := by
      rw [hlevel, List.length_append, List.length_singleton]
    have hformals : path.length + 2 = own.level + 1 := by rw [hlevel]
    rw [hformals] at hsymbol
    have hinner (table : ScopeTable)
        (htable : table.Holds ((params.map (·.symbol (own.level + 1))).map .variable))
        (htableLevel : table.level = own.level + 1) :=
      Block.analyze_analyzed (.cons hown houter) (hdeep ▸ htable) (htableLevel.trans hdeep) block
        hdeclarations.1.2.2
    have hmore := analyzeDeclarations_analyzed houter hown hlevel (place + 1) rest hdeclarations.2
      hprocedures
    rw [analyzeDeclarations]
    rcases procedureScope_cases hown hsymbol hdeclarations.1.2.1 span block fun table =>
        block.analyze (own :: outer) table (path ++ [place]) with
      ⟨e, herror, hpart, -, hrejects⟩ | ⟨table, htable, htableLevel, hholds, hpart, -, herror⟩
    · simp only [herror, hpart]
      refine .stopped_procedure hdeclarations.2 ?_ hrejects.append
      exact LexicalScope.everywhere_partlyResolved_of_fromSource hdeclarations.1.2.2
    · have hbody := hinner table htable htableLevel
      cases hbodyError : (block.analyze (own :: outer) table (path ++ [place])).error with
      | some e =>
          simp only [herror, hpart, hbodyError]
          exact .stopped_procedure hdeclarations.2 hbody.partly
            (Rejects.after hholds (hbody.rejects e hbodyError))
      | none =>
          simp only [herror, hpart, hbodyError]
          exact hmore.cons_procedure
            (List.forall_mem_append.mpr ⟨hholds, hbody.passes hbodyError⟩)
            (hbody.fully hbodyError)

end

end NestedPascal
