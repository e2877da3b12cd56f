import NestedPascal.Proofs.Scope.Acceptance
import NestedPascal.Proofs.Scope.Bare
import NestedPascal.Proofs.Scope.Inference
import NestedPascal.Proofs.Scope.Renaming

/-!
# Analysis of renamed programs

A declaration is renamed to a name that the program does not declare.  What went through resolution
goes through again under the new names, for they denote the renamed symbols, and no two names of a
scope have become the same.  So the renamed program is accepted too, and it is annotated with the
renamed symbols.
-/

namespace NestedPascal

theorem sameHeaders_bare (declarations : List Declaration) :
    List.Forall₂ Declaration.SameHeader declarations (bareDeclarations declarations) := by
  induction declarations with
  | nil => exact .nil
  | cons d rest ih =>
      refine .cons ?_ ih
      cases d with
      | «variable» v => exact .variable v
      | procedure span name params block => exact .procedure span name params block block.bare

/-! ## Resolving renamed phrases -/

theorem Represents.unreserved {chain : ScopeChain} {visible : Visible}
    (h : Represents chain visible) : ∀ offers ∈ visible, ∀ s ∈ offers, ¬ Reserved s.name := by
  induction h with
  | nil => simp
  | cons hhead _ ih => exact List.forall_mem_cons.mpr ⟨hhead.unreserved, ih⟩

theorem Represents.lookup_eq_some {chain : ScopeChain} {visible : Visible}
    (h : Represents chain visible) {name : String} {symbol : ScopeSymbol}
    (hdenote : visible.denote name = some symbol) : chain.lookup name = some symbol := by
  obtain ⟨hname, offers, hoffers, hsymbol⟩ := Visible.mem_of_denote hdenote
  rw [h.lookup_unreserved (hname ▸ h.unreserved offers hoffers symbol hsymbol), hdenote]

section

variable {ρ : Renaming} {path : DeclarationPath} {visible : Visible} {chain : ScopeChain}
  (hchain : Represents chain (visible.rename ρ path))
  (havoids : visible.Avoids (canonicalName ρ.fresh))

include hchain havoids

theorem VariableRef.Denotes.resolve_rename {r : VariableRef} {v : VariableSymbol}
    (hr : r.Denotes visible v) :
    (r.rename ρ path).bare.resolve chain = (r.rename ρ path, .ok (v.rename ρ path)) := by
  have hname : v.name = canonicalName r.name := (Visible.mem_of_denote hr.denote).1
  have hlookup : chain.lookup (v.rename ρ path).name = some (.variable (v.rename ρ path)) :=
    hchain.lookup_eq_some (Visible.denote_rename havoids hr.denote)
  have hkey : canonicalName (r.rename ρ path).bare.name = (v.rename ρ path).name := by
    simp only [VariableRef.rename, VariableRef.bare, hr.symbol]
    exact Renaming.canonicalName_text hname.symm
  rw [VariableRef.resolve, hkey, hlookup]
  simp [VariableRef.rename, VariableRef.bare, hr.symbol]

theorem Expr.HasKind.resolve_rename {e : Expr} {kind : Kind} (he : e.HasKind visible kind) :
    (e.rename ρ path).bare.resolve chain = (e.rename ρ path, .ok kind) := by
  induction he with
  | literal => rfl
  | «variable» hr =>
      simp only [Expr.rename, Expr.bare, Expr.resolve, hr.resolve_rename hchain havoids]
      rfl
  | unary _ ih => simp only [Expr.rename, Expr.bare, Expr.resolve, ih]
  | @binary span op left right kind _ _ hdefined ihl ihr =>
      have hcheck : op.check span kind kind = .ok kind := by simp [BinaryOperator.check, hdefined]
      simp only [Expr.rename, Expr.bare, Expr.resolve, ihl, ihr]
      exact congrArg (Prod.mk _) hcheck

theorem ArgumentsFit.resolve_rename {params : List VariableSymbol} {args : List Expr}
    (h : ArgumentsFit visible params args) (declaration : DeclarationPath) (name : String)
    (position : Nat) :
    resolveArguments chain name position (params.map (·.rename ρ declaration))
        ((args.map (·.rename ρ path)).map Expr.bare) =
      (args.map (·.rename ρ path), .ok ()) := by
  induction h generalizing position with
  | nil => rfl
  | cons harg hassignable _ ih =>
      simp only [List.map_cons, resolveArguments, harg.resolve_rename hchain havoids, ih,
        VariableSymbol.kind_rename, if_pos hassignable]

theorem Call.Fits.resolve_rename {c : Call} {q : ProcedureSymbol} (hc : c.Fits visible q) :
    (c.rename ρ path).bare.resolve chain = (c.rename ρ path, .ok ()) := by
  have hname : q.name = canonicalName c.name := (Visible.mem_of_denote hc.denote).1
  have hlookup : chain.lookup (q.rename ρ).name = some (.procedure (q.rename ρ)) :=
    hchain.lookup_eq_some (Visible.denote_rename havoids hc.denote)
  have hkey : canonicalName (c.rename ρ path).bare.name = (q.rename ρ).name := by
    simp only [Call.rename, Call.bare, hc.symbol]
    exact Renaming.canonicalName_text hname.symm
  have hcount : (q.rename ρ).params.length = (c.rename ρ path).bare.args.length := by
    simp [ProcedureSymbol.rename, Call.rename, Call.bare, hc.args.length_eq]
  have hargs := hc.args.resolve_rename hchain havoids q.declaration (c.rename ρ path).bare.name 1
  rw [Call.resolve, hkey, hlookup]
  simp only [if_pos hcount]
  simp only [ProcedureSymbol.rename, Call.rename, Call.bare, hc.symbol, Option.map_some] at hargs ⊢
  simp only [hargs]

end

mutual

theorem Statement.resolve_rename {ρ : Renaming} {path : DeclarationPath} {visible : Visible}
    {chain : ScopeChain} (hchain : Represents chain (visible.rename ρ path))
    (havoids : visible.Avoids (canonicalName ρ.fresh)) :
    (s : Statement) → s.Fits visible →
      (s.rename ρ path).bare.resolve chain = (s.rename ρ path, .ok ())
  | .compound _ children, hs => by
    simp only [Statement.rename, Statement.bare, Statement.resolve,
      resolveStatements_rename hchain havoids children hs]
  | .assignment _ target value, hs => by
    obtain ⟨v, kind, htarget, hvalue, hassignable⟩ := hs
    simp only [Statement.rename, Statement.bare, Statement.resolve,
      hvalue.resolve_rename hchain havoids, htarget.resolve_rename hchain havoids]
    exact congrArg (Prod.mk _) (if_pos hassignable)
  | .call c, hs => by
    obtain ⟨q, hc⟩ := hs
    simp only [Statement.rename, Statement.bare, Statement.resolve,
      hc.resolve_rename hchain havoids]

theorem resolveStatements_rename {ρ : Renaming} {path : DeclarationPath} {visible : Visible}
    {chain : ScopeChain} (hchain : Represents chain (visible.rename ρ path))
    (havoids : visible.Avoids (canonicalName ρ.fresh)) :
    (ss : List Statement) → statementsFit visible ss →
      resolveStatements chain (bareStatements (renameStatements ρ path ss)) =
        (renameStatements ρ path ss, .ok ())
  | [], _ => rfl
  | s :: rest, hs => by
    simp only [renameStatements, bareStatements, resolveStatements,
      s.resolve_rename hchain havoids hs.1, resolveStatements_rename hchain havoids rest hs.2]

end

/-! ## Analysing renamed blocks -/

theorem Settles.exists_ok {α : Type} {requirements : List Requirement} {P : α → Prop}
    {result : Except SemanticError α} (h : Settles requirements P result)
    (hholds : ∀ r ∈ requirements, r.Holds) : ∃ a, result = .ok a ∧ P a := by
  cases hresult : result with
  | ok a => exact ⟨a, rfl, (h.passes a hresult).2⟩
  | error e =>
      obtain ⟨broken, ⟨before, after, rfl, -, hbroken⟩, -⟩ := h.rejects e hresult
      exact absurd (hholds broken (by simp)) hbroken

/-- What renaming asks of a scope: its statements fit, its names differ, and none of those around is
the new one. -/
structure LexicalScope.Renamable (fresh : String) (s : LexicalScope) : Prop where
  fit : statementsFit s.visible s.block.body
  nodup : (s.offered.map ScopeSymbol.name).Nodup
  avoids : s.visible.Avoids (canonicalName fresh)

theorem LexicalScope.parameters_sublist_offered (s : LexicalScope) :
    (s.parameters.map ScopeSymbol.variable).Sublist s.offered :=
  (List.sublist_append_left _ _).trans (List.sublist_append_left _ _)

theorem LexicalScope.Renamable.nodup_rename {ρ : Renaming} {s : LexicalScope}
    (hs : s.Renamable ρ.fresh) (path : DeclarationPath) {symbols : List ScopeSymbol}
    (hsymbols : symbols.Sublist s.offered) :
    ((renameOffers ρ path symbols).map ScopeSymbol.name).Nodup :=
  nodup_names_rename (hs.nodup.sublist (hsymbols.map _)) fun symbol hsymbol =>
    hs.avoids _ (List.mem_cons_self ..) symbol (hsymbols.subset hsymbol)

/-- The same of declarations of a scope that offers some symbols before them. -/
structure DeclarationsRenamable (fresh : String) (path : DeclarationPath) (outer : Visible)
    (offered : List ScopeSymbol) (place : Nat) (declarations : List Declaration) : Prop where
  source : declarationsFromSource (bareDeclarations declarations)
  headers : ∀ q ∈ procedureSymbols path place declarations, .procedure q ∈ offered
  nodup : (List.map ScopeSymbol.name
    (offered ++ (variableSymbols (path.length + 1) declarations).map .variable)).Nodup
  avoids : ∀ s ∈ offered ++ (variableSymbols (path.length + 1) declarations).map .variable,
    s.name ≠ canonicalName fresh
  upTo : Visible.UpTo (offered :: outer) (path.length + 1)
  members : ∀ i t, scopeAmong path outer offered place declarations i = some t →
    t.Everywhere (·.Renamable fresh)

namespace DeclarationsRenamable

variable {fresh : String} {path : DeclarationPath} {outer : Visible} {offered : List ScopeSymbol}
  {place : Nat} {rest : List Declaration}

theorem of_variable {v : TypedName}
    (h : DeclarationsRenamable fresh path outer offered place (.variable v :: rest)) :
    DeclarationsRenamable fresh path outer
      (offered ++ [.variable (v.symbol (path.length + 1))]) (place + 1) rest := by
  have hnodup := h.nodup
  have havoids := h.avoids
  rw [variableSymbols, List.map_cons, List.append_cons] at hnodup havoids
  obtain ⟨hhere, houter⟩ := List.forall_mem_cons.mp h.upTo
  refine ⟨h.source.2, ?_, hnodup, havoids, List.forall_mem_cons.mpr ⟨?_, houter⟩,
    forall_scopeAmong_variable.mp h.members⟩
  · exact fun q hq => List.mem_append_left _ (h.headers q hq)
  · intro w hw
    rcases List.mem_append.mp hw with hw | hw
    · exact hhere w hw
    · cases List.mem_singleton.mp hw
      exact Nat.le_refl _

theorem of_procedure {span : Span} {name : String} {params : List TypedName} {block : Block}
    (h : DeclarationsRenamable fresh path outer offered place
      (.procedure span name params block :: rest)) :
    DeclarationsRenamable fresh path outer offered (place + 1) rest :=
  ⟨h.source.2, fun q hq => h.headers q (List.mem_cons_of_mem _ hq), h.nodup, h.avoids, h.upTo,
    (forall_scopeAmong_procedure.mp h.members).2⟩

end DeclarationsRenamable

theorem LexicalScope.declarationsRenamable {fresh : String} {s : LexicalScope}
    (hsource : s.block.bare.FromSource) (houter : s.outer.UpTo s.level)
    (hall : s.Everywhere (·.Renamable fresh)) :
    DeclarationsRenamable fresh s.declaration s.outer s.hoisted 0 s.block.declarations := by
  obtain ⟨hs, hinner⟩ := everywhere_iff.mp hall
  refine ⟨?_, ?_, hs.nodup, hs.avoids _ (List.mem_cons_self ..),
    List.forall_mem_cons.mpr ⟨?_, houter⟩, ?_⟩
  · obtain ⟨declaration, params, ⟨span, declarations, bodySpan, body⟩, outer⟩ := s
    exact hsource.1
  · intro q hq
    exact List.mem_append_right _ (List.mem_map_of_mem hq)
  · intro v hv
    have hlocal : v ∈ s.locals :=
      variable_mem_offered.mp (List.mem_append_left _ hv)
    exact Nat.le_of_eq (level_of_mem_locals hlocal)
  · intro i t ht
    rw [← inner?_eq_scopeAmong] at ht
    exact hinner i t ht

/-- Analysis goes through and comes to a tree. -/
structure Analysis.Passes {α : Type} (a : Analysis α) (part : α) : Prop where
  part : a.part = part
  error : a.error = none

section

variable {ρ : Renaming} {path : DeclarationPath} {own : ScopeTable} {offered : List ScopeSymbol}

/-- The headers of renamed procedures can be entered after the parameters. -/
theorem LexicalScope.Renamable.declareHeaders_rename {s : LexicalScope} (hs : s.Renamable ρ.fresh)
    (hsource : declarationsFromSource
      (bareDeclarations (renameDeclarations ρ s.declaration 0 s.block.declarations)))
    (outer : ScopeChain)
    (hown : own.Holds (renameOffers ρ s.declaration (s.parameters.map .variable)))
    (hlevel : own.level = s.level) :
    ∃ own', own.declareHeaders outer s.declaration 0
        (bareDeclarations (renameDeclarations ρ s.declaration 0 s.block.declarations)) = .ok own' ∧
      own'.Holds (renameOffers ρ s.declaration s.hoisted) ∧ own'.level = own.level := by
  have hsettles := ScopeTable.declareHeaders_settles outer s.declaration 0 hsource hown hlevel
  have hsymbols : procedureSymbols s.declaration 0
      (bareDeclarations (renameDeclarations ρ s.declaration 0 s.block.declarations)) =
        s.procedures.map (·.rename ρ) := by
    rw [← procedureSymbols_congr (sameHeaders_bare _), procedureSymbols_rename]
    rfl
  have hhoisted : renameOffers ρ s.declaration s.hoisted =
      renameOffers ρ s.declaration (s.parameters.map .variable) ++
        (s.procedures.map (·.rename ρ)).map .procedure := by
    simp only [renameOffers, hoisted, List.map_append, List.map_map]
    rfl
  have hnames := hs.nodup_rename s.declaration (List.sublist_append_left s.hoisted _)
  rw [hhoisted, List.map_append] at hnames
  rw [hhoisted, ← hsymbols]
  refine hsettles.exists_ok ?_
  rw [headerRequirements_hold_iff (List.nodup_append.mp hnames).1 s.declaration 0, hsymbols]
  rw [List.map_map] at hnames
  exact hnames

theorem declareVariable_rename (hfresh : IsIdentifier ρ.fresh)
    (hown : own.Holds (renameOffers ρ path offered)) (hlevel : own.level = path.length + 1)
    (outer : ScopeChain) {v : TypedName} (hv : v.FromSource)
    (hnodup : (List.map ScopeSymbol.name
      (offered ++ [.variable (v.symbol (path.length + 1))])).Nodup)
    (havoids : ∀ s ∈ offered ++ [.variable (v.symbol (path.length + 1))],
      s.name ≠ canonicalName ρ.fresh) :
    ∃ own', own.declareVariable outer (v.rename ρ path) = .ok own' ∧
      own'.Holds (renameOffers ρ path (offered ++ [.variable (v.symbol (path.length + 1))])) ∧
      own'.level = own.level := by
  have hsettles := ScopeTable.declareVariable_settles hown outer (hv.rename hfresh path)
  have hsymbols : renameOffers ρ path (offered ++ [.variable (v.symbol (path.length + 1))]) =
      renameOffers ρ path offered ++ [.variable ((v.rename ρ path).symbol own.level)] := by
    rw [renameOffers, List.map_append, hlevel, v.symbol_rename]
    rfl
  have hnames : ((renameOffers ρ path (offered ++ [.variable (v.symbol (path.length + 1))])).map
      ScopeSymbol.name).Nodup := nodup_names_rename hnodup havoids
  rw [hsymbols, List.map_append, List.map_singleton, nodup_append_singleton_iff] at hnames
  rw [hsymbols]
  exact hsettles.exists_ok (List.forall_mem_singleton.mpr hnames.1)

/-- The body of a renamed procedure is analysed in a table that holds the renamed parameters. -/
theorem procedureScope_rename (hfresh : IsIdentifier ρ.fresh)
    (hown : own.Holds (renameOffers ρ path offered)) (hlevel : own.level = path.length + 1)
    {place : Nat} {span : Span} {name : String} {params : List TypedName} {block : Block}
    {rest : List Declaration}
    (hheaders : ∀ q ∈ procedureSymbols path place (.procedure span name params block :: rest),
      .procedure q ∈ offered)
    (hparams : ∀ p ∈ params, p.FromSource) {outer : Visible}
    (hinner : (LexicalScope.mk (path ++ [place]) params block outer).Renamable ρ.fresh)
    (block' : Block) (analyzeBody : ScopeTable → Analysis Block) :
    let renamed := procedureScope own span (ρ.text path (canonicalName name) name)
      (params.map (·.rename ρ (path ++ [place]))) block' analyzeBody
    ∃ table,
      table.Holds (renameOffers ρ (path ++ [place])
        ((params.map (·.symbol ((path ++ [place]).length + 1))).map .variable)) ∧
      table.level = (path ++ [place]).length + 1 ∧ renamed.part = (analyzeBody table).part ∧
      renamed.error = (analyzeBody table).error := by
  have hdeep : own.level + 1 = (path ++ [place]).length + 1 := by
    rw [hlevel, List.length_append, List.length_singleton]
  have hoffers : ((params.map (·.rename ρ (path ++ [place]))).map
        (·.symbol (own.level + 1))).map ScopeSymbol.variable =
      renameOffers ρ (path ++ [place])
        ((params.map (·.symbol ((path ++ [place]).length + 1))).map .variable) := by
    rw [hdeep, map_symbol_rename, renameOffers, List.map_map, List.map_map (f := ScopeSymbol.variable)]
    rfl
  have hmem : .procedure ⟨canonicalName (ρ.text path (canonicalName name) name),
      (params.map (·.rename ρ (path ++ [place]))).map (·.symbol (own.level + 1)), path.length + 1,
      path ++ [place]⟩ ∈ renameOffers ρ path offered := by
    have hrenamed := procedureSymbols_rename path place [.procedure span name params block] (ρ := ρ)
    simp only [renameDeclarations, Declaration.rename, procedureSymbols, List.map_cons,
      List.map_nil, List.cons.injEq, and_true] at hrenamed
    rw [hlevel, hrenamed]
    exact List.mem_map_of_mem (hheaders _ (List.mem_cons_self ..))
  have hrenamed : ∀ p ∈ params.map (·.rename ρ (path ++ [place])), p.FromSource := by
    intro p hp
    obtain ⟨v, hv, rfl⟩ := List.mem_map.mp hp
    exact (hparams v hv).rename hfresh _
  have hnames : ∀ r ∈ paramRequirements [] (params.map (·.rename ρ (path ++ [place]))), r.Holds := by
    have hnodup := hinner.nodup_rename (path ++ [place]) (LexicalScope.parameters_sublist_offered _)
    rw [LexicalScope.parameters, LexicalScope.level, ← hoffers, List.map_map, List.map_map] at hnodup
    rw [paramRequirements_hold_iff List.nodup_nil, List.nil_append]
    exact hnodup
  rcases procedureScope_cases hown hmem hrenamed span block' analyzeBody with
    ⟨e, -, -, -, ⟨broken, ⟨before, after, heq, -, hbroken⟩, -⟩⟩ |
      ⟨table, htable, htableLevel, -, hpart, -, herror⟩
  · -- The new names of the parameters differ, so none of them is refused.
    exact absurd (hnames broken (by simp [heq])) hbroken
  · exact ⟨table, hoffers ▸ htable, htableLevel.trans hdeep, hpart, herror⟩

end

mutual

theorem Block.analyze_rename {ρ : Renaming} (hfresh : IsIdentifier ρ.fresh) {outer : ScopeChain}
    {visible : Visible} {own : ScopeTable} {path : DeclarationPath} {params : List TypedName}
    (houter : Represents outer (visible.rename ρ path)) (hlevels : visible.UpTo (path.length + 1))
    (hown : own.Holds (renameOffers ρ path
      ((params.map (·.symbol (path.length + 1))).map .variable)))
    (hlevel : own.level = path.length + 1) :
    (block : Block) → block.bare.FromSource →
      (LexicalScope.mk path params block visible).Everywhere (·.Renamable ρ.fresh) →
      ((block.rename ρ path).bare.analyze outer own path).Passes (block.rename ρ path)
  | .mk span declarations bodySpan body, hsource, hall => by
    set s := LexicalScope.mk path params (.mk span declarations bodySpan body) visible with hs
    have hrenamable := (LexicalScope.everywhere_iff.mp hall).1
    obtain ⟨own', heq, hown', hlevel'⟩ := hrenamable.declareHeaders_rename
      (declarationsFromSource_bare_rename hfresh path 0 declarations hsource.1) outer hown hlevel
    obtain ⟨hmembers, htable⟩ := analyzeDeclarations_rename hfresh houter hown'
      (hlevel'.trans hlevel) 0 declarations (s.declarationsRenamable hsource hlevels hall)
    have hchain : Represents (_ :: outer) (s.visible.rename ρ path) := .cons htable houter
    have hbody := resolveStatements_rename hchain hrenamable.avoids body hrenamable.fit
    simp only [s, Block.declarations] at heq
    simp only [Block.rename, Block.bare, Block.analyze, heq, hmembers.error, hbody]
    exact ⟨by rw [hmembers.part], rfl⟩

theorem analyzeDeclarations_rename {ρ : Renaming} (hfresh : IsIdentifier ρ.fresh)
    {outer : ScopeChain} {visible : Visible} {own : ScopeTable} {offered : List ScopeSymbol}
    {path : DeclarationPath} (houter : Represents outer (visible.rename ρ path))
    (hown : own.Holds (renameOffers ρ path offered)) (hlevel : own.level = path.length + 1)
    (place : Nat) : (declarations : List Declaration) →
      DeclarationsRenamable ρ.fresh path visible offered place declarations →
      let a := analyzeDeclarations outer own path place
        (bareDeclarations (renameDeclarations ρ path place declarations))
      a.Passes (renameDeclarations ρ path place declarations) ∧
        a.table.Holds (renameOffers ρ path
          (offered ++ (variableSymbols (path.length + 1) declarations).map .variable))
  | [], _ => by
    simp only [renameDeclarations, bareDeclarations, analyzeDeclarations, variableSymbols,
      List.map_nil, List.append_nil]
    exact ⟨⟨rfl, rfl⟩, hown⟩
  | .variable v :: rest, h => by
    have hmore := h.of_variable
    obtain ⟨own', heq, hown', hlevel'⟩ := declareVariable_rename hfresh hown hlevel outer
      h.source.1 (hmore.nodup.sublist ((List.sublist_append_left _ _).map _))
      (fun s hs => hmore.avoids s (List.mem_append_left _ hs))
    obtain ⟨⟨hpart, herror⟩, htable⟩ := analyzeDeclarations_rename hfresh houter hown'
      (hlevel'.trans hlevel) (place + 1) rest hmore
    simp only [renameDeclarations, Declaration.rename, bareDeclarations, Declaration.bare,
      analyzeDeclarations, heq]
    rw [variableSymbols, List.map_cons, List.append_cons]
    exact ⟨⟨congrArg _ hpart, herror⟩, htable⟩
  | .procedure span name params block :: rest, h => by
    have hmore := h.of_procedure
    have hinner := (forall_scopeAmong_procedure.mp h.members).1
    obtain ⟨table, htable, htableLevel, hpart, herror⟩ := procedureScope_rename hfresh hown hlevel
      h.headers h.source.1.2.1 (LexicalScope.everywhere_iff.mp hinner).1
      (block.rename ρ (path ++ [place])).bare
      fun table => (block.rename ρ (path ++ [place])).bare.analyze (own :: outer) table
        (path ++ [place])
    -- What is visible outside has the same new names seen from inside.
    have hvisible : Represents (own :: outer) (Visible.rename ρ (path ++ [place])
        (offered :: visible)) := by
      rw [Visible.rename_append h.upTo]
      exact .cons hown houter
    have hlevels : Visible.UpTo (offered :: visible) ((path ++ [place]).length + 1) := by
      intro offers hoffers v hv
      have hle := h.upTo offers hoffers v hv
      rw [List.length_append]
      omega
    obtain ⟨hbody, hbodyError⟩ := Block.analyze_rename hfresh hvisible hlevels htable htableLevel
      block h.source.1.2.2 hinner
    obtain ⟨⟨hrest, hrestError⟩, hrestTable⟩ := analyzeDeclarations_rename hfresh houter hown hlevel
      (place + 1) rest hmore
    rw [hbody] at hpart
    rw [hbodyError] at herror
    simp only [renameDeclarations, Declaration.rename, bareDeclarations, Declaration.bare,
      analyzeDeclarations, herror, hpart]
    exact ⟨⟨congrArg _ hrest, hrestError⟩, hrestTable⟩

end

namespace Program

variable {p : Program} {ρ : Renaming}

theorem renamable_of_analyze (hp : p.FromSource) (hok : ∃ scopes, p.analyze.scopes = .ok scopes)
    (hunused : ∀ n ∈ p.block.declaredNames, canonicalName n ≠ canonicalName ρ.fresh) :
    p.analyze.program.globalScope.Everywhere (·.Renamable ρ.fresh) := by
  have hnames : p.analyze.program.block.declaredNames = p.block.declaredNames := by
    rw [← Block.declaredNames_bare, ← p.block.declaredNames_bare]
    exact congrArg (fun p => p.block.declaredNames) p.bare_analyze
  have havoids : p.analyze.program.globalScope.Everywhere
      (·.visible.Avoids (canonicalName ρ.fresh)) := by
    refine LexicalScope.everywhere_avoids (by simp [Visible.Avoids, globalScope])
      (by simp [globalScope]) ?_
    intro n hn
    exact hunused n (hnames ▸ hn)
  intro path s hs
  have hresolved := resolved_of_analyze hp hok path s hs
  exact ⟨hresolved.fit, hresolved.nodup, havoids path s hs⟩

/-- A declaration of an accepted program is renamed to a name that the program does not declare: the
program that comes out is accepted, and its annotations are the renamed ones. -/
theorem analyze_rename (hp : p.FromSource) (hok : ∃ scopes, p.analyze.scopes = .ok scopes)
    (hfresh : IsIdentifier ρ.fresh)
    (hunused : ∀ n ∈ p.block.declaredNames, canonicalName n ≠ canonicalName ρ.fresh) :
    (∃ scopes, (p.analyze.program.rename ρ).bare.analyze.scopes = .ok scopes) ∧
      (p.analyze.program.rename ρ).bare.analyze.program = p.analyze.program.rename ρ := by
  set q := p.analyze.program with hq
  have hsource : q.block.bare.FromSource := by
    have hbare : q.bare = p := p.bare_analyze.trans hp.bare_eq
    have hblock : q.block.bare = p.block := congrArg Program.block hbare
    exact hblock ▸ hp.block
  have hpasses : ((q.rename ρ).block.bare.analyze [] (ScopeTable.new "global" 1) []).Passes
      (q.rename ρ).block := by
    have houter : Represents [] (Visible.rename ρ [] []) := .nil
    have hentered : (ScopeTable.new "global" 1).Holds
        (renameOffers ρ [] ((([] : List TypedName).map (·.symbol 1)).map .variable)) :=
      ScopeTable.holds_new "global" 1
    exact Block.analyze_rename hfresh houter (by simp [Visible.UpTo]) hentered rfl q.block hsource
      (renamable_of_analyze hp hok hunused)
  constructor
  · rcases analyze_scopes_cases (q.rename ρ).bare with ⟨-, haccepted⟩ | ⟨e, herror, -⟩
    · exact haccepted
    · have hnone : ((q.rename ρ).block.bare.analyze [] (ScopeTable.new "global" 1) []).error =
          some e := herror
      rw [hpasses.error] at hnone
      contradiction
  · have hpart := hpasses.part
    simp only [analyze, bare, hpart]

end Program

end NestedPascal
