import NestedPascal.Proofs.Scope.Acceptance
import NestedPascal.Proofs.Scope.Progress

/-!
# Where names are bound

The symbol that a name is annotated with is found by walking outward from the body that the name
stands in.  A scope on the way offers its parameters, all procedures of its block, and its variables;
an outer scope offers of its variables only those before the procedure that leads to the body.  The
first scope that offers the name decides.
-/

namespace NestedPascal

/-! ## What a scope offers to a body -/

theorem variable_mem_iff {level : Nat} {declarations : List Declaration} {v : VariableSymbol} :
    v ∈ variableSymbols level declarations ↔
      ∃ (i : Nat) (declared : TypedName), declarations[i]? = some (.variable declared) ∧
        v = declared.symbol level := by
  constructor
  · intro h
    obtain ⟨declared, hmem, heq⟩ := exists_declaration_of_mem_variableSymbols h
    obtain ⟨i, hget⟩ := List.mem_iff_getElem?.mp hmem
    exact ⟨i, declared, hget, heq⟩
  · rintro ⟨i, declared, hget, rfl⟩
    induction declarations generalizing i with
    | nil => simp at hget
    | cons d rest ih =>
        cases i with
        | zero =>
            simp only [List.getElem?_cons_zero, Option.some.injEq] at hget
            subst d
            simp [variableSymbols]
        | succ i => cases d <;> simp [variableSymbols, ih i hget]

theorem procedure_mem_iff {path : DeclarationPath} {place : Nat} {declarations : List Declaration}
    {q : ProcedureSymbol} :
    q ∈ procedureSymbols path place declarations ↔
      ∃ i span name params block, declarations[i]? = some (.procedure span name params block) ∧
        q = ⟨canonicalName name, params.map (·.symbol (path.length + 2)), path.length + 1,
          path ++ [place + i]⟩ := by
  constructor
  · exact mem_procedureSymbols
  · rintro ⟨i, span, name, params, block, hget, rfl⟩
    induction declarations generalizing i place with
    | nil => simp at hget
    | cons d rest ih =>
        cases i with
        | zero =>
            simp only [List.getElem?_cons_zero, Option.some.injEq] at hget
            subst d
            simp [procedureSymbols]
        | succ i =>
            have hplace : place + (i + 1) = place + 1 + i := by omega
            rw [hplace]
            have hrest := @ih (place + 1) i hget
            cases d with
            | «variable» v => exact hrest
            | procedure => exact List.mem_cons_of_mem _ hrest

namespace LexicalScope

/-- What a scope declares as seen from a body inside it: the way from its block to the body goes
through the places of procedure declarations. -/
inductive Declares (s : LexicalScope) (below : DeclarationPath) : ScopeSymbol → Prop where
  | param {declared} : declared ∈ s.params → Declares s below (.variable (declared.symbol s.level))
  | variable {declared} (place : Nat) :
    s.block.declarations[place]? = some (.variable declared) →
    (∀ next rest, below = next :: rest → place < next) →
    Declares s below (.variable (declared.symbol s.level))
  | procedure {span name params block} (place : Nat) :
    s.block.declarations[place]? = some (.procedure span name params block) →
    Declares s below (.procedure ⟨canonicalName name, params.map (·.symbol (s.level + 1)), s.level,
      s.declaration ++ [place]⟩)

/-- The symbols that a scope declares as seen from a body inside it. -/
def offersTo (s : LexicalScope) : DeclarationPath → List ScopeSymbol
  | [] => s.offered
  | place :: _ => s.offeredBelow place

section

variable {s : LexicalScope} {below : DeclarationPath} {symbol : ScopeSymbol}

theorem declares_of_mem_hoisted (h : symbol ∈ s.hoisted) : s.Declares below symbol := by
  rw [hoisted, List.mem_append] at h
  rcases h with h | h
  · obtain ⟨v, hv, rfl⟩ := List.mem_map.mp h
    obtain ⟨declared, hmem, rfl⟩ := List.mem_map.mp hv
    exact .param hmem
  · obtain ⟨q, hq, rfl⟩ := List.mem_map.mp h
    obtain ⟨i, span, name, params, block, hget, rfl⟩ := procedure_mem_iff.mp hq
    rw [Nat.zero_add]
    exact .procedure i hget

theorem mem_offersTo_iff : symbol ∈ s.offersTo below ↔ symbol ∈ s.hoisted ∨
    ∃ place declared, s.block.declarations[place]? = some (.variable declared) ∧
      (∀ next rest, below = next :: rest → place < next) ∧
      symbol = .variable (declared.symbol s.level) := by
  cases below with
  | nil =>
      rw [offersTo, offered, List.mem_append, List.mem_map]
      apply or_congr_right
      constructor
      · rintro ⟨v, hv, rfl⟩
        obtain ⟨place, declared, hget, rfl⟩ := variable_mem_iff.mp hv
        exact ⟨place, declared, hget, by simp, rfl⟩
      · rintro ⟨place, declared, hget, -, rfl⟩
        exact ⟨_, variable_mem_iff.mpr ⟨place, declared, hget, rfl⟩, rfl⟩
  | cons next rest =>
      rw [offersTo, offeredBelow, List.mem_append, List.mem_map]
      apply or_congr_right
      constructor
      · rintro ⟨v, hv, rfl⟩
        obtain ⟨place, declared, hget, rfl⟩ := variable_mem_iff.mp hv
        rw [List.getElem?_take, Option.ite_none_right_eq_some] at hget
        exact ⟨place, declared, hget.2, by simpa using hget.1, rfl⟩
      · rintro ⟨place, declared, hget, hbefore, rfl⟩
        refine ⟨_, variable_mem_iff.mpr ⟨place, declared, ?_, rfl⟩, rfl⟩
        rw [List.getElem?_take, if_pos (hbefore next rest rfl), hget]

theorem mem_offersTo_iff_declares : symbol ∈ s.offersTo below ↔ s.Declares below symbol := by
  rw [mem_offersTo_iff]
  constructor
  · rintro (h | ⟨place, declared, hget, hbefore, rfl⟩)
    · exact declares_of_mem_hoisted h
    · exact .variable place hget hbefore
  · intro h
    cases h with
    | param hmem =>
        left
        exact List.mem_append_left _ (List.mem_map_of_mem (List.mem_map_of_mem hmem))
    | «variable» place hget hbefore => exact .inr ⟨place, _, hget, hbefore, rfl⟩
    | procedure place hget =>
        left
        apply List.mem_append_right
        apply List.mem_map_of_mem
        rw [procedures, procedure_mem_iff]
        exact ⟨place, _, _, _, _, hget, by simp [level]⟩

end

end LexicalScope

/-! ## The walk outward -/

/-- Seen from a body below it, a scope binds a name: it declares this one symbol of that name, and no
scope between the two declares any. -/
structure Program.Binds (p : Program) (above below : DeclarationPath) (name : String)
    (symbol : ScopeSymbol) : Prop where
  declared : ∃ s, p.scope? above = some s ∧ s.level = above.length + 1 ∧ s.Declares below symbol
  named : symbol.name = name
  unique : ∀ s other, p.scope? above = some s → s.Declares below other → other.name = name →
    other = symbol
  nearest : ∀ between inner s other, above ++ below = between ++ inner →
    inner.length < below.length → p.scope? between = some s → s.Declares inner other →
    other.name ≠ name

namespace Program

variable {p : Program} {path : DeclarationPath} {name : String} {symbol : ScopeSymbol}

theorem walk_of_denote {t : LexicalScope} (ht : p.scope? path = some t) {rest : DeclarationPath}
    (hdenote : Visible.denote (t.offersTo rest :: t.outer) name = some symbol) :
    ∃ above below s, path = above ++ below ∧ p.scope? above = some s ∧
      s.offersTo (below ++ rest) ∈ t.offersTo rest :: t.outer ∧
      (s.offersTo (below ++ rest)).find? (·.name = name) = some symbol ∧
      ∀ between inner u, path = between ++ inner → inner.length < below.length →
        p.scope? between = some u → ∀ other ∈ u.offersTo (inner ++ rest), other.name ≠ name := by
  induction path using List.reverseRecOn generalizing t rest with
  | nil =>
      cases ht
      refine ⟨[], [], p.globalScope, rfl, rfl, List.mem_cons_self .., ?_, by simp⟩
      simpa [Visible.denote, globalScope] using hdenote
  | append_singleton path place ih =>
      cases hfind : (t.offersTo rest).find? (·.name = name) with
      | some found =>
          have hfound : found = symbol := by
            simpa [Visible.denote, hfind] using hdenote
          refine ⟨path ++ [place], [], t, by simp, ht, List.mem_cons_self .., ?_, by simp⟩
          simpa [hfound] using hfind
      | none =>
          rw [scope?, LexicalScope.descendant?_concat] at ht
          obtain ⟨enclosing, henclosing, hinner⟩ := Option.bind_eq_some_iff.mp ht
          obtain ⟨-, -, -, -, houter⟩ := LexicalScope.inner?_eq_some hinner
          have houter' : t.outer = enclosing.offersTo (place :: rest) :: enclosing.outer := houter
          rw [Visible.denote, List.findSome?_cons, hfind, houter'] at hdenote
          obtain ⟨above, below, s, rfl, hs, hmem, hsymbol, hbetween⟩ := ih henclosing hdenote
          refine ⟨above, below ++ [place], s, by simp, hs, ?_, ?_, ?_⟩
          · rw [houter', List.append_assoc]
            exact List.mem_cons_of_mem _ hmem
          · rw [List.append_assoc]
            exact hsymbol
          · intro between inner u heq hlength hu other hother hname
            rcases List.eq_nil_or_concat inner with rfl | ⟨inner', last, rfl⟩
            · rw [List.append_nil] at heq
              subst between
              rw [scope?, LexicalScope.descendant?_concat, henclosing] at hu
              rw [Option.bind_some, hinner, Option.some.injEq] at hu
              subst u
              exact List.find?_eq_none.mp hfind other hother (by simpa using hname)
            · rw [List.concat_eq_append, ← List.append_assoc] at heq
              obtain ⟨hpath, hlast⟩ := List.append_inj' heq rfl
              cases hlast
              rw [List.concat_eq_append, List.append_assoc] at hother
              exact hbetween between inner' u hpath (by simpa using hlength) hu other hother hname

theorem exists_binds {t : LexicalScope} (ht : p.scope? path = some t)
    (hnodup : ∀ offers ∈ t.visible, (offers.map ScopeSymbol.name).Nodup)
    (hdenote : t.visible.denote name = some symbol) :
    ∃ above below, path = above ++ below ∧ p.Binds above below name symbol := by
  obtain ⟨above, below, s, rfl, hs, hmem, hsymbol, hbetween⟩ :=
    @walk_of_denote p _ name symbol t ht [] hdenote
  rw [List.append_nil] at hmem hsymbol
  have hoffered := List.mem_of_find?_eq_some hsymbol
  have hname : symbol.name = name := by simpa using List.find?_some hsymbol
  refine ⟨above, below, rfl, ?_, hname, ?_, ?_⟩
  · exact ⟨s, hs, level_of_scope? hs, LexicalScope.mem_offersTo_iff_declares.mp hoffered⟩
  · intro s' other hs' hother hotherName
    rw [hs, Option.some.injEq] at hs'
    subst s'
    exact List.inj_on_of_nodup_map (hnodup _ hmem)
      (LexicalScope.mem_offersTo_iff_declares.mpr hother) hoffered (hotherName.trans hname.symm)
  · intro between inner u other heq hlength hu hother
    apply hbetween between inner u heq hlength hu
    rw [List.append_nil]
    exact LexicalScope.mem_offersTo_iff_declares.mpr hother

end Program

/-! ## Uses of names and the scopes they belong to -/

/-- The use belongs to a scope, and a symbol it is annotated with is what its name denotes there. -/
structure NameUse.RightIn (path : DeclarationPath) (visible : Visible) (u : NameUse) : Prop where
  declaration : u.declaration = path
  denote : ∀ symbol, u.symbol = some symbol → visible.denote (canonicalName u.name) = some symbol

section

variable {path : DeclarationPath} {visible : Visible}

theorem VariableRef.use_rightIn {r : VariableRef} (hr : r.AnnotatedIn visible) :
    (r.use path).RightIn path visible := by
  refine ⟨rfl, ?_⟩
  intro symbol hsymbol
  obtain ⟨v, hv, rfl⟩ := Option.map_eq_some_iff.mp hsymbol
  exact hr v hv

theorem Expr.uses_rightIn {e : Expr} (he : e.AnnotatedIn visible) :
    ∀ u ∈ e.uses path, u.RightIn path visible := by
  induction e with
  | literal => simp [Expr.uses]
  | «variable» r => exact List.forall_mem_singleton.mpr (VariableRef.use_rightIn he)
  | unary _ _ _ ih => exact ih he
  | binary _ _ _ _ ihl ihr => exact List.forall_mem_append.mpr ⟨ihl he.1, ihr he.2⟩

theorem Call.uses_rightIn {c : Call} (hc : c.AnnotatedIn visible) :
    ∀ u ∈ c.uses path, u.RightIn path visible := by
  rw [Call.uses, List.forall_mem_append, List.forall_mem_singleton]
  constructor
  · intro u hu
    obtain ⟨arg, harg, hu⟩ := List.mem_flatMap.mp hu
    exact Expr.uses_rightIn (hc.args arg harg) u hu
  · refine ⟨rfl, ?_⟩
    intro symbol hsymbol
    obtain ⟨q, hq, rfl⟩ := Option.map_eq_some_iff.mp hsymbol
    exact hc.symbol q hq

mutual

theorem Statement.uses_rightIn :
    (s : Statement) → s.AnnotatedIn visible → ∀ u ∈ s.uses path, u.RightIn path visible
  | .compound _ children, hs => by
    rw [Statement.uses]
    exact statementUses_rightIn children hs
  | .assignment .., hs => by
    rw [Statement.uses, List.forall_mem_append, List.forall_mem_singleton]
    exact ⟨Expr.uses_rightIn hs.2, VariableRef.use_rightIn hs.1⟩
  | .call _, hs => by
    rw [Statement.uses]
    exact Call.uses_rightIn hs

theorem statementUses_rightIn :
    (ss : List Statement) → statementsAnnotatedIn visible ss →
      ∀ u ∈ statementUses path ss, u.RightIn path visible
  | [], _ => by simp [statementUses]
  | s :: rest, hs => by
    rw [statementUses, List.forall_mem_append]
    exact ⟨Statement.uses_rightIn s hs.1, statementUses_rightIn rest hs.2⟩

end

end

mutual

theorem Block.exists_scope_of_mem_uses (path : DeclarationPath) (params : List TypedName)
    (outer : Visible) {u : NameUse} :
    (block : Block) → u ∈ block.uses path → ∃ inner t,
      (LexicalScope.mk path params block outer).descendant? inner = some t ∧
        u ∈ statementUses t.declaration t.block.body
  | .mk span declarations bodySpan body, hu => by
    rw [Block.uses, List.mem_append] at hu
    rcases hu with hu | hu
    · obtain ⟨i, s, inner, t, hs, ht, hmem⟩ := exists_scope_of_mem_declarationUses path outer
        (LexicalScope.mk path params (.mk span declarations bodySpan body) outer).hoisted 0
        declarations hu
      refine ⟨i :: inner, t, ?_, hmem⟩
      rw [LexicalScope.descendant?, LexicalScope.inner?_eq_scopeAmong]
      exact Option.bind_eq_some_iff.mpr ⟨s, hs, ht⟩
    · exact ⟨[], _, rfl, hu⟩

theorem exists_scope_of_mem_declarationUses (path : DeclarationPath) (outer : Visible)
    (offered : List ScopeSymbol) (place : Nat) {u : NameUse} :
    (declarations : List Declaration) → u ∈ declarationUses path place declarations →
      ∃ i s inner t, scopeAmong path outer offered place declarations i = some s ∧
        s.descendant? inner = some t ∧ u ∈ statementUses t.declaration t.block.body
  | [], hu => by simp [declarationUses] at hu
  | .variable v :: rest, hu => by
    obtain ⟨i, s, inner, t, hs, ht, hmem⟩ := exists_scope_of_mem_declarationUses path outer
      (offered ++ [.variable (v.symbol (path.length + 1))]) (place + 1) rest hu
    exact ⟨i + 1, s, inner, t, by rw [scopeAmong_cons_succ]; exact hs, ht, hmem⟩
  | .procedure span name params block :: rest, hu => by
    rw [declarationUses, List.mem_append] at hu
    rcases hu with hu | hu
    · obtain ⟨inner, t, ht, hmem⟩ :=
        Block.exists_scope_of_mem_uses (path ++ [place]) params (offered :: outer) block hu
      exact ⟨0, _, inner, t, by simp [scopeAmong, variableSymbols], ht, hmem⟩
    · obtain ⟨i, s, inner, t, hs, ht, hmem⟩ :=
        exists_scope_of_mem_declarationUses path outer offered (place + 1) rest hu
      refine ⟨i + 1, s, inner, t, ?_, ht, hmem⟩
      rw [scopeAmong_cons_succ]
      simpa [variableSymbols] using hs

end

namespace Program

variable {p : Program}

theorem exists_scope_of_mem_uses {u : NameUse} (hu : u ∈ p.uses) :
    ∃ path s, p.scope? path = some s ∧ u ∈ statementUses path s.block.body := by
  obtain ⟨path, s, hs, hmem⟩ := Block.exists_scope_of_mem_uses [] [] [] p.block hu
  have hscope : p.scope? path = some s := hs
  rw [declaration_of_scope? hscope] at hmem
  exact ⟨path, s, hscope, hmem⟩

theorem symbol_eq_none_of_fromSource {path : DeclarationPath} {ss : List Statement}
    (hss : statementsFromSource ss) {u : NameUse} (hu : u ∈ statementUses path ss) :
    u.symbol = none := by
  -- Where nothing is visible only what is not annotated is annotated right.
  have hright := statementUses_rightIn ss (statementsAnnotatedIn_of_fromSource [] ss hss) u hu
  rw [Option.eq_none_iff_forall_ne_some]
  intro symbol hsymbol
  simpa [Visible.denote] using hright.denote symbol hsymbol

/-- Nothing is annotated in a program from a source. -/
theorem FromSource.uses_symbol (hp : p.FromSource) : ∀ u ∈ p.uses, u.symbol = none := by
  intro u hu
  obtain ⟨path, s, hs, hmem⟩ := exists_scope_of_mem_uses hu
  have hblock : s.block.FromSource := LexicalScope.everywhere_fromSource hp.block path s hs
  exact symbol_eq_none_of_fromSource (Block.fromSource_iff.mp hblock).2 hmem

theorem analyze_follows (hp : p.FromSource) :
    Follows p.milestones p.analyze.program.uses (problem? p.analyze.scopes) := by
  have hentered : (ScopeTable.new "global" 1).Holds
      ((([] : List TypedName).map (·.symbol 1)).map .variable) := ScopeTable.holds_new "global" 1
  have hfollows : Follows p.milestones p.analyze.program.uses
      (p.block.analyze [] (ScopeTable.new "global" 1) []).error :=
    Block.analyze_follows .nil hentered rfl p.block hp.block
  rcases p.analyze_scopes_cases with ⟨hnone, scopes, hscopes⟩ | ⟨e, herror, hscopes⟩
  · rw [hnone] at hfollows
    rw [hscopes]
    exact hfollows
  · rw [herror] at hfollows
    rw [hscopes]
    exact hfollows

/-- A symbol that a use is annotated with is the one that the walk outward finds. -/
theorem binds_of_mem_uses (hp : p.FromSource) {u : NameUse} (hu : u ∈ p.analyze.program.uses)
    {symbol : ScopeSymbol} (hsymbol : u.symbol = some symbol) :
    ∃ s above below, p.analyze.program.scope? u.declaration = some s ∧
      u ∈ statementUses u.declaration s.block.body ∧ u.declaration = above ++ below ∧
      p.analyze.program.Binds above below (canonicalName u.name) symbol := by
  obtain ⟨path, s, hs, hmem⟩ := exists_scope_of_mem_uses hu
  have hright := statementUses_rightIn s.block.body (annotated_of_analyze hp path s hs) u hmem
  have hnodup : ∀ offers ∈ s.visible, (offers.map ScopeSymbol.name).Nodup := by
    rw [scope?, analyze_program_globalScope] at hs
    rcases (globalScope_analyzed hp).partly path s hs with hsource | ⟨chain, raw, hchain, -, -⟩
    · rw [symbol_eq_none_of_fromSource hsource hmem] at hsymbol
      contradiction
    · exact hchain.nodup
  obtain ⟨above, below, hpath, hbinds⟩ := exists_binds hs hnodup (hright.denote symbol hsymbol)
  rw [hright.declaration]
  exact ⟨s, above, below, hs, hmem, hpath, hbinds⟩

/-- Analysis annotates every use of a name when it goes through, and otherwise those that come before
the first requirement that is broken.  Each is annotated with the symbol that lexical visibility
gives its name. -/
theorem names_resolve_lexically {source : List Char} {file : String} {detailed : Bool}
    (hparse : parse source file detailed = .ok p) :
    (∀ u ∈ p.uses, u.symbol = none) ∧
      ((∃ scopes, p.analyze.scopes = .ok scopes) →
        List.Forall₂ NameUse.Annotates p.uses p.analyze.program.uses) ∧
      (∀ e, p.analyze.scopes = .error e → ∃ before broken after annotated,
        p.milestones = before ++ .check broken :: after ∧
          (∀ r, .check r ∈ before → r.Holds) ∧ ¬ broken.Holds ∧ e.cause.code = broken.code ∧
          e.span = broken.span ∧ List.Forall₂ NameUse.Annotates (usesAmong before) annotated ∧
          p.analyze.program.uses = annotated ++ usesAmong after) ∧
      ∀ u ∈ p.analyze.program.uses, ∀ symbol, u.symbol = some symbol →
        ∃ s above below, p.analyze.program.scope? u.declaration = some s ∧
          u ∈ statementUses u.declaration s.block.body ∧ u.declaration = above ++ below ∧
          p.analyze.program.Binds above below (canonicalName u.name) symbol := by
  have hsource := fromSource_of_parse hparse
  have hfollows := analyze_follows hsource
  refine ⟨hsource.uses_symbol, ?_, ?_, fun u hu symbol => binds_of_mem_uses hsource hu⟩
  · rintro ⟨scopes, hscopes⟩
    rw [hscopes] at hfollows
    cases hfollows with
    | done _ hannotates => simpa [milestones, uses] using hannotates
  · intro e he
    rw [he] at hfollows
    cases hfollows with
    | stopped before broken after annotated hsplit hholds hbroken hcode hspan hannotates huses =>
        exact ⟨before, broken, after, annotated, hsplit, hholds, hbroken, hcode, hspan, hannotates,
          huses⟩

/-- A reference in an inner procedure to a name that the procedure around it declares further down,
and a program that is refused in its second statement. -/
theorem names_resolve_lexically_in_two_programs :
    (∃ p, parse ("program p; var x : integer; procedure q; procedure r; begin x := 1 end; " ++
        "var x : real; begin x := 2.0 end; begin end.").toList "p.pas" false = .ok p ∧
      p.analyze.program.uses.map NameUse.symbol =
        [some (.variable ⟨"x", .integer, 1⟩), some (.variable ⟨"x", .real, 2⟩)] ∧
      ∀ u ∈ p.analyze.program.uses, ∀ symbol, u.symbol = some symbol →
        ∃ above below, u.declaration = above ++ below ∧
          p.analyze.program.Binds above below (canonicalName u.name) symbol) ∧
      ∃ p, parse "program p; var x : integer; begin x := 1; y := x; x := 2 end.".toList "p.pas" false =
          .ok p ∧
        p.analyze.program.uses.map (·.symbol.isSome) = [true, true, false, false] ∧
        ∃ before broken after annotated, p.milestones = before ++ .check broken :: after ∧
          ¬ broken.Holds ∧ broken.code = .idNotFound ∧
          List.Forall₂ NameUse.Annotates (usesAmong before) annotated ∧
          p.analyze.program.uses = annotated ++ usesAmong after := by
  have hinner : (parse ("program p; var x : integer; procedure q; procedure r; begin x := 1 end; " ++
      "var x : real; begin x := 2.0 end; begin end.").toList "p.pas" false).toOption.any
        (·.analyze.program.uses.map NameUse.symbol =
          [some (.variable ⟨"x", .integer, 1⟩), some (.variable ⟨"x", .real, 2⟩)]) = true := by
    decide +kernel
  have hrefused : (parse "program p; var x : integer; begin x := 1; y := x; x := 2 end.".toList
      "p.pas" false).toOption.any (fun p =>
        p.analyze.program.uses.map (·.symbol.isSome) = [true, true, false, false] &&
        match p.analyze.scopes with
        | .ok _ => false
        | .error e => e.cause.code = .idNotFound) = true := by decide +kernel
  constructor
  · obtain ⟨p, hp, htest⟩ := parse_of_any hinner
    obtain ⟨-, -, -, hbinds⟩ := names_resolve_lexically hp
    refine ⟨p, hp, of_decide_eq_true htest, ?_⟩
    intro u hu symbol hsymbol
    obtain ⟨-, above, below, -, -, hpath, hbound⟩ := hbinds u hu symbol hsymbol
    exact ⟨above, below, hpath, hbound⟩
  · obtain ⟨p, hp, htest⟩ := parse_of_any hrefused
    rw [Bool.and_eq_true, decide_eq_true_eq] at htest
    obtain ⟨-, -, hstops, -⟩ := names_resolve_lexically hp
    refine ⟨p, hp, htest.1, ?_⟩
    cases hscopes : p.analyze.scopes with
    | ok scopes =>
        rw [hscopes] at htest
        simp at htest
    | error e =>
        rw [hscopes] at htest
        obtain ⟨before, broken, after, annotated, hsplit, -, hbroken, hcode, -, hannotates, huses⟩ :=
          hstops e hscopes
        refine ⟨before, broken, after, annotated, hsplit, hbroken, ?_, hannotates, huses⟩
        rw [← hcode]
        exact of_decide_eq_true htest.2

end Program

end NestedPascal
