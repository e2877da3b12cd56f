import Mathlib.Data.List.Nodup
import NestedPascal.Proofs.Scope.BlockAnalysis

/-!
# Requirements and well-formedness

The requirements in their order say together what well-formedness says without any: those of names
that the names of a scope differ, those of statements what holds of the simple statements and the
subterms in them, and those of a block that all scopes inside it are well formed.
-/

namespace NestedPascal

/-! ## Names -/

section

variable {entered names : List String} {name : String}

theorem nodup_append_singleton_iff :
    (entered ++ [name]).Nodup ↔ name ∉ entered ∧ entered.Nodup := by
  rw [← List.concat_eq_append, List.nodup_concat]

theorem fresh_and_iff {rest : Prop} (hentered : entered.Nodup)
    (hrest : (entered ++ [name]).Nodup → (rest ↔ (entered ++ [name] ++ names).Nodup)) :
    name ∉ entered ∧ rest ↔ (entered ++ name :: names).Nodup := by
  rw [List.append_cons]
  constructor
  · rintro ⟨hfresh, h⟩
    exact (hrest (nodup_append_singleton_iff.mpr ⟨hfresh, hentered⟩)).mp h
  · intro hnodup
    have hfront := (List.nodup_append.mp hnodup).1
    exact ⟨(nodup_append_singleton_iff.mp hfront).1, (hrest hfront).mpr hnodup⟩

end

theorem paramRequirements_hold_iff {entered : List String} (hentered : entered.Nodup)
    (params : List TypedName) :
    (∀ r ∈ paramRequirements entered params, r.Holds) ↔
      (entered ++ params.map (canonicalName ·.name)).Nodup := by
  induction params generalizing entered with
  | nil => simpa [paramRequirements] using hentered
  | cons p rest ih =>
      rw [paramRequirements, List.forall_mem_cons]
      exact fresh_and_iff hentered fun hfront => ih hfront

theorem headerRequirements_hold_iff {entered : List String} (hentered : entered.Nodup)
    (path : DeclarationPath) (place : Nat) (declarations : List Declaration) :
    (∀ r ∈ headerRequirements entered declarations, r.Holds) ↔
      (entered ++ (procedureSymbols path place declarations).map (·.name)).Nodup := by
  induction declarations generalizing entered place with
  | nil => simpa [headerRequirements, procedureSymbols] using hentered
  | cons d rest ih =>
      cases d with
      | «variable» v => exact ih hentered (place + 1)
      | procedure span name params block =>
          rw [headerRequirements, List.forall_mem_cons]
          exact fresh_and_iff hentered fun hfront => ih hfront (place + 1)

/-- What is required of the procedure declared at a place, wherever it is declared. -/
def LexicalScope.requirements (s : LexicalScope) : List Requirement :=
  paramRequirements [] s.params ++ s.block.requirements s.declaration s.params s.outer

theorem declarationRequirements_hold_iff (path : DeclarationPath) (outer : Visible)
    {offered : List ScopeSymbol} (hoffered : (offered.map ScopeSymbol.name).Nodup) (place : Nat)
    (declarations : List Declaration) :
    (∀ r ∈ declarationRequirements path outer offered place declarations, r.Holds) ↔
      (offered.map ScopeSymbol.name ++
          (variableSymbols (path.length + 1) declarations).map (·.name)).Nodup ∧
        ∀ i t, scopeAmong path outer offered place declarations i = some t →
          ∀ r ∈ t.requirements, r.Holds := by
  induction declarations generalizing offered place with
  | nil => simpa [declarationRequirements, variableSymbols, scopeAmong] using hoffered
  | cons d rest ih =>
      cases d with
      | «variable» v =>
          rw [declarationRequirements, List.forall_mem_cons, forall_scopeAmong_variable,
            variableSymbols, List.map_cons, List.append_cons (offered.map ScopeSymbol.name)]
          have hsplit : (offered ++ [ScopeSymbol.variable (v.symbol (path.length + 1))]).map
              ScopeSymbol.name = offered.map ScopeSymbol.name ++ [(v.symbol (path.length + 1)).name] :=
            List.map_append
          constructor
          · rintro ⟨hfresh, hrest⟩
            have hfront := nodup_append_singleton_iff.mpr ⟨hfresh, hoffered⟩
            rw [← hsplit]
            exact (ih (hsplit ▸ hfront) (place + 1)).mp hrest
          · rintro ⟨hnodup, hscopes⟩
            have hfront := (List.nodup_append.mp hnodup).1
            rw [← hsplit] at hnodup
            refine ⟨(nodup_append_singleton_iff.mp hfront).1, ?_⟩
            exact (ih (hsplit ▸ hfront) (place + 1)).mpr ⟨hnodup, hscopes⟩
      | procedure span name params block =>
          rw [declarationRequirements, List.forall_mem_append, forall_scopeAmong_procedure,
            variableSymbols, ih hoffered]
          tauto

/-! ## Expressions -/

section

variable {visible : Visible}

/-- What well-formedness says of an expression. -/
structure Expr.WellFormed (visible : Visible) (e : Expr) : Prop where
  references : ∀ r, .variable r ∈ e.subterms →
    ∃ v, visible.denote (canonicalName r.name) = some (.variable v)
  operands : ∀ span op left right, .binary span op left right ∈ e.subterms →
    ∃ kind, left.kindIn? visible = some kind ∧ right.kindIn? visible = some kind ∧ op.Admits kind

theorem Expr.WellFormed.of_subset {e x : Expr} (h : e.WellFormed visible)
    (hsubset : x.subterms ⊆ e.subterms) : x.WellFormed visible := by
  constructor
  · intro r hr
    exact h.references r (hsubset hr)
  · intro span op left right hbinary
    exact h.operands span op left right (hsubset hbinary)

theorem Expr.WellFormed.kindIn? {e : Expr} (he : e.WellFormed visible) :
    ∃ kind, e.kindIn? visible = some kind := by
  induction e with
  | literal span value => exact ⟨value.kind, rfl⟩
  | «variable» r =>
      obtain ⟨v, hdenote⟩ := he.references r (by simp [Expr.subterms])
      exact ⟨v.kind, by rw [Expr.kindIn?, hdenote]⟩
  | unary span sign operand ih =>
      apply ih
      apply he.of_subset
      intro x hx
      simp [Expr.subterms, hx]
  | binary span op left right =>
      obtain ⟨kind, hleft, -, -⟩ := he.operands span op left right (by simp [Expr.subterms])
      exact ⟨kind, hleft⟩

theorem Expr.requirements_hold_iff {e : Expr} :
    (∀ r ∈ e.requirements visible, r.Holds) ↔ e.WellFormed visible := by
  induction e with
  | literal span value =>
      simp only [Expr.requirements, List.not_mem_nil, false_implies, implies_true, true_iff]
      exact ⟨by simp [Expr.subterms], by simp [Expr.subterms]⟩
  | «variable» r =>
      rw [Expr.requirements, List.forall_mem_singleton]
      constructor
      · intro h
        refine ⟨?_, by simp [Expr.subterms]⟩
        intro r' hr'
        simp only [Expr.subterms, List.mem_singleton, Expr.variable.injEq] at hr'
        exact hr' ▸ h
      · intro h
        exact h.references r (by simp [Expr.subterms])
  | unary span sign operand ih =>
      rw [Expr.requirements, ih]
      constructor
      · intro h
        exact ⟨by simpa [Expr.subterms] using h.references,
          by simpa [Expr.subterms] using h.operands⟩
      · intro h
        exact ⟨by simpa [Expr.subterms] using h.references,
          by simpa [Expr.subterms] using h.operands⟩
  | binary span op left right ihl ihr =>
      rw [Expr.requirements, List.forall_mem_append, List.forall_mem_append,
        List.forall_mem_singleton, ihl, ihr]
      constructor
      · rintro ⟨⟨hleft, hright⟩, hoperands⟩
        obtain ⟨leftKind, hleftKind⟩ := hleft.kindIn?
        obtain ⟨rightKind, hrightKind⟩ := hright.kindIn?
        obtain ⟨rfl, hadmits⟩ := hoperands leftKind rightKind hleftKind hrightKind
        refine ⟨?_, ?_⟩
        · intro r hr
          rw [Expr.subterms, List.mem_cons, List.mem_append] at hr
          rcases hr with hr | hr | hr
          · contradiction
          · exact hleft.references r hr
          · exact hright.references r hr
        · intro span' op' left' right' hbinary
          rw [Expr.subterms, List.mem_cons, List.mem_append] at hbinary
          rcases hbinary with heq | hbinary | hbinary
          · cases heq
            exact ⟨leftKind, hleftKind, hrightKind, hadmits⟩
          · exact hleft.operands span' op' left' right' hbinary
          · exact hright.operands span' op' left' right' hbinary
      · intro h
        refine ⟨⟨h.of_subset ?_, h.of_subset ?_⟩, ?_⟩
        · intro x hx
          simp [Expr.subterms, hx]
        · intro x hx
          simp [Expr.subterms, hx]
        · obtain ⟨kind, hleft, hright, hadmits⟩ :=
            h.operands span op left right (by simp [Expr.subterms])
          intro leftKind rightKind hleftKind hrightKind
          rw [hleft, Option.some.injEq] at hleftKind
          rw [hright, Option.some.injEq] at hrightKind
          subst leftKind rightKind
          exact ⟨rfl, hadmits⟩

/-! ## Statements -/

mutual

theorem Statement.requirements_eq :
    (s : Statement) → s.requirements visible = s.simple.flatMap (·.requirements visible)
  | .compound _ children => by
    rw [Statement.requirements, Statement.simple]
    exact statementRequirements_eq children
  | .assignment .. => by rw [Statement.simple, List.flatMap_singleton]
  | .call _ => by rw [Statement.simple, List.flatMap_singleton]

theorem statementRequirements_eq :
    (ss : List Statement) →
      statementRequirements visible ss = (simpleStatements ss).flatMap (·.requirements visible)
  | [] => rfl
  | s :: rest => by
    rw [statementRequirements, simpleStatements, List.flatMap_append, s.requirements_eq,
      statementRequirements_eq rest]

end

theorem argumentRequirements_hold_iff {c : Call} {index : Nat} {args : List Expr} :
    (∀ r ∈ argumentRequirements visible c index args, r.Holds) ↔
      ∀ (i : Nat) arg, args[i]? = some arg →
        arg.WellFormed visible ∧ (Requirement.argument visible c (index + i) arg).Holds := by
  induction args generalizing index with
  | nil => simp [argumentRequirements]
  | cons arg rest ih =>
      rw [argumentRequirements, List.forall_mem_append, List.forall_mem_cons,
        Expr.requirements_hold_iff, ih]
      constructor
      · rintro ⟨harg, hargument, hrest⟩ i arg' hget
        cases i with
        | zero =>
            cases hget
            exact ⟨harg, hargument⟩
        | succ i =>
            rw [Nat.add_comm i, ← Nat.add_assoc]
            exact hrest i arg' hget
      · intro h
        obtain ⟨harg, hargument⟩ := h 0 arg rfl
        refine ⟨harg, hargument, ?_⟩
        intro i arg' hget
        rw [Nat.add_assoc, Nat.add_comm 1]
        exact h (i + 1) arg' hget

theorem Statement.assignment_requirements_hold_iff {span : Span} {target : VariableRef}
    {value : Expr} :
    (∀ r ∈ (Statement.assignment span target value).requirements visible, r.Holds) ↔
      value.WellFormed visible ∧
        ∃ v kind, visible.denote (canonicalName target.name) = some (.variable v) ∧
          value.kindIn? visible = some kind ∧ kind.FlowsInto v.kind := by
  rw [Statement.requirements, List.forall_mem_append, List.forall_mem_cons,
    List.forall_mem_singleton, Expr.requirements_hold_iff]
  constructor
  · rintro ⟨hvalue, ⟨v, hdenote⟩, hassignment⟩
    obtain ⟨kind, hkind⟩ := hvalue.kindIn?
    exact ⟨hvalue, v, kind, hdenote, hkind, hassignment v kind hdenote hkind⟩
  · rintro ⟨hvalue, v, kind, hdenote, hkind, hflows⟩
    refine ⟨hvalue, ⟨v, hdenote⟩, ?_⟩
    intro w kind' hw hkind'
    rw [hdenote, Option.some.injEq, ScopeSymbol.variable.injEq] at hw
    rw [hkind, Option.some.injEq] at hkind'
    subst w kind'
    exact hflows

theorem Call.requirements_hold_iff {c : Call} :
    (∀ r ∈ c.requirements visible, r.Holds) ↔
      (∀ arg ∈ c.args, arg.WellFormed visible) ∧
        ∃ q, visible.denote (canonicalName c.name) = some (.procedure q) ∧
          q.params.length = c.args.length ∧
          ∀ (i : Nat) param arg, q.params[i]? = some param → c.args[i]? = some arg →
            ∃ kind, arg.kindIn? visible = some kind ∧ kind.FlowsInto param.kind := by
  rw [Call.requirements, List.forall_mem_cons, List.forall_mem_cons, argumentRequirements_hold_iff]
  constructor
  · rintro ⟨⟨q, hdenote⟩, hcount, hargs⟩
    refine ⟨?_, q, hdenote, hcount q hdenote, ?_⟩
    · intro arg harg
      obtain ⟨i, hget⟩ := List.mem_iff_getElem?.mp harg
      exact (hargs i arg hget).1
    · intro i param arg hparam hget
      obtain ⟨harg, hargument⟩ := hargs i arg hget
      obtain ⟨kind, hkind⟩ := harg.kindIn?
      rw [Nat.zero_add] at hargument
      exact ⟨kind, hkind, hargument q param kind hdenote hparam hkind⟩
  · rintro ⟨hargs, q, hdenote, hlength, hfit⟩
    refine ⟨⟨q, hdenote⟩, ?_, ?_⟩
    · intro q' hq'
      rw [hdenote, Option.some.injEq, ScopeSymbol.procedure.injEq] at hq'
      exact hq' ▸ hlength
    · intro i arg hget
      refine ⟨hargs arg (List.mem_of_getElem? hget), ?_⟩
      intro q' param kind hq' hparam hkind
      rw [hdenote, Option.some.injEq, ScopeSymbol.procedure.injEq] at hq'
      subst q'
      rw [Nat.zero_add] at hparam
      obtain ⟨kind', hkind', hflows⟩ := hfit i param arg hparam hget
      rw [hkind, Option.some.injEq] at hkind'
      exact hkind' ▸ hflows

end

mutual

theorem Statement.compound_not_mem_simple {span : Span} {children : List Statement} :
    (s : Statement) → .compound span children ∉ s.simple
  | .compound _ inner => by
    rw [Statement.simple]
    exact compound_not_mem_simpleStatements inner
  | .assignment .. => by simp [Statement.simple]
  | .call _ => by simp [Statement.simple]

theorem compound_not_mem_simpleStatements {span : Span} {children : List Statement} :
    (ss : List Statement) → .compound span children ∉ simpleStatements ss
  | [] => by simp [simpleStatements]
  | s :: rest => by
    rw [simpleStatements, List.mem_append]
    rintro (hs | hrest)
    · exact s.compound_not_mem_simple hs
    · exact compound_not_mem_simpleStatements rest hrest

end

/-! ## Scopes -/

namespace LexicalScope

theorem wellFormed_iff {s : LexicalScope} :
    s.WellFormed ↔ (s.offered.map ScopeSymbol.name).Nodup ∧
      ∀ r ∈ statementRequirements s.visible s.block.body, r.Holds := by
  rw [statementRequirements_eq, List.forall_mem_flatMap]
  constructor
  · intro h
    have hexpressions : ∀ st ∈ simpleStatements s.block.body, ∀ e ∈ st.expressions,
        e.WellFormed s.visible := fun st hst e he => ⟨h.references st hst e he, h.operands st hst e he⟩
    refine ⟨h.distinct, ?_⟩
    intro st hst
    cases st with
    | compound span children => exact absurd hst (compound_not_mem_simpleStatements _)
    | assignment span target value =>
        refine Statement.assignment_requirements_hold_iff.mpr ⟨?_, h.assignments _ _ _ hst⟩
        exact hexpressions _ hst value (by simp [Statement.expressions])
    | call c =>
        obtain ⟨q, hdenote, hlength⟩ := h.calls c hst
        obtain ⟨q', hdenote', hfit⟩ := h.arguments c hst
        rw [hdenote, Option.some.injEq, ScopeSymbol.procedure.injEq] at hdenote'
        subst q'
        exact Call.requirements_hold_iff.mpr ⟨hexpressions _ hst, q, hdenote, hlength, hfit⟩
  · rintro ⟨hdistinct, h⟩
    have hexpressions : ∀ st ∈ simpleStatements s.block.body, ∀ e ∈ st.expressions,
        e.WellFormed s.visible := by
      intro st hst e he
      have hrequirements := h st hst
      cases st with
      | compound span children => simp [Statement.expressions] at he
      | assignment span target value =>
          simp only [Statement.expressions, List.mem_singleton] at he
          exact he ▸ (Statement.assignment_requirements_hold_iff.mp hrequirements).1
      | call c => exact (Call.requirements_hold_iff.mp hrequirements).1 e he
    refine ⟨hdistinct, ?_, ?_, ?_, ?_, ?_, ?_⟩
    · intro c hc
      obtain ⟨-, q, hdenote, hlength, -⟩ := Call.requirements_hold_iff.mp (h _ hc)
      exact ⟨q, hdenote, hlength⟩
    · intro st hst e he
      exact (hexpressions st hst e he).references
    · intro span target value hassignment
      obtain ⟨-, v, -, hdenote, -⟩ :=
        Statement.assignment_requirements_hold_iff.mp (h _ hassignment)
      exact ⟨v, hdenote⟩
    · intro st hst e he
      exact (hexpressions st hst e he).operands
    · intro span target value hassignment
      exact (Statement.assignment_requirements_hold_iff.mp (h _ hassignment)).2
    · intro c hc
      obtain ⟨-, q, hdenote, -, hfit⟩ := Call.requirements_hold_iff.mp (h _ hc)
      exact ⟨q, hdenote, hfit⟩

theorem names_hoisted (s : LexicalScope) :
    s.hoisted.map ScopeSymbol.name =
      s.params.map (canonicalName ·.name) ++ s.procedures.map (·.name) := by
  rw [hoisted, parameters, List.map_append, List.map_map, List.map_map, List.map_map]
  rfl

theorem names_offered (s : LexicalScope) :
    s.offered.map ScopeSymbol.name =
      s.hoisted.map ScopeSymbol.name ++ s.declaredVariables.map (·.name) := by
  simp [offered, ScopeSymbol.name]

theorem block_requirements_eq (s : LexicalScope) :
    s.block.requirements s.declaration s.params s.outer =
      headerRequirements (s.params.map (canonicalName ·.name)) s.block.declarations ++
        declarationRequirements s.declaration s.outer s.hoisted 0 s.block.declarations ++
        statementRequirements s.visible s.block.body := by
  obtain ⟨declaration, params, ⟨span, declarations, bodySpan, body⟩, outer⟩ := s
  rw [Block.requirements]
  rfl

/-- A scope meets its requirements if it is well formed and the scopes in it meet theirs. -/
theorem requirements_hold_iff {s : LexicalScope} :
    (∀ r ∈ s.requirements, r.Holds) ↔
      s.WellFormed ∧ ∀ i t, s.inner? i = some t → ∀ r ∈ t.requirements, r.Holds := by
  rw [requirements, block_requirements_eq, wellFormed_iff, List.forall_mem_append,
    List.forall_mem_append, List.forall_mem_append, paramRequirements_hold_iff List.nodup_nil,
    List.nil_append, names_offered]
  simp only [inner?_eq_scopeAmong]
  constructor
  · rintro ⟨hparams, ⟨hheaders, hmembers⟩, hbody⟩
    have hhoisted := (headerRequirements_hold_iff hparams s.declaration 0 _).mp hheaders
    have hdistinct := hhoisted
    rw [← procedures, ← names_hoisted] at hdistinct
    obtain ⟨hnames, hinner⟩ :=
      (declarationRequirements_hold_iff s.declaration s.outer hdistinct 0 _).mp hmembers
    exact ⟨⟨hnames, hbody⟩, hinner⟩
  · rintro ⟨⟨hnames, hbody⟩, hinner⟩
    have hdistinct := (List.nodup_append.mp hnames).1
    have hhoisted := hdistinct
    rw [names_hoisted] at hhoisted
    have hparams := (List.nodup_append.mp hhoisted).1
    refine ⟨hparams, ⟨?_, ?_⟩, hbody⟩
    · exact (headerRequirements_hold_iff hparams s.declaration 0 _).mpr hhoisted
    · exact (declarationRequirements_hold_iff s.declaration s.outer hdistinct 0 _).mpr
        ⟨hnames, hinner⟩

/-- Scopes end: whatever holds of a scope once it holds of the scopes in it holds of every scope. -/
theorem induction {P : LexicalScope → Prop}
    (step : ∀ s, (∀ i t, s.inner? i = some t → P t) → P s) (s : LexicalScope) : P s := by
  refine step s ?_
  intro i t ht
  have hsmaller : sizeOf t.block < sizeOf s.block := by
    obtain ⟨span, name, hget, -, -⟩ := inner?_eq_some ht
    have hmem := List.sizeOf_lt_of_mem (List.mem_of_getElem? hget)
    cases hblock : s.block with
    | mk span' declarations bodySpan body =>
        rw [hblock, Block.declarations] at hmem
        simp only [Declaration.procedure.sizeOf_spec, Block.mk.sizeOf_spec] at hmem ⊢
        omega
  exact induction step t
termination_by sizeOf s.block

theorem requirements_hold_iff_everywhere (s : LexicalScope) :
    (∀ r ∈ s.requirements, r.Holds) ↔ s.Everywhere WellFormed := by
  induction s using induction with
  | step s ih =>
      rw [requirements_hold_iff, everywhere_iff]
      constructor
      · rintro ⟨hs, hinner⟩
        exact ⟨hs, fun i t ht => (ih i t ht).mp (hinner i t ht)⟩
      · rintro ⟨hs, hinner⟩
        exact ⟨hs, fun i t ht => (ih i t ht).mpr (hinner i t ht)⟩

end LexicalScope

theorem Program.requirements_hold_iff {p : Program} :
    (∀ r ∈ p.requirements, r.Holds) ↔ p.WellFormed := by
  have h := p.globalScope.requirements_hold_iff_everywhere
  rwa [LexicalScope.requirements, globalScope, paramRequirements, List.nil_append] at h

end NestedPascal
