import NestedPascal.Proofs.Scope.NameUses

/-!
# How far resolution gets

Analysis passes the milestones of a program in order.  It annotates the uses that it passes and stops
at the first requirement that is broken; what lies behind is left as it was.
-/

namespace NestedPascal

/-- A use before it is annotated and the same use after. -/
def NameUse.Annotates (before after : NameUse) : Prop :=
  ∃ symbol, after = { before with symbol := some symbol }

/-- What a tree with the given milestones comes to: the uses of the tree afterwards and the problem,
if there was one. -/
inductive Follows (milestones : List Milestone) (uses : List NameUse) :
    Option SemanticError → Prop where
  | done : (∀ r, .check r ∈ milestones → r.Holds) →
    List.Forall₂ NameUse.Annotates (usesAmong milestones) uses → Follows milestones uses none
  | stopped (before broken after annotated) {e} : milestones = before ++ .check broken :: after →
    (∀ r, .check r ∈ before → r.Holds) → ¬ broken.Holds → e.cause.code = broken.code →
    e.span = broken.span → List.Forall₂ NameUse.Annotates (usesAmong before) annotated →
    uses = annotated ++ usesAmong after → Follows milestones uses (some e)

def problem? {α : Type} : Except SemanticError α → Option SemanticError
  | .ok _ => none
  | .error e => some e

section

variable {α β : Type} {e : SemanticError}

@[simp] theorem problem?_ok (a : α) : problem? (.ok a) = none := rfl

@[simp] theorem problem?_error : problem? (.error e : Except SemanticError α) = some e := rfl

@[simp] theorem problem?_ok_bind (a : α) (f : α → Except SemanticError β) :
    problem? (.ok a >>= f) = problem? (f a) := rfl

@[simp] theorem problem?_error_bind (f : α → Except SemanticError β) :
    problem? (.error e >>= f) = some e := rfl

end

namespace Follows

variable {front back : List Milestone} {uses uses' : List NameUse} {e : SemanticError}

theorem nil : Follows [] [] none :=
  .done (by simp) .nil

theorem append (h : Follows front uses none) {error : Option SemanticError}
    (h' : Follows back uses' error) : Follows (front ++ back) (uses ++ uses') error := by
  cases h with
  | done hholds hannotates =>
      cases h' with
      | done hholds' hannotates' =>
          apply Follows.done
          · intro r hr
            exact (List.mem_append.mp hr).elim (hholds r) (hholds' r)
          · rw [usesAmong_append]
            exact List.rel_append hannotates hannotates'
      | stopped before broken after annotated hsplit hholds' hbroken hcode hspan hannotates' huses =>
          apply Follows.stopped (front ++ before) broken after (uses ++ annotated) ?_ ?_ hbroken
            hcode hspan
          · rw [usesAmong_append]
            exact List.rel_append hannotates hannotates'
          · rw [huses, List.append_assoc]
          · rw [hsplit, List.append_assoc]
          · intro r hr
            exact (List.mem_append.mp hr).elim (hholds r) (hholds' r)

theorem stop (h : Follows front uses (some e)) (huses : uses' = uses ++ usesAmong back) :
    Follows (front ++ back) uses' (some e) := by
  cases h with
  | stopped before broken after annotated hsplit hholds hbroken hcode hspan hannotates hfront =>
      apply Follows.stopped before broken (after ++ back) annotated ?_ hholds hbroken hcode hspan
        hannotates
      · simp [huses, hfront]
      · simp [hsplit]

theorem check {r : Requirement} (hr : r.Holds) : Follows [.check r] [] none :=
  .done (by simpa using hr) .nil

theorem broken {r : Requirement} (hr : ¬ r.Holds) (hcode : e.cause.code = r.code)
    (hspan : e.span = r.span) : Follows [.check r] [] (some e) :=
  .stopped [] r [] [] rfl (by simp) hr hcode hspan .nil rfl

theorem finished {use use' : NameUse} (h : use.Annotates use') :
    Follows [.finished use] [use'] none :=
  .done (by simp) (.cons h .nil)

end Follows

/-! Requirements are milestones that annotate nothing. -/

section

variable {requirements : List Requirement}

theorem Follows.checks (h : ∀ r ∈ requirements, r.Holds) :
    Follows (requirements.map .check) [] none :=
  .done (by simpa using h) (by simp)

theorem Rejects.follows {e : SemanticError} (h : Rejects requirements e) :
    Follows (requirements.map .check) [] (some e) := by
  obtain ⟨broken, ⟨before, after, rfl, hbefore, hbroken⟩, hcode, hspan⟩ := h
  apply Follows.stopped (before.map .check) broken (after.map .check) [] ?_ ?_ hbroken hcode hspan
  · simp
  · simp
  · simp
  · simpa using hbefore

theorem Settles.follows {α : Type} {P : α → Prop} {result : Except SemanticError α}
    (h : Settles requirements P result) :
    Follows (requirements.map .check) [] (problem? result) := by
  cases result with
  | ok a => exact .checks (h.passes a rfl).1
  | error e => exact (h.rejects e rfl).follows

end

/-! ## Statements -/

section

variable {chain : ScopeChain} (path : DeclarationPath) {visible : Visible}

theorem VariableRef.resolve_follows (hchain : Represents chain visible) {r : VariableRef}
    (hname : IsIdentifier r.name) :
    Follows [.check (.reference visible r), .finished (r.use path)] [(r.resolve chain).1.use path]
      (problem? (r.resolve chain).2) := by
  have hchecked := (VariableRef.resolve_settles hchain hname).follows
  rcases VariableRef.resolve_eq hchain hname with ⟨v, -, heq⟩ | ⟨-, heq⟩
  · rw [heq] at hchecked ⊢
    exact hchecked.append (.finished ⟨.variable v, rfl⟩)
  · rw [heq] at hchecked ⊢
    exact hchecked.stop rfl

theorem Expr.resolve_follows (hchain : Represents chain visible) {e : Expr} (he : e.FromSource) :
    Follows (e.milestones path visible) ((e.resolve chain).1.uses path)
      (problem? (e.resolve chain).2) := by
  induction e with
  | literal span value => exact .nil
  | «variable» r =>
      have hr := VariableRef.resolve_follows path hchain (VariableRef.FromSource.name he)
      cases hresolved : (r.resolve chain).2 <;>
        simpa [Expr.resolve, Expr.milestones, Expr.uses, hresolved, Except.map, problem?] using hr
  | unary span sign operand ih => exact ih he
  | binary span op left right ihl ihr =>
      have hl := ihl he.1
      have hr := ihr he.2
      simp only [Expr.resolve, Expr.milestones]
      cases hleft : (left.resolve chain).2 with
      | error err =>
          rw [hleft] at hl
          rw [List.append_assoc]
          apply hl.stop
          simp [Expr.uses]
      | ok leftKind =>
          rw [hleft] at hl
          obtain ⟨-, hleftKind⟩ := (Expr.resolve_settles hchain he.1).passes leftKind hleft
          cases hright : (right.resolve chain).2 with
          | error err =>
              rw [hright] at hr
              apply (hl.append hr).stop
              simp [Expr.uses]
          | ok rightKind =>
              rw [hright] at hr
              obtain ⟨-, hrightKind⟩ := (Expr.resolve_settles hchain he.2).passes rightKind hright
              have hchecked := BinaryOperator.check_settles op span hleftKind hrightKind
              simpa [Expr.uses] using (hl.append hr).append hchecked.follows

theorem resolveArguments_follows (hchain : Represents chain visible) {c : Call}
    {q : ProcedureSymbol} (hdenote : visible.denote (canonicalName c.name) = some (.procedure q))
    (index : Nat) {params : List VariableSymbol} {args : List Expr}
    (hparams : q.params.drop index = params) (hargs : ∀ arg ∈ args, arg.FromSource)
    (hlength : params.length = args.length) :
    Follows (argumentMilestones path visible c index args)
      ((resolveArguments chain c.name (index + 1) params args).1.flatMap (Expr.uses path))
      (problem? (resolveArguments chain c.name (index + 1) params args).2) := by
  induction args generalizing index params with
  | nil => cases params <;> exact .nil
  | cons arg args ih =>
      cases params with
      | nil => contradiction
      | cons param params =>
          obtain ⟨harg, hrest⟩ := List.forall_mem_cons.mp hargs
          have hfirst := Expr.resolve_follows path hchain harg
          have hparam : q.params[index]? = some param := by
            rw [← List.head?_drop, hparams, List.head?_cons]
          have hleft : q.params.drop (index + 1) = params := by
            rw [← List.tail_drop, hparams, List.tail_cons]
          simp only [resolveArguments, argumentMilestones]
          cases hresolved : (arg.resolve chain).2 with
          | error err =>
              rw [hresolved] at hfirst
              apply hfirst.stop
              simp
          | ok kind =>
              rw [hresolved] at hfirst
              obtain ⟨-, hkind⟩ := (Expr.resolve_settles hchain harg).passes kind hresolved
              simp only
              by_cases hassignable : kind.assignable param.kind = true
              · rw [if_pos hassignable]
                have hargument := (Requirement.argument_holds_iff hdenote hparam hkind).mpr hassignable
                have hmore := ih (index + 1) hleft hrest (by simpa using hlength)
                simpa using hfirst.append ((Follows.check hargument).append hmore)
              · rw [if_neg hassignable]
                have hargument := mt (Requirement.argument_holds_iff hdenote hparam hkind).mp
                  hassignable
                have hstopped : Follows [.check (.argument visible c index arg)] [] (some
                    ⟨.argument (index + 1) c.name param.kind kind, arg.span⟩) :=
                  .broken hargument rfl rfl
                apply hfirst.append
                apply hstopped.stop
                simp [List.flatMap]

theorem Call.resolve_follows (hchain : Represents chain visible) {c : Call} (hc : c.FromSource) :
    Follows (c.milestones path visible) ((c.resolve chain).1.uses path)
      (problem? (c.resolve chain).2) := by
  rcases Call.resolve_cases hchain hc.name with
    ⟨q, hdenote, hlength, hargs⟩ | ⟨q, hdenote, hlength, heq⟩ | ⟨hdenote, heq⟩
  · have hcallee : Follows [.check (.callee visible c)] [] none := .check ⟨q, hdenote⟩
    have hcount : Follows [.check (.argumentCount visible c)] [] none :=
      .check ((Requirement.argumentCount_holds_iff hdenote).mpr hlength)
    have hmore : Follows (argumentMilestones path visible c 0 c.args)
        ((resolveArguments chain c.name 1 q.params c.args).1.flatMap (Expr.uses path))
        (problem? (resolveArguments chain c.name 1 q.params c.args).2) :=
      resolveArguments_follows path hchain hdenote 0 rfl hc.args hlength
    rcases hargs with ⟨hok, heq⟩ | ⟨e, herror, heq⟩
    · rw [hok] at hmore
      rw [heq]
      have hcall : (c.use path).Annotates ⟨path, c.span, c.name, some (.procedure q)⟩ :=
        ⟨.procedure q, rfl⟩
      exact hcallee.append (hcount.append (hmore.append (.finished hcall)))
    · rw [herror] at hmore
      rw [heq]
      exact hcallee.append (hcount.append (hmore.stop rfl))
  · have hcallee : Follows [.check (.callee visible c)] [] none := .check ⟨q, hdenote⟩
    have hstopped : Follows [.check (.argumentCount visible c)] []
        (some ⟨.argumentCount c.name q.params.length c.args.length, c.span⟩) :=
      .broken (mt (Requirement.argumentCount_holds_iff hdenote).mp hlength) rfl rfl
    rw [heq]
    apply hcallee.append
    apply hstopped.stop
    simp
  · have hstopped : Follows [.check (.callee visible c)] []
        (some ⟨.unknownProcedure c.name, c.span⟩) :=
      .broken (fun ⟨q, hq⟩ => hdenote q hq) rfl rfl
    rw [heq]
    apply hstopped.stop
    simp [Call.uses]

mutual

theorem Statement.resolve_follows (hchain : Represents chain visible) :
    (s : Statement) → s.FromSource →
      Follows (s.milestones path visible) ((s.resolve chain).1.uses path)
        (problem? (s.resolve chain).2)
  | .compound _ children, hs => by
    have hchildren := resolveStatements_follows hchain children hs
    rw [Statement.milestones, Statement.resolve, Statement.uses]
    exact hchildren
  | .assignment span target value, hs => by
    have hvalue := Expr.resolve_follows path hchain hs.2
    have htarget := VariableRef.resolve_follows path hchain hs.1.name
    simp only [Statement.resolve, Statement.milestones]
    cases hresolved : (value.resolve chain).2 with
    | error err =>
        rw [hresolved] at hvalue
        apply hvalue.stop
        simp [Statement.uses]
    | ok kind =>
        rw [hresolved] at hvalue
        obtain ⟨-, hkind⟩ := (Expr.resolve_settles hchain hs.2).passes kind hresolved
        cases htargetResolved : (target.resolve chain).2 with
        | error err =>
            rw [htargetResolved] at htarget
            apply hvalue.append
            apply htarget.stop
            simp
        | ok v =>
            rw [htargetResolved] at htarget
            obtain ⟨-, hdenote⟩ :=
              (VariableRef.resolve_settles hchain hs.1.name).passes v htargetResolved
            have hfront := hvalue.append htarget
            by_cases hassignable : kind.assignable v.kind = true
            · have hassignment : Follows [.check (.assignment visible span target value)] [] none :=
                .check ((Requirement.assignment_holds_iff hdenote hkind).mpr hassignable)
              simpa [Statement.uses, hassignable] using hfront.append hassignment
            · have hstopped : Follows [.check (.assignment visible span target value)] []
                  (some ⟨.assignment target.name v.kind kind, span⟩) :=
                .broken (mt (Requirement.assignment_holds_iff hdenote hkind).mp hassignable) rfl rfl
              simpa [Statement.uses, hassignable] using hfront.append hstopped
  | .call c, hs => by
    rw [Statement.milestones, Statement.resolve, Statement.uses]
    exact Call.resolve_follows path hchain hs

theorem resolveStatements_follows (hchain : Represents chain visible) :
    (ss : List Statement) → statementsFromSource ss →
      Follows (statementMilestones path visible ss) (statementUses path (resolveStatements chain ss).1)
        (problem? (resolveStatements chain ss).2)
  | [], _ => .nil
  | s :: rest, hs => by
    have hfirst := Statement.resolve_follows hchain s hs.1
    have hrest := resolveStatements_follows hchain rest hs.2
    simp only [resolveStatements, statementMilestones]
    cases hresolved : (s.resolve chain).2 with
    | error err =>
        rw [hresolved] at hfirst
        apply hfirst.stop
        simp [statementUses]
    | ok _ =>
        rw [hresolved] at hfirst
        exact hfirst.append hrest

end

end

/-! ## Blocks -/

mutual

theorem Block.analyze_follows {outer : ScopeChain} {visible : Visible}
    (houter : Represents outer visible) {own : ScopeTable} {path : DeclarationPath}
    {params : List TypedName}
    (hown : own.Holds ((params.map (·.symbol (path.length + 1))).map .variable))
    (hlevel : own.level = path.length + 1) :
    (block : Block) → block.FromSource →
      Follows (block.milestones path params visible) ((block.analyze outer own path).part.uses path)
        (block.analyze outer own path).error
  | .mk span declarations bodySpan body, hblock => by
    have hsettles := ScopeTable.declareHeaders_settles outer path 0 hblock.1 hown hlevel
    have hheaders := hsettles.follows
    have hentered : ((params.map (·.symbol (path.length + 1))).map ScopeSymbol.variable).map
        ScopeSymbol.name = params.map (canonicalName ·.name) := by
      simp [ScopeSymbol.name, TypedName.symbol]
    rw [hentered] at hheaders
    rw [Block.analyze, Block.milestones]
    cases hresult : own.declareHeaders outer path 0 declarations with
    | error e =>
        rw [hresult] at hheaders
        rw [List.append_assoc]
        apply hheaders.stop
        simp [Block.uses]
    | ok own' =>
        rw [hresult] at hheaders
        obtain ⟨-, htable, hlevel'⟩ := hsettles.passes own' hresult
        set s : LexicalScope := ⟨path, params, .mk span declarations bodySpan body, visible⟩
        have hown' : own'.Holds s.hoisted := htable
        have hprocedures : ∀ q ∈ procedureSymbols path 0 declarations, .procedure q ∈ s.hoisted :=
          fun q hq => List.mem_append_right _ (List.mem_map_of_mem hq)
        have hmembers := analyzeDeclarations_follows houter hown' (hlevel'.trans hlevel) 0
          declarations hblock.1 hprocedures
        have hanalyzed := analyzeDeclarations_analyzed houter hown' (hlevel'.trans hlevel) 0
          declarations hblock.1 hprocedures
        have hfront := hheaders.append hmembers
        simp only
        cases herror : (analyzeDeclarations outer own' path 0 declarations).error with
        | some e =>
            rw [herror] at hfront
            simp only [Analysis.within, herror]
            apply hfront.stop
            simp [Block.uses]
        | none =>
            rw [herror] at hfront
            have hchain : Represents ((analyzeDeclarations outer own' path 0 declarations).table ::
                outer) s.visible := .cons (hanalyzed.table herror) houter
            have hall := hfront.append (resolveStatements_follows path hchain body hblock.2)
            cases hresolved : (resolveStatements
                ((analyzeDeclarations outer own' path 0 declarations).table :: outer) body).2 <;>
              simpa [Block.uses, hresolved] using hall

theorem analyzeDeclarations_follows {outer : ScopeChain} {visible : Visible}
    (houter : Represents outer visible) {own : ScopeTable} {offered : List ScopeSymbol}
    {path : DeclarationPath} (hown : own.Holds offered) (hlevel : own.level = path.length + 1)
    (place : Nat) :
    (declarations : List Declaration) → declarationsFromSource declarations →
      (∀ q ∈ procedureSymbols path place declarations, .procedure q ∈ offered) →
      Follows (declarationMilestones path visible offered place declarations)
        (declarationUses path place (analyzeDeclarations outer own path place declarations).part)
        (analyzeDeclarations outer own path place declarations).error
  | [], _, _ => .nil
  | .variable v :: rest, hdeclarations, hheaders => by
    have hsettles := ScopeTable.declareVariable_settles hown outer hdeclarations.1
    have hfirst := hsettles.follows
    rw [hlevel] at hsettles
    rw [analyzeDeclarations, declarationMilestones]
    cases hresult : own.declareVariable outer v with
    | error e =>
        rw [hresult] at hfirst
        apply hfirst.stop
        simp [declarationUses]
    | ok own' =>
        rw [hresult] at hfirst
        obtain ⟨-, hown', hlevel'⟩ := hsettles.passes own' hresult
        exact hfirst.append (analyzeDeclarations_follows houter hown' hlevel' (place + 1) rest
          hdeclarations.2 (fun q hq => List.mem_append_left _ (hheaders q hq)))
  | .procedure span name params block :: rest, hdeclarations, hheaders => by
    have hsymbol := hheaders _ (List.mem_cons_self ..)
    have hdeep : own.level + 1 = (path ++ [place]).length + 1 := by
      rw [hlevel, List.length_append, List.length_singleton]
    have hformals : path.length + 2 = own.level + 1 := by rw [hlevel]
    rw [hformals] at hsymbol
    have hinner (table : ScopeTable)
        (htable : table.Holds ((params.map (·.symbol (own.level + 1))).map .variable))
        (htableLevel : table.level = own.level + 1) :=
      Block.analyze_follows (.cons hown houter) (hdeep ▸ htable) (htableLevel.trans hdeep) block
        hdeclarations.1.2.2
    have hmore := analyzeDeclarations_follows houter hown hlevel (place + 1) rest hdeclarations.2
      (fun q hq => hheaders q (List.mem_cons_of_mem _ hq))
    rw [analyzeDeclarations, declarationMilestones]
    rcases procedureScope_cases hown hsymbol hdeclarations.1.2.1 span block fun table =>
        block.analyze (own :: outer) table (path ++ [place]) with
      ⟨e, herror, hpart, -, hrejects⟩ | ⟨table, htable, htableLevel, hholds, hpart, -, herror⟩
    · simp only [herror, hpart, List.append_assoc]
      apply hrejects.follows.stop
      simp [declarationUses]
    · have hbody := (Follows.checks hholds).append (hinner table htable htableLevel)
      cases hbodyError : (block.analyze (own :: outer) table (path ++ [place])).error with
      | some e =>
          rw [hbodyError] at hbody
          simp only [herror, hpart, hbodyError]
          apply hbody.stop
          simp [declarationUses]
      | none =>
          rw [hbodyError] at hbody
          simpa [herror, hpart, hbodyError, declarationUses, Analysis.within] using
            hbody.append hmore

end

end NestedPascal
