import NestedPascal.Proofs.Scope.Annotation
import NestedPascal.Proofs.Scope.WellFormed

/-!
# Requirements settled by resolution

Resolving a phrase settles what is required of it: if it goes through, every requirement holds; if it
stops, it stops with the code and the span of the first requirement that is broken.
-/

namespace NestedPascal

/-- An error that tells of the first broken requirement. -/
def Rejects (requirements : List Requirement) (e : SemanticError) : Prop :=
  ∃ broken, FirstBroken requirements broken ∧ e.cause.code = broken.code ∧ e.span = broken.span

/-- The result of checking requirements in order; what it yields has a property. -/
structure Settles {α : Type} (requirements : List Requirement) (P : α → Prop)
    (result : Except SemanticError α) : Prop where
  passes : ∀ a, result = .ok a → (∀ r ∈ requirements, r.Holds) ∧ P a
  rejects : ∀ e, result = .error e → Rejects requirements e

section

variable {α : Type} {front back : List Requirement} {P : α → Prop} {a : α} {e : SemanticError}

theorem Rejects.append (h : Rejects front e) : Rejects (front ++ back) e := by
  obtain ⟨broken, ⟨before, after, rfl, hbefore, hbroken⟩, hcode, hspan⟩ := h
  refine ⟨broken, ⟨before, after ++ back, ?_, hbefore, hbroken⟩, hcode, hspan⟩
  rw [List.append_assoc, List.cons_append]

theorem Rejects.after (hfront : ∀ r ∈ front, r.Holds) (h : Rejects back e) :
    Rejects (front ++ back) e := by
  obtain ⟨broken, ⟨before, after, rfl, hbefore, hbroken⟩, hcode, hspan⟩ := h
  refine ⟨broken, ⟨front ++ before, after, ?_, ?_, hbroken⟩, hcode, hspan⟩
  · rw [List.append_assoc]
  · exact List.forall_mem_append.mpr ⟨hfront, hbefore⟩

theorem Rejects.first {broken : Requirement} (hbroken : ¬ broken.Holds)
    (hcode : e.cause.code = broken.code) (hspan : e.span = broken.span) :
    Rejects (broken :: back) e :=
  ⟨broken, ⟨[], back, rfl, by simp, hbroken⟩, hcode, hspan⟩

theorem Rejects.cons {r : Requirement} (hr : r.Holds) (h : Rejects back e) :
    Rejects (r :: back) e := by
  rw [← List.singleton_append]
  exact Rejects.after (List.forall_mem_singleton.mpr hr) h

theorem Rejects.cons_of_singleton {r : Requirement} (h : Rejects [r] e) :
    Rejects (r :: back) e := by
  rw [← List.singleton_append]
  exact h.append

theorem Settles.ok (hrequirements : ∀ r ∈ front, r.Holds) (ha : P a) :
    Settles front P (.ok a) := by
  refine ⟨?_, ?_⟩
  · intro b hb
    cases hb
    exact ⟨hrequirements, ha⟩
  · intro e he
    contradiction

theorem Settles.error (h : Rejects front e) : Settles front P (.error e) := by
  refine ⟨?_, ?_⟩
  · intro b hb
    contradiction
  · intro e' he
    cases he
    exact h

end

theorem Kind.assignable_iff {source target : Kind} :
    source.assignable target = true ↔ source.FlowsInto target := by
  cases source <;> cases target <;> simp [Kind.assignable, Kind.FlowsInto]

theorem BinaryOperator.definedFor_iff {op : BinaryOperator} {kind : Kind} :
    op.definedFor kind = true ↔ op.Admits kind := by
  cases op <;> cases kind <;> simp [BinaryOperator.definedFor, BinaryOperator.Admits]

section

variable {chain : ScopeChain} {visible : Visible}

/-! What is required of a phrase, once what the names and kinds in it are is known. -/

theorem Requirement.argumentCount_holds_iff {c : Call} {q : ProcedureSymbol}
    (hdenote : visible.denote (canonicalName c.name) = some (.procedure q)) :
    (argumentCount visible c).Holds ↔ q.params.length = c.args.length := by
  simp [Holds, hdenote]

theorem Requirement.argument_holds_iff {c : Call} {q : ProcedureSymbol} {index : Nat}
    {param : VariableSymbol} {arg : Expr} {kind : Kind}
    (hdenote : visible.denote (canonicalName c.name) = some (.procedure q))
    (hparam : q.params[index]? = some param) (hkind : arg.kindIn? visible = some kind) :
    (argument visible c index arg).Holds ↔ kind.assignable param.kind = true := by
  rw [Kind.assignable_iff]
  constructor
  · intro h
    exact h q param kind hdenote hparam hkind
  · intro h q' param' kind' hq' hparam' hkind'
    rw [hdenote, Option.some.injEq, ScopeSymbol.procedure.injEq] at hq'
    subst q'
    rw [hparam, Option.some.injEq] at hparam'
    rw [hkind, Option.some.injEq] at hkind'
    exact hparam' ▸ hkind' ▸ h

theorem Requirement.assignment_holds_iff {span : Span} {target : VariableRef} {value : Expr}
    {v : VariableSymbol} {kind : Kind}
    (hdenote : visible.denote (canonicalName target.name) = some (.variable v))
    (hkind : value.kindIn? visible = some kind) :
    (assignment visible span target value).Holds ↔ kind.assignable v.kind = true := by
  simp [Holds, hdenote, hkind, Kind.assignable_iff]

theorem VariableRef.resolve_settles (hchain : Represents chain visible) {r : VariableRef}
    (hname : IsIdentifier r.name) :
    Settles [.reference visible r]
      (fun v => visible.denote (canonicalName r.name) = some (.variable v)) (r.resolve chain).2 := by
  rcases VariableRef.resolve_eq hchain hname with ⟨v, hdenote, heq⟩ | ⟨hdenote, heq⟩
  · rw [heq]
    exact .ok (by simpa using ⟨v, hdenote⟩) hdenote
  · rw [heq]
    exact .error (.first (fun ⟨v, hv⟩ => hdenote v hv) rfl rfl)

theorem BinaryOperator.check_settles (op : BinaryOperator) (span : Span) {left right : Expr}
    {leftKind rightKind : Kind} (hleft : left.kindIn? visible = some leftKind)
    (hright : right.kindIn? visible = some rightKind) :
    Settles [.operands visible span op left right] (· = leftKind)
      (op.check span leftKind rightKind) := by
  have hbroken (h : ¬ (leftKind = rightKind ∧ op.Admits leftKind)) :
      ¬ (Requirement.operands visible span op left right).Holds :=
    fun hholds => h (hholds leftKind rightKind hleft hright)
  unfold BinaryOperator.check
  by_cases hmixed : leftKind ≠ rightKind
  · rw [if_pos hmixed]
    exact .error (.first (hbroken fun h => hmixed h.1) rfl rfl)
  · rw [if_neg hmixed]
    have heq : leftKind = rightKind := not_not.mp hmixed
    by_cases hdefined : op.definedFor leftKind = true
    · rw [if_pos hdefined]
      refine .ok ?_ rfl
      intro r hr
      rw [List.mem_singleton] at hr
      subst r
      intro l r hl hr
      rw [hleft, Option.some.injEq] at hl
      rw [hright, Option.some.injEq] at hr
      subst l r
      exact ⟨heq, BinaryOperator.definedFor_iff.mp hdefined⟩
    · rw [if_neg hdefined]
      refine .error (.first (hbroken fun h => ?_) rfl rfl)
      exact hdefined (BinaryOperator.definedFor_iff.mpr h.2)

theorem Expr.resolve_settles (hchain : Represents chain visible) {e : Expr} (he : e.FromSource) :
    Settles (e.requirements visible) (fun kind => e.kindIn? visible = some kind)
      (e.resolve chain).2 := by
  induction e with
  | literal span value => exact .ok (by simp [Expr.requirements]) rfl
  | «variable» r =>
      have hr := VariableRef.resolve_settles hchain (VariableRef.FromSource.name he)
      simp only [Expr.resolve]
      cases hresolved : (r.resolve chain).2 with
      | error err => exact .error (hr.rejects err hresolved)
      | ok v =>
          obtain ⟨hholds, hdenote⟩ := hr.passes v hresolved
          exact .ok hholds (by rw [Expr.kindIn?, hdenote])
  | unary span sign operand ih => exact ih he
  | binary span op left right ihl ihr =>
      have hl := ihl he.1
      have hr := ihr he.2
      simp only [Expr.resolve, Expr.requirements]
      cases hleft : (left.resolve chain).2 with
      | error err =>
          rw [List.append_assoc]
          exact .error (hl.rejects err hleft).append
      | ok leftKind =>
          obtain ⟨hlHolds, hlKind⟩ := hl.passes leftKind hleft
          cases hright : (right.resolve chain).2 with
          | error err => exact .error (Rejects.after hlHolds (hr.rejects err hright)).append
          | ok rightKind =>
              obtain ⟨hrHolds, hrKind⟩ := hr.passes rightKind hright
              have hboth := List.forall_mem_append.mpr ⟨hlHolds, hrHolds⟩
              have hcheck := BinaryOperator.check_settles op span hlKind hrKind
              change Settles _ _ (op.check span leftKind rightKind)
              cases hchecked : op.check span leftKind rightKind with
              | error err => exact .error (Rejects.after hboth (hcheck.rejects err hchecked))
              | ok kind =>
                  obtain ⟨hholds, rfl⟩ := hcheck.passes kind hchecked
                  exact .ok (List.forall_mem_append.mpr ⟨hboth, hholds⟩) hlKind

theorem resolveArguments_settles (hchain : Represents chain visible) {c : Call}
    {q : ProcedureSymbol} (hdenote : visible.denote (canonicalName c.name) = some (.procedure q))
    (index : Nat) {params : List VariableSymbol} {args : List Expr}
    (hparams : q.params.drop index = params) (hargs : ∀ arg ∈ args, arg.FromSource)
    (hlength : params.length = args.length) :
    Settles (argumentRequirements visible c index args) (fun _ => True)
      (resolveArguments chain c.name (index + 1) params args).2 := by
  induction args generalizing index params with
  | nil => cases params <;> exact .ok (by simp [argumentRequirements]) trivial
  | cons arg args ih =>
      cases params with
      | nil => contradiction
      | cons param params =>
          obtain ⟨harg, hrest⟩ := List.forall_mem_cons.mp hargs
          have hfirst := Expr.resolve_settles hchain harg
          have hparam : q.params[index]? = some param := by
            rw [← List.head?_drop, hparams, List.head?_cons]
          have hleft : q.params.drop (index + 1) = params := by
            rw [← List.tail_drop, hparams, List.tail_cons]
          simp only [resolveArguments, argumentRequirements]
          cases hresolved : (arg.resolve chain).2 with
          | error err => exact .error (hfirst.rejects err hresolved).append
          | ok kind =>
              obtain ⟨hholds, hkind⟩ := hfirst.passes kind hresolved
              simp only
              by_cases hassignable : kind.assignable param.kind = true
              · have hargument := (Requirement.argument_holds_iff hdenote hparam hkind).mpr hassignable
                rw [if_pos hassignable]
                have hmore := ih (index + 1) hleft hrest (by simpa using hlength)
                cases hargsResolved : (resolveArguments chain c.name (index + 1 + 1) params args).2 with
                | error err =>
                    exact .error (Rejects.after hholds (.cons hargument
                      (hmore.rejects err hargsResolved)))
                | ok _ =>
                    refine .ok (List.forall_mem_append.mpr ⟨hholds, ?_⟩) trivial
                    exact List.forall_mem_cons.mpr
                      ⟨hargument, (hmore.passes _ hargsResolved).1⟩
              · rw [if_neg hassignable]
                refine .error (Rejects.after hholds (.first ?_ rfl rfl))
                exact fun hargument =>
                  hassignable ((Requirement.argument_holds_iff hdenote hparam hkind).mp hargument)

theorem Call.resolve_settles (hchain : Represents chain visible) {c : Call} (hc : c.FromSource) :
    Settles (c.requirements visible) (fun _ => True) (c.resolve chain).2 := by
  rcases Call.resolve_cases hchain hc.name with
    ⟨q, hdenote, hlength, hargs⟩ | ⟨q, hdenote, hlength, heq⟩ | ⟨hdenote, heq⟩
  · have hcallee : (Requirement.callee visible c).Holds := ⟨q, hdenote⟩
    have hcount := (Requirement.argumentCount_holds_iff hdenote).mpr hlength
    have hsettles := resolveArguments_settles hchain hdenote 0 rfl hc.args hlength
    rcases hargs with ⟨hok, heq⟩ | ⟨e, herror, heq⟩
    · rw [heq]
      refine .ok ?_ trivial
      exact List.forall_mem_cons.mpr ⟨hcallee, List.forall_mem_cons.mpr
        ⟨hcount, (hsettles.passes _ hok).1⟩⟩
    · rw [heq]
      exact .error (.cons hcallee (.cons hcount (hsettles.rejects e herror)))
  · rw [heq]
    refine .error (.cons ⟨q, hdenote⟩ (.first ?_ rfl rfl))
    exact fun hcount => hlength ((Requirement.argumentCount_holds_iff hdenote).mp hcount)
  · rw [heq]
    exact .error (.first (fun ⟨q, hq⟩ => hdenote q hq) rfl rfl)

mutual

theorem Statement.resolve_settles (hchain : Represents chain visible) :
    (s : Statement) → s.FromSource →
      Settles (s.requirements visible) (fun _ => True) (s.resolve chain).2
  | .compound _ children, hs => resolveStatements_settles hchain children hs
  | .assignment span target value, hs => by
    have hvalue := Expr.resolve_settles hchain hs.2
    have htarget := VariableRef.resolve_settles hchain hs.1.name
    simp only [Statement.resolve, Statement.requirements]
    cases hresolved : (value.resolve chain).2 with
    | error err => exact .error (hvalue.rejects err hresolved).append
    | ok kind =>
        obtain ⟨hholds, hkind⟩ := hvalue.passes kind hresolved
        cases htargetResolved : (target.resolve chain).2 with
        | error err =>
            exact .error (Rejects.after hholds
              (htarget.rejects err htargetResolved).cons_of_singleton)
        | ok v =>
            obtain ⟨hreference, hdenote⟩ := htarget.passes v htargetResolved
            change Settles _ _ (if kind.assignable v.kind then .ok ()
              else .error ⟨.assignment target.name v.kind kind, span⟩ : Except SemanticError Unit)
            have hfront : ∀ r ∈ value.requirements visible ++ [.reference visible target],
                r.Holds := List.forall_mem_append.mpr ⟨hholds, hreference⟩
            rw [List.append_cons]
            by_cases hassignable : kind.assignable v.kind = true
            · rw [if_pos hassignable]
              refine .ok (List.forall_mem_append.mpr ⟨hfront, ?_⟩) trivial
              exact List.forall_mem_singleton.mpr
                ((Requirement.assignment_holds_iff hdenote hkind).mpr hassignable)
            · rw [if_neg hassignable]
              refine .error (Rejects.after hfront (.first ?_ rfl rfl))
              exact fun hassignment =>
                hassignable ((Requirement.assignment_holds_iff hdenote hkind).mp hassignment)
  | .call c, hs => Call.resolve_settles hchain hs

theorem resolveStatements_settles (hchain : Represents chain visible) :
    (ss : List Statement) → statementsFromSource ss →
      Settles (statementRequirements visible ss) (fun _ => True) (resolveStatements chain ss).2
  | [], _ => .ok (by simp [statementRequirements]) trivial
  | s :: rest, hs => by
    have hfirst := Statement.resolve_settles hchain s hs.1
    have hrest := resolveStatements_settles hchain rest hs.2
    simp only [resolveStatements, statementRequirements]
    cases hresolved : (s.resolve chain).2 with
    | error err => exact .error (hfirst.rejects err hresolved).append
    | ok _ =>
        have hholds := (hfirst.passes _ hresolved).1
        cases hmore : (resolveStatements chain rest).2 with
        | error err => exact .error (Rejects.after hholds (hrest.rejects err hmore))
        | ok _ =>
            exact .ok (List.forall_mem_append.mpr ⟨hholds, (hrest.passes _ hmore).1⟩) trivial

end

end

end NestedPascal
