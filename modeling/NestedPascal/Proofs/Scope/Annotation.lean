import NestedPascal.Proofs.Scope.TableContents
import NestedPascal.Scope.Resolve

/-!
# Annotated trees

Resolution annotates references and calls with what their names denote under lexical visibility,
however far it gets.  A tree that it went through is annotated everywhere, and its kinds fit.
-/

namespace NestedPascal

/-! ## Annotations that are right -/

def VariableRef.AnnotatedIn (visible : Visible) (r : VariableRef) : Prop :=
  ∀ v, r.symbol = some v → visible.denote (canonicalName r.name) = some (.variable v)

def Expr.AnnotatedIn (visible : Visible) : Expr → Prop
  | .literal .. => True
  | .variable r => r.AnnotatedIn visible
  | .unary _ _ operand => operand.AnnotatedIn visible
  | .binary _ _ left right => left.AnnotatedIn visible ∧ right.AnnotatedIn visible

structure Call.AnnotatedIn (visible : Visible) (c : Call) : Prop where
  symbol : ∀ q, c.symbol = some q →
    visible.denote (canonicalName c.name) = some (.procedure q)
  args : ∀ arg ∈ c.args, arg.AnnotatedIn visible

mutual

def Statement.AnnotatedIn (visible : Visible) : Statement → Prop
  | .compound _ children => statementsAnnotatedIn visible children
  | .assignment _ target value => target.AnnotatedIn visible ∧ value.AnnotatedIn visible
  | .call c => c.AnnotatedIn visible

def statementsAnnotatedIn (visible : Visible) : List Statement → Prop
  | [] => True
  | s :: rest => s.AnnotatedIn visible ∧ statementsAnnotatedIn visible rest

end

theorem statementsAnnotatedIn_append {visible : Visible} {front back : List Statement} :
    statementsAnnotatedIn visible (front ++ back) ↔
      statementsAnnotatedIn visible front ∧ statementsAnnotatedIn visible back := by
  induction front with
  | nil => simp [statementsAnnotatedIn]
  | cons s rest ih => simp [statementsAnnotatedIn, ih, and_assoc]

/-! ## Trees that are annotated everywhere and whose kinds fit -/

structure VariableRef.Denotes (visible : Visible) (r : VariableRef) (v : VariableSymbol) : Prop where
  symbol : r.symbol = some v
  denote : visible.denote (canonicalName r.name) = some (.variable v)
  name : IsIdentifier r.name

inductive Expr.HasKind (visible : Visible) : Expr → Kind → Prop where
  | literal {span value} : value.InRange → HasKind visible (.literal span value) value.kind
  | variable {r v} : r.Denotes visible v → HasKind visible (.variable r) v.kind
  | unary {span sign operand kind} :
      HasKind visible operand kind → HasKind visible (.unary span sign operand) kind
  | binary {span op left right kind} :
      HasKind visible left kind → HasKind visible right kind → op.definedFor kind = true →
      HasKind visible (.binary span op left right) kind

/-- The arguments fit the parameters they are for, none is missing and none is left over. -/
inductive ArgumentsFit (visible : Visible) : List VariableSymbol → List Expr → Prop where
  | nil : ArgumentsFit visible [] []
  | cons {param params arg args kind} :
      arg.HasKind visible kind → kind.assignable param.kind = true →
      ArgumentsFit visible params args → ArgumentsFit visible (param :: params) (arg :: args)

structure Call.Fits (visible : Visible) (c : Call) (q : ProcedureSymbol) : Prop where
  symbol : c.symbol = some q
  denote : visible.denote (canonicalName c.name) = some (.procedure q)
  args : ArgumentsFit visible q.params c.args

mutual

def Statement.Fits (visible : Visible) : Statement → Prop
  | .compound _ children => statementsFit visible children
  | .assignment _ target value =>
    ∃ v kind, target.Denotes visible v ∧ value.HasKind visible kind ∧
      kind.assignable v.kind = true
  | .call c => ∃ q, c.Fits visible q

def statementsFit (visible : Visible) : List Statement → Prop
  | [] => True
  | s :: rest => s.Fits visible ∧ statementsFit visible rest

end

theorem statementsFit_append {visible : Visible} {front back : List Statement} :
    statementsFit visible (front ++ back) ↔
      statementsFit visible front ∧ statementsFit visible back := by
  induction front with
  | nil => simp [statementsFit]
  | cons s rest ih => simp [statementsFit, ih, and_assoc]

/-! ## Trees from a source have no annotation that could be wrong -/

theorem VariableRef.FromSource.annotatedIn {r : VariableRef} (hr : r.FromSource)
    (visible : Visible) : r.AnnotatedIn visible := by
  intro v hv
  rw [hr.unresolved] at hv
  contradiction

theorem Expr.annotatedIn_of_fromSource {e : Expr} (he : e.FromSource) (visible : Visible) :
    e.AnnotatedIn visible := by
  induction e with
  | literal span value => trivial
  | «variable» r => exact VariableRef.FromSource.annotatedIn he visible
  | unary span sign operand ih => exact ih he
  | binary span op left right ihl ihr => exact ⟨ihl he.1, ihr he.2⟩

theorem Call.FromSource.annotatedIn {c : Call} (hc : c.FromSource) (visible : Visible) :
    c.AnnotatedIn visible := by
  refine ⟨?_, fun arg harg => Expr.annotatedIn_of_fromSource (hc.args arg harg) visible⟩
  intro q hq
  rw [hc.unresolved] at hq
  contradiction

mutual

theorem Statement.annotatedIn_of_fromSource (visible : Visible) :
    (s : Statement) → s.FromSource → s.AnnotatedIn visible
  | .compound _ children, hs => statementsAnnotatedIn_of_fromSource visible children hs
  | .assignment _ _ _, hs =>
    ⟨hs.1.annotatedIn visible, Expr.annotatedIn_of_fromSource hs.2 visible⟩
  | .call _, hs => hs.annotatedIn visible

theorem statementsAnnotatedIn_of_fromSource (visible : Visible) :
    (ss : List Statement) → statementsFromSource ss → statementsAnnotatedIn visible ss
  | [], _ => trivial
  | s :: rest, hs =>
    ⟨s.annotatedIn_of_fromSource visible hs.1, statementsAnnotatedIn_of_fromSource visible rest hs.2⟩

end

/-! ## What resolution annotates -/

section

variable {chain : ScopeChain} {visible : Visible}

theorem VariableRef.resolve_eq (hchain : Represents chain visible) {r : VariableRef}
    (hname : IsIdentifier r.name) :
    (∃ v, visible.denote (canonicalName r.name) = some (.variable v) ∧
        r.resolve chain = ({ r with symbol := some v }, .ok v)) ∨
      (∀ v, visible.denote (canonicalName r.name) ≠ some (.variable v)) ∧
        r.resolve chain = (r, .error ⟨.unknownVariable r.name, r.span⟩) := by
  rw [VariableRef.resolve, hchain.lookup_identifier hname]
  split
  next v hdenote => exact .inl ⟨v, hdenote, rfl⟩
  next hdenote => exact .inr ⟨hdenote, rfl⟩

theorem VariableRef.resolve_annotatedIn (hchain : Represents chain visible) {r : VariableRef}
    (hr : r.FromSource) : (r.resolve chain).1.AnnotatedIn visible := by
  rcases VariableRef.resolve_eq hchain hr.name with ⟨v, hdenote, heq⟩ | ⟨-, heq⟩
  · rw [heq]
    intro w hw
    simp only [Option.some.injEq] at hw
    exact hw ▸ hdenote
  · rw [heq]
    exact hr.annotatedIn visible

theorem VariableRef.resolve_denotes (hchain : Represents chain visible) {r : VariableRef}
    (hr : r.FromSource) {v : VariableSymbol} (hok : (r.resolve chain).2 = .ok v) :
    (r.resolve chain).1.Denotes visible v := by
  rcases VariableRef.resolve_eq hchain hr.name with ⟨w, hdenote, heq⟩ | ⟨-, heq⟩
  · rw [heq] at hok ⊢
    cases hok
    exact ⟨rfl, hdenote, hr.name⟩
  · rw [heq] at hok
    contradiction

theorem Expr.resolve_annotatedIn (hchain : Represents chain visible) {e : Expr}
    (he : e.FromSource) : (e.resolve chain).1.AnnotatedIn visible := by
  induction e with
  | literal span value => trivial
  | «variable» r => exact VariableRef.resolve_annotatedIn hchain he
  | unary span sign operand ih => exact ih he
  | binary span op left right ihl ihr =>
      simp only [Expr.resolve]
      split
      next => exact ⟨ihl he.1, Expr.annotatedIn_of_fromSource he.2 visible⟩
      next => exact ⟨ihl he.1, ihr he.2⟩

theorem BinaryOperator.check_eq_ok {op : BinaryOperator} {span : Span} {left right kind : Kind}
    (h : op.check span left right = .ok kind) :
    left = right ∧ kind = left ∧ op.definedFor left = true := by
  unfold BinaryOperator.check at h
  split at h
  next => contradiction
  next heq =>
    split at h
    next hdefined =>
      cases h
      exact ⟨by simpa using heq, rfl, hdefined⟩
    next => contradiction

theorem Expr.resolve_hasKind (hchain : Represents chain visible) {e : Expr} (he : e.FromSource)
    {kind : Kind} (hok : (e.resolve chain).2 = .ok kind) :
    (e.resolve chain).1.HasKind visible kind := by
  induction e generalizing kind with
  | literal span value =>
      cases hok
      exact .literal he
  | «variable» r =>
      simp only [Expr.resolve] at hok ⊢
      cases hresolved : (r.resolve chain).2 with
      | error err =>
          rw [hresolved] at hok
          contradiction
      | ok v =>
          rw [hresolved] at hok
          cases hok
          exact .variable (VariableRef.resolve_denotes hchain he hresolved)
  | unary span sign operand ih => exact .unary (ih he hok)
  | binary span op left right ihl ihr =>
      simp only [Expr.resolve] at hok ⊢
      cases hleft : (left.resolve chain).2 with
      | error err =>
          rw [hleft] at hok
          contradiction
      | ok leftKind =>
          cases hright : (right.resolve chain).2 with
          | error err =>
              simp only [hleft, hright] at hok
              contradiction
          | ok rightKind =>
              simp only [hleft, hright] at hok
              obtain ⟨rfl, rfl, hdefined⟩ := BinaryOperator.check_eq_ok hok
              exact .binary (ihl he.1 hleft) (ihr he.2 hright) hdefined

theorem resolveArguments_annotatedIn (hchain : Represents chain visible) (name : String)
    (position : Nat) (params : List VariableSymbol) {args : List Expr}
    (hargs : ∀ arg ∈ args, arg.FromSource) :
    ∀ arg ∈ (resolveArguments chain name position params args).1, arg.AnnotatedIn visible := by
  have hsource : ∀ arg ∈ args, arg.AnnotatedIn visible := fun arg harg =>
    Expr.annotatedIn_of_fromSource (hargs arg harg) visible
  induction args generalizing position params with
  | nil => cases params <;> simp [resolveArguments]
  | cons arg args ih =>
      cases params with
      | nil => simpa [resolveArguments] using hsource
      | cons param params =>
          obtain ⟨harg, hrest⟩ := List.forall_mem_cons.mp hargs
          have hannotated := Expr.resolve_annotatedIn hchain harg
          have hkept := (List.forall_mem_cons.mp hsource).2
          simp only [resolveArguments]
          split
          next => exact List.forall_mem_cons.mpr ⟨hannotated, hkept⟩
          next =>
            split
            next =>
              exact List.forall_mem_cons.mpr ⟨hannotated, ih (position + 1) params hrest hkept⟩
            next => exact List.forall_mem_cons.mpr ⟨hannotated, hkept⟩

theorem resolveArguments_fit (hchain : Represents chain visible) (name : String) (position : Nat)
    (params : List VariableSymbol) {args : List Expr} (hargs : ∀ arg ∈ args, arg.FromSource)
    (hlength : params.length = args.length)
    (hok : (resolveArguments chain name position params args).2 = .ok ()) :
    ArgumentsFit visible params (resolveArguments chain name position params args).1 := by
  induction args generalizing position params with
  | nil =>
      obtain rfl := List.eq_nil_of_length_eq_zero hlength
      exact .nil
  | cons arg args ih =>
      cases params with
      | nil => contradiction
      | cons param params =>
          obtain ⟨harg, hrest⟩ := List.forall_mem_cons.mp hargs
          simp only [resolveArguments] at hok ⊢
          split at hok
          next => contradiction
          next kind hkind =>
            split at hok
            next hassignable =>
              rw [if_pos hassignable]
              exact .cons (Expr.resolve_hasKind hchain harg hkind) hassignable
                (ih (position + 1) params hrest (by simpa using hlength) hok)
            next => contradiction

/-- A call fails at its name, at the number of its arguments or in one of them, or is annotated. -/
theorem Call.resolve_cases (hchain : Represents chain visible) {c : Call}
    (hname : IsIdentifier c.name) :
    (∃ q, visible.denote (canonicalName c.name) = some (.procedure q) ∧
        q.params.length = c.args.length ∧
        let args := resolveArguments chain c.name 1 q.params c.args
        (args.2 = .ok () ∧
            c.resolve chain = ({ c with args := args.1, symbol := some q }, .ok ())) ∨
          ∃ e, args.2 = .error e ∧ c.resolve chain = ({ c with args := args.1 }, .error e)) ∨
      (∃ q, visible.denote (canonicalName c.name) = some (.procedure q) ∧
        q.params.length ≠ c.args.length ∧
        c.resolve chain =
          (c, .error ⟨.argumentCount c.name q.params.length c.args.length, c.span⟩)) ∨
      (∀ q, visible.denote (canonicalName c.name) ≠ some (.procedure q)) ∧
        c.resolve chain = (c, .error ⟨.unknownProcedure c.name, c.span⟩) := by
  rw [Call.resolve, hchain.lookup_identifier hname]
  split
  next q hdenote =>
    by_cases hlength : q.params.length = c.args.length
    · refine .inl ⟨q, hdenote, hlength, ?_⟩
      simp only [if_pos hlength]
      split
      next hargs => exact .inl ⟨hargs, rfl⟩
      next e hargs => exact .inr ⟨e, hargs, rfl⟩
    · exact .inr (.inl ⟨q, hdenote, hlength, by rw [if_neg hlength]⟩)
  next hdenote => exact .inr (.inr ⟨hdenote, rfl⟩)

theorem Call.resolve_annotatedIn (hchain : Represents chain visible) {c : Call}
    (hc : c.FromSource) : (c.resolve chain).1.AnnotatedIn visible := by
  have hsource := hc.annotatedIn visible
  rcases Call.resolve_cases hchain hc.name with
    ⟨q, hdenote, -, ⟨-, heq⟩ | ⟨e, -, heq⟩⟩ | ⟨q, -, -, heq⟩ | ⟨-, heq⟩
  · rw [heq]
    refine ⟨fun q' hq' => ?_, resolveArguments_annotatedIn hchain _ _ _ hc.args⟩
    simp only [Option.some.injEq] at hq'
    exact hq' ▸ hdenote
  · rw [heq]
    exact ⟨hsource.symbol, resolveArguments_annotatedIn hchain _ _ _ hc.args⟩
  · rw [heq]
    exact hsource
  · rw [heq]
    exact hsource

theorem Call.resolve_fits (hchain : Represents chain visible) {c : Call} (hc : c.FromSource)
    (hok : (c.resolve chain).2 = .ok ()) : ∃ q, (c.resolve chain).1.Fits visible q := by
  rcases Call.resolve_cases hchain hc.name with
    ⟨q, hdenote, hlength, ⟨hargs, heq⟩ | ⟨e, -, heq⟩⟩ | ⟨q, -, -, heq⟩ | ⟨-, heq⟩
  · rw [heq]
    exact ⟨q, rfl, hdenote, resolveArguments_fit hchain _ _ _ hc.args hlength hargs⟩
  all_goals
    rw [heq] at hok
    contradiction

mutual

theorem Statement.resolve_annotatedIn (hchain : Represents chain visible) :
    (s : Statement) → s.FromSource → (s.resolve chain).1.AnnotatedIn visible
  | .compound _ children, hs => resolveStatements_annotatedIn hchain children hs
  | .assignment _ target value, hs => by
    have hvalue := Expr.resolve_annotatedIn hchain hs.2
    simp only [Statement.resolve]
    split
    next => exact ⟨hs.1.annotatedIn visible, hvalue⟩
    next => exact ⟨VariableRef.resolve_annotatedIn hchain hs.1, hvalue⟩
  | .call c, hs => Call.resolve_annotatedIn hchain hs

theorem resolveStatements_annotatedIn (hchain : Represents chain visible) :
    (ss : List Statement) → statementsFromSource ss →
      statementsAnnotatedIn visible (resolveStatements chain ss).1
  | [], _ => trivial
  | s :: rest, hs => by
    have hfirst := Statement.resolve_annotatedIn hchain s hs.1
    simp only [resolveStatements]
    split
    next => exact ⟨hfirst, statementsAnnotatedIn_of_fromSource visible rest hs.2⟩
    next => exact ⟨hfirst, resolveStatements_annotatedIn hchain rest hs.2⟩

end

mutual

theorem Statement.resolve_fits (hchain : Represents chain visible) :
    (s : Statement) → s.FromSource → (s.resolve chain).2 = .ok () →
      (s.resolve chain).1.Fits visible
  | .compound _ children, hs, hok => resolveStatements_fit hchain children hs hok
  | .assignment span target value, hs, hok => by
    simp only [Statement.resolve] at hok ⊢
    cases hkind : (value.resolve chain).2 with
    | error e =>
        simp only [hkind] at hok
        contradiction
    | ok kind =>
        cases htarget : (target.resolve chain).2 with
        | error e =>
            simp only [hkind, htarget] at hok
            contradiction
        | ok v =>
            simp only [hkind, htarget] at hok ⊢
            change (if kind.assignable v.kind then .ok ()
              else .error ⟨.assignment target.name v.kind kind, span⟩ :
                Except SemanticError Unit) = .ok () at hok
            split at hok
            next hassignable =>
              exact ⟨v, kind, VariableRef.resolve_denotes hchain hs.1 htarget,
                Expr.resolve_hasKind hchain hs.2 hkind, hassignable⟩
            next => contradiction
  | .call c, hs, hok => Call.resolve_fits hchain hs hok

theorem resolveStatements_fit (hchain : Represents chain visible) :
    (ss : List Statement) → statementsFromSource ss → (resolveStatements chain ss).2 = .ok () →
      statementsFit visible (resolveStatements chain ss).1
  | [], _, _ => trivial
  | s :: rest, hs, hok => by
    simp only [resolveStatements] at hok ⊢
    cases hfirst : (s.resolve chain).2 with
    | error e =>
        simp only [hfirst] at hok
        contradiction
    | ok _ =>
        simp only [hfirst] at hok ⊢
        exact ⟨Statement.resolve_fits hchain s hs.1 hfirst,
          resolveStatements_fit hchain rest hs.2 hok⟩

end

end

end NestedPascal
