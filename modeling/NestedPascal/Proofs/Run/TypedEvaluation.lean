import NestedPascal.Proofs.Register
import NestedPascal.Proofs.Run.StaticLinks
import NestedPascal.Proofs.Scope.Inference

/-!
# Evaluation with the inferred kinds

Where every member of every frame is a value of its variable's kind, an expression evaluates to a
value of the kind inferred for it, or fails for a reason that no kind could rule out.
-/

namespace NestedPascal

/-- The reasons for which a run of an accepted program may fail. -/
inductive EvaluationCause.Expected (limit : DepthLimit) : EvaluationCause → Prop where
  | integerOverflow (number) : Expected limit (.range (.integerOverflow number))
  | invalidReal (number) : Expected limit (.range (.invalidReal number))
  | divisionByZero : Expected limit .divisionByZero
  | unassigned (name) : Expected limit (.unassigned name)
  | depthLimit (call procedure) : Expected limit (.depthLimit limit call procedure)

theorem EvaluationCause.expected_range (limit : DepthLimit) (range : Value.RangeError) :
    Expected limit (.range range) := by
  cases range with
  | integerOverflow number => exact .integerOverflow number
  | invalidReal number => exact .invalidReal number

/-! ## Members of frames -/

namespace Register

variable {members : Register String Value} {name : String} {value : Value}

/-- Every member is a value of the variable it is a member for. -/
def TypedFor (members : Register String Value) (locals : List VariableSymbol) : Prop :=
  ∀ name value, (name, value) ∈ members.entries →
    ∃ v ∈ locals, v.name = name ∧ value.kind = v.kind ∧ value.InRange

theorem TypedFor.empty (locals : List VariableSymbol) :
    (empty : Register String Value).TypedFor locals := by
  intro name value h
  contradiction

theorem TypedFor.set {locals : List VariableSymbol} (h : members.TypedFor locals)
    {v : VariableSymbol} (hv : v ∈ locals) (hkind : value.kind = v.kind) (hrange : value.InRange) :
    (members.set v.name value).TypedFor locals := by
  intro name' value' hmem
  rcases mem_replace hmem with heq | hmem
  · cases heq
    exact ⟨v, hv, rfl, hkind, hrange⟩
  · exact h name' value' hmem

end Register

/-- The frames keep values of the variables of the scopes that they run. -/
def CallStack.TypedIn (stack : CallStack (Frame Nat)) (p : Program)
    (declarations : List DeclarationPath) : Prop :=
  ∀ (i : Nat) f d s, stack.frames[i]? = some f → declarations[i]? = some d → p.scope? d = some s →
    f.members.TypedFor s.locals

/-- The frame of a visible variable is found, and what it keeps for it is of the variable's kind. -/
def CallStack.Serves (stack : CallStack (Frame Nat)) (visible : Visible) : Prop :=
  ∀ name v, visible.denote name = some (.variable v) →
    ∃ k f, stack.holder? v.level = some k ∧ stack.frames[k]? = some f ∧
      ∀ value, f.get? v.name = some value → value.kind = v.kind ∧ value.InRange

theorem LexicalScope.Resolved.local_eq {s : LexicalScope} (h : s.Resolved) {v w : VariableSymbol}
    (hv : v ∈ s.locals) (hw : w ∈ s.locals) (hname : v.name = w.name) : v = w := by
  have hsymbols : ScopeSymbol.variable v = .variable w :=
    List.inj_on_of_nodup_map h.nodup (LexicalScope.variable_mem_offered.mpr hv)
      (LexicalScope.variable_mem_offered.mpr hw) hname
  cases hsymbols
  rfl

theorem CallStack.Linked.serves {stack : CallStack (Frame Nat)}
    {declarations : List DeclarationPath} {p : Program} (hp : p.Resolved) {path : DeclarationPath}
    {s : LexicalScope} (h : stack.Linked (declarations ++ [path])) (hs : p.scope? path = some s)
    (htyped : stack.TypedIn p (declarations ++ [path])) : stack.Serves s.visible := by
  intro name v hdenote
  obtain ⟨above, t, k, -, ht, hlocal, hk, -, habove, -⟩ := h.holder_of_variable hs hdenote
  obtain ⟨f, hf, -⟩ := h.exists_frame habove
  refine ⟨k, f, hk, hf, ?_⟩
  intro value hvalue
  obtain ⟨w, hw, hname, hkind, hrange⟩ :=
    htyped k f above t hf habove ht v.name value (Register.mem_of_get? hvalue)
  rw [(hp above t ht).local_eq hw hlocal hname] at hkind
  exact ⟨hkind, hrange⟩

/-! ## Expressions and arguments -/

section

variable {stack : CallStack (Frame Nat)} {visible : Visible} {limit : DepthLimit}
  {err : EvaluationError}

theorem VariableRef.Denotes.eval_eq_ok (hstack : stack.Serves visible) {r : VariableRef}
    {v : VariableSymbol} (hr : r.Denotes visible v) {value : Value}
    (h : r.eval stack = .ok value) : value.kind = v.kind ∧ value.InRange := by
  obtain ⟨k, f, hk, hf, hslot⟩ := hstack _ v hr.denote
  rw [VariableRef.eval_eq hr.symbol hk, hf, Option.bind_some] at h
  split at h
  next found hfound =>
    cases h
    exact hslot _ hfound
  next => contradiction

theorem VariableRef.Denotes.eval_eq_error (hstack : stack.Serves visible) {r : VariableRef}
    {v : VariableSymbol} (hr : r.Denotes visible v) (h : r.eval stack = .error err) :
    err.cause.Expected limit := by
  obtain ⟨k, f, hk, hf, -⟩ := hstack _ v hr.denote
  rw [VariableRef.eval_eq hr.symbol hk, hf, Option.bind_some] at h
  split at h
  next => contradiction
  next =>
    cases h
    exact .unassigned r.name

theorem Expr.HasKind.eval_eq_ok (hstack : stack.Serves visible) {e : Expr} {kind : Kind}
    (he : e.HasKind visible kind) {v : Value} (h : e.eval stack = .ok v) :
    v.kind = kind ∧ v.InRange := by
  induction he generalizing v with
  | literal hrange =>
      cases h
      exact ⟨rfl, hrange⟩
  | «variable» hr => exact hr.eval_eq_ok hstack h
  | unary _ ih =>
      obtain ⟨w, hw, hsign⟩ := Expr.eval_unary_eq_ok h
      obtain ⟨hkind, hrange⟩ := ih hw
      obtain ⟨hsame, hvalue⟩ := Value.sign_apply_eq_ok hrange hsign
      exact ⟨hsame.trans hkind, hvalue⟩
  | binary _ _ _ ihl _ =>
      obtain ⟨l, r, hl, -, hop⟩ := Expr.eval_binary_eq_ok h
      obtain ⟨hsame, hvalue⟩ := Value.operator_apply_eq_ok hop
      exact ⟨hsame.trans (ihl hl).1, hvalue⟩

theorem Expr.HasKind.eval_eq_error (hstack : stack.Serves visible) {e : Expr} {kind : Kind}
    (he : e.HasKind visible kind) (h : e.eval stack = .error err) : err.cause.Expected limit := by
  induction he with
  | literal => contradiction
  | «variable» hr => exact hr.eval_eq_error hstack h
  | unary _ ih =>
      rcases Expr.eval_unary_eq_error h with hoperand | ⟨v, cause, -, hsign, rfl⟩
      · exact ih hoperand
      · obtain ⟨range, rfl⟩ := Sign.apply_eq_error hsign
        exact EvaluationCause.expected_range limit range
  | binary hleft hright hdefined ihl ihr =>
      rcases Expr.eval_binary_eq_error h with hl | hr | ⟨l, r, cause, hl, hr, hop, rfl⟩
      · exact ihl hl
      · exact ihr hr
      · have hleftKind := (hleft.eval_eq_ok hstack hl).1
        have hrightKind := (hright.eval_eq_ok hstack hr).1
        rcases BinaryOperator.apply_eq_error hop with
          ⟨range, rfl⟩ | rfl | ⟨hundefined, -⟩ | ⟨hmixed, -⟩
        · exact EvaluationCause.expected_range limit range
        · exact .divisionByZero
        · rw [hleftKind, hdefined] at hundefined
          contradiction
        · exact absurd (hleftKind.trans hrightKind.symm) hmixed

theorem ArgumentsFit.bind_eq_ok (hstack : stack.Serves visible) {params : List VariableSymbol}
    {args : List Expr} (hargs : ArgumentsFit visible params args) {locals : List VariableSymbol}
    (hlocals : ∀ param ∈ params, param ∈ locals) {c : Call}
    {members members' : Register String Value}
    (hmembers : members.TypedFor locals)
    (h : bindArguments stack c members params args = .ok members') : members'.TypedFor locals := by
  induction hargs generalizing members with
  | nil =>
      cases h
      exact hmembers
  | @cons param params arg args kind harg hassignable _ ih =>
      obtain ⟨hparam, hparams⟩ := List.forall_mem_cons.mp hlocals
      rw [bindArguments] at h
      obtain ⟨v, hv, hrest⟩ := bind_eq_ok_iff.mp h
      obtain ⟨hkind, hrange⟩ := harg.eval_eq_ok hstack hv
      rw [← hkind] at hassignable
      obtain ⟨hwiden, hwidened⟩ := Value.widen_of_assignable hrange hassignable
      exact ih hparams (hmembers.set hparam hwiden hwidened) hrest

theorem ArgumentsFit.bind_eq_error (hstack : stack.Serves visible) {params : List VariableSymbol}
    {args : List Expr} (hargs : ArgumentsFit visible params args) {c : Call}
    {members : Register String Value}
    (h : bindArguments stack c members params args = .error err) : err.cause.Expected limit := by
  induction hargs generalizing members with
  | nil => contradiction
  | cons harg _ _ ih =>
      rw [bindArguments] at h
      rcases bind_eq_error_iff.mp h with hfailed | ⟨v, -, hrest⟩
      · exact harg.eval_eq_error hstack hfailed
      · exact ih hrest

end

end NestedPascal
