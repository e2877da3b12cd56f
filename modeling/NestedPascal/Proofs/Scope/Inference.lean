import NestedPascal.Proofs.Scope.Annotation
import NestedPascal.Proofs.Scope.WellFormed

/-!
# Inferred kinds

A tree that resolution went through is left as it is when it is resolved again, and the kind that is
inferred for it is the one it has.  So have the expressions in it and those inside them.
-/

namespace NestedPascal

variable {visible : Visible}

theorem VariableRef.Denotes.resolve {r : VariableRef} {v : VariableSymbol}
    (h : r.Denotes visible v) {chain : ScopeChain} (hchain : Represents chain visible) :
    r.resolve chain = (r, .ok v) := by
  rcases VariableRef.resolve_eq hchain h.name with ⟨w, hdenote, heq⟩ | ⟨hdenote, -⟩
  · rw [h.denote, Option.some.injEq, ScopeSymbol.variable.injEq] at hdenote
    subst w
    rw [heq, ← h.symbol]
  · exact absurd h.denote (hdenote v)

theorem Expr.HasKind.resolve {e : Expr} {kind : Kind} (h : e.HasKind visible kind)
    {chain : ScopeChain} (hchain : Represents chain visible) : e.resolve chain = (e, .ok kind) := by
  induction h with
  | literal => rfl
  | «variable» hr =>
      rw [Expr.resolve, hr.resolve hchain]
      rfl
  | unary _ ih =>
      rw [Expr.resolve, ih]
  | @binary span op left right kind _ _ hdefined ihl ihr =>
      have hcheck : op.check span kind kind = .ok kind := by
        rw [BinaryOperator.check, if_neg (not_not.mpr rfl), if_pos hdefined]
      rw [Expr.resolve, ihl, ihr]
      change (Expr.binary span op left right, op.check span kind kind) = _
      rw [hcheck]

theorem Expr.HasKind.of_mem_subterms {e x : Expr} {kind : Kind} (h : e.HasKind visible kind)
    (hx : x ∈ e.subterms) : ∃ inner, x.HasKind visible inner := by
  induction h with
  | @literal span value hrange =>
      rw [Expr.subterms, List.mem_singleton] at hx
      exact ⟨value.kind, hx ▸ .literal hrange⟩
  | @«variable» r v hr =>
      rw [Expr.subterms, List.mem_singleton] at hx
      exact ⟨v.kind, hx ▸ .variable hr⟩
  | @unary span sign operand kind hoperand ih =>
      rw [Expr.subterms, List.mem_cons] at hx
      rcases hx with rfl | hx
      · exact ⟨kind, .unary hoperand⟩
      · exact ih hx
  | @binary span op left right kind hleft hright hdefined ihl ihr =>
      rw [Expr.subterms, List.mem_cons, List.mem_append] at hx
      rcases hx with rfl | hx | hx
      · exact ⟨kind, .binary hleft hright hdefined⟩
      · exact ihl hx
      · exact ihr hx

theorem ArgumentsFit.length_eq {params : List VariableSymbol} {args : List Expr}
    (hargs : ArgumentsFit visible params args) : params.length = args.length := by
  induction hargs with
  | nil => rfl
  | cons _ _ _ ih => rw [List.length_cons, List.length_cons, ih]

theorem ArgumentsFit.hasKind {params : List VariableSymbol} {args : List Expr}
    (h : ArgumentsFit visible params args) {arg : Expr} (harg : arg ∈ args) :
    ∃ kind, arg.HasKind visible kind := by
  induction h with
  | nil => contradiction
  | @cons param params first args kind hfirst hassignable _ ih =>
      rcases List.mem_cons.mp harg with rfl | hrest
      · exact ⟨kind, hfirst⟩
      · exact ih hrest

mutual

theorem Statement.Fits.simple :
    (s : Statement) → s.Fits visible → ∀ st ∈ s.simple, st.Fits visible
  | .compound _ children, h => by
    rw [Statement.simple]
    exact statementsFit_simple children h
  | .assignment .., h => by
    rw [Statement.simple]
    exact List.forall_mem_singleton.mpr h
  | .call _, h => by
    rw [Statement.simple]
    exact List.forall_mem_singleton.mpr h

theorem statementsFit_simple :
    (ss : List Statement) → statementsFit visible ss → ∀ st ∈ simpleStatements ss, st.Fits visible
  | [], _ => by simp [simpleStatements]
  | s :: rest, h => by
    rw [simpleStatements, List.forall_mem_append]
    exact ⟨Statement.Fits.simple s h.1, statementsFit_simple rest h.2⟩

end

theorem statementsFit_hasKind (ss : List Statement) (h : statementsFit visible ss) :
    ∀ st ∈ simpleStatements ss, ∀ e ∈ st.expressions, ∃ kind, e.HasKind visible kind := by
  intro st hst e he
  have hfits := statementsFit_simple ss h st hst
  cases st with
  | compound span children => simp [Statement.expressions] at he
  | assignment span target value =>
      obtain ⟨v, kind, -, hvalue, -⟩ := hfits
      rw [Statement.expressions, List.mem_singleton] at he
      exact ⟨kind, he ▸ hvalue⟩
  | call c =>
      obtain ⟨q, hq⟩ := hfits
      exact hq.args.hasKind he

end NestedPascal
