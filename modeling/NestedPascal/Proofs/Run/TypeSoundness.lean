import NestedPascal.Proofs.Run.TypedEvaluation

/-!
# Type soundness

A run of an accepted program keeps in every frame values of the declared kinds only, evaluates every
expression to the kind that was inferred for it, and fails, if it does, for one of five reasons.
-/

namespace NestedPascal

namespace CallStack.TypedIn

variable {stack : CallStack (Frame Nat)} {p : Program} {declarations : List DeclarationPath}

theorem set (h : stack.TypedIn p declarations) {k : Nat} {d : DeclarationPath} {s : LexicalScope}
    (hd : declarations[k]? = some d) (hs : p.scope? d = some s) {v : VariableSymbol}
    (hv : v ∈ s.locals) {value : Value} (hkind : value.kind = v.kind) (hrange : value.InRange) :
    (stack.set k v.name value).TypedIn p declarations := by
  intro i g e t hg he ht
  obtain ⟨f, hf, ⟨rfl, rfl⟩ | ⟨-, rfl⟩⟩ := CallStack.frame_of_set hg
  · rw [hd, Option.some.injEq] at he
    subst e
    rw [hs, Option.some.injEq] at ht
    subst t
    exact (h i f d s hf hd hs).set hv hkind hrange
  · exact h i g e t hf he ht

theorem push (h : stack.TypedIn p declarations) (hdepth : stack.depth = declarations.length)
    {f : Frame Nat} {d : DeclarationPath}
    (hf : ∀ s, p.scope? d = some s → f.members.TypedFor s.locals) :
    (stack.push f).TypedIn p (declarations ++ [d]) := by
  intro i g e t hg he ht
  rcases CallStack.frame_of_push hdepth hg he with ⟨-, rfl, rfl⟩ | ⟨hg, he⟩
  · exact hf t ht
  · exact h i g e t hg he ht

theorem pop {d : DeclarationPath} (h : stack.TypedIn p (declarations ++ [d])) :
    stack.pop.TypedIn p declarations := by
  intro i f e t hf he ht
  obtain ⟨hf, he⟩ := CallStack.frame_of_pop hf he d
  exact h i f e t hf he ht

end CallStack.TypedIn

section

variable {p : Program} {declarations : List DeclarationPath} {path : DeclarationPath}
  {s : LexicalScope} {m m' : Machine}

theorem Machine.assign_typed (hp : p.Resolved) (hlinked : m.stack.Linked (declarations ++ [path]))
    (htyped : m.stack.TypedIn p (declarations ++ [path])) (hs : p.scope? path = some s) (span : Span)
    {target : VariableRef} {value : Expr}
    (hfits : (Statement.assignment span target value).Fits s.visible)
    (hassign : m.assign target value = .ok m') : m'.stack.TypedIn p (declarations ++ [path]) := by
  obtain ⟨v, kind, htarget, hvalue, hassignable⟩ := hfits
  obtain ⟨w, symbol, place, hw, hlocate, rfl⟩ := Machine.assign_eq_ok hassign
  obtain ⟨hsymbol, hplace⟩ := VariableRef.locate_eq_ok_iff.mp hlocate
  rw [htarget.symbol, Option.some.injEq] at hsymbol
  subst symbol
  obtain ⟨hkind, hrange⟩ := hvalue.eval_eq_ok (hlinked.serves hp hs htyped) hw
  rw [← hkind] at hassignable
  obtain ⟨hwiden, hwidened⟩ := Value.widen_of_assignable hrange hassignable
  obtain ⟨above, t, k, -, ht, hlocal, hk, -, habove, -⟩ :=
    hlinked.holder_of_variable hs htarget.denote
  rw [hplace, Option.some.injEq] at hk
  subst k
  exact htyped.set habove ht hlocal hwiden hwidened

theorem Call.enter_typed (hp : p.Resolved) (hlinked : m.stack.Linked (declarations ++ [path]))
    (htyped : m.stack.TypedIn p (declarations ++ [path])) (hs : p.scope? path = some s) {c : Call}
    (hfits : (Statement.call c).Fits s.visible) {limit : DepthLimit} {entered : Activation}
    (henter : c.enter p.block limit m = .ok (m', entered)) :
    (∀ t, p.scope? entered.declaration = some t → statementsFit t.visible entered.todo) ∧
      m'.stack.TypedIn p (declarations ++ [path] ++ [entered.declaration]) := by
  obtain ⟨q, hc⟩ := hfits
  obtain ⟨q', k, members, hsymbol, -, -, hmembers, hstack, rfl⟩ := Call.enter_eq_ok henter
  rw [hc.symbol, Option.some.injEq] at hsymbol
  subst q'
  obtain ⟨-, -, -, t, -, -, -, ht, hparams⟩ := Program.procedure_of_denote hs hc.denote
  constructor
  · intro t' ht'
    rw [Program.body_of_scope? ht']
    exact (hp _ t' ht').fit
  · rw [hstack]
    apply htyped.push hlinked.depth
    intro t' ht'
    rw [ht, Option.some.injEq] at ht'
    subst t'
    apply hc.args.bind_eq_ok (hlinked.serves hp hs htyped) ?_ (.empty t.locals) hmembers
    intro param hparam
    rw [hparams] at hparam
    exact List.mem_append_left _ hparam

end

namespace Configuration

variable {p : Program} {limit : DepthLimit} {c c' : Configuration}

/-- Everything still to do fits, and every frame keeps values of the declared kinds. -/
structure WellTyped (p : Program) (c : Configuration) : Prop where
  consistent : c.Consistent p
  fit : ∀ a ∈ c.activations, ∀ s, p.scope? a.declaration = some s → statementsFit s.visible a.todo
  typed : c.machine.stack.TypedIn p c.declarations

theorem WellTyped.start (hannotated : p.Annotated) (hp : p.Resolved) : p.start.WellTyped p := by
  refine ⟨.start hannotated, ?_, ?_⟩
  · intro a ha s hs
    simp only [Program.start, List.mem_singleton] at ha
    subst a
    cases hs
    exact (hp [] p.globalScope rfl).fit
  · have hempty : CallStack.empty.TypedIn p [] := by
      intro i f d s hf hd hs
      contradiction
    exact hempty.push rfl fun s _ => .empty s.locals

theorem WellTyped.serves (hp : p.Resolved) {m : Machine} {a : Activation} {below : List Activation}
    (h : WellTyped p ⟨m, a :: below⟩) {s : LexicalScope} (hs : p.scope? a.declaration = some s) :
    m.stack.Serves s.visible := by
  have hlinked := h.consistent.linked
  have htyped := h.typed
  rw [declarations_cons] at hlinked htyped
  exact hlinked.serves hp hs htyped

theorem WellTyped.step (hannotated : p.Annotated) (hp : p.Resolved) (h : c.WellTyped p)
    (hstep : Step p.block limit c c') : c'.WellTyped p := by
  have hconsistent := h.consistent.step hannotated hstep
  cases hstep with
  | @leave m declaration name span below =>
      have htyped := h.typed
      rw [declarations_cons] at htyped
      exact ⟨hconsistent, (List.forall_mem_cons.mp h.fit).2, htyped.pop⟩
  | @compound m declaration call span children rest below =>
      obtain ⟨hfirst, hbelow⟩ := List.forall_mem_cons.mp h.fit
      refine ⟨hconsistent, List.forall_mem_cons.mpr ⟨?_, hbelow⟩, h.typed⟩
      intro s hs
      exact statementsFit_append.mpr (hfirst s hs)
  | @assignment m m' declaration call span target value rest below hassign =>
      obtain ⟨hfirst, hbelow⟩ := List.forall_mem_cons.mp h.fit
      obtain ⟨⟨s, hs, -⟩, -⟩ := List.forall_mem_cons.mp h.consistent.inScope
      have hlinked := h.consistent.linked
      have htyped := h.typed
      rw [declarations_cons] at hlinked htyped
      refine ⟨hconsistent, List.forall_mem_cons.mpr ⟨fun t ht => (hfirst t ht).2, hbelow⟩, ?_⟩
      rw [declarations_cons]
      exact Machine.assign_typed hp hlinked htyped hs span (hfirst s hs).1 hassign
  | @call m m' declaration call callee entered rest below henter =>
      obtain ⟨hfirst, hbelow⟩ := List.forall_mem_cons.mp h.fit
      obtain ⟨⟨s, hs, -⟩, -⟩ := List.forall_mem_cons.mp h.consistent.inScope
      have hlinked := h.consistent.linked
      have htyped := h.typed
      rw [declarations_cons] at hlinked htyped
      obtain ⟨hbody, hentered⟩ :=
        Call.enter_typed hp hlinked htyped hs (hfirst s hs).1 henter
      refine ⟨hconsistent, List.forall_mem_cons.mpr ⟨hbody,
        List.forall_mem_cons.mpr ⟨fun t ht => (hfirst t ht).2, hbelow⟩⟩, ?_⟩
      rw [declarations_cons, declarations_cons]
      exact hentered

theorem wellTyped_of_reaches (hannotated : p.Annotated) (hp : p.Resolved)
    (hc : p.Reaches limit c) : c.WellTyped p := by
  induction hc with
  | refl => exact .start hannotated hp
  | tail _ hstep ih => exact ih.step hannotated hp (step_of_eq_next hstep)

theorem WellTyped.expected (hp : p.Resolved) (h : c.WellTyped p) {e : EvaluationError}
    (hfailed : c.step p.block limit = .failed e) : e.cause.Expected limit := by
  obtain ⟨m, activations⟩ := c
  obtain ⟨declaration, call, rest, below,
    ⟨span, target, value, heq, herror⟩ | ⟨callee, heq, henter⟩⟩ := eq_of_step_failed hfailed
  · simp only at heq
    subst activations
    obtain ⟨⟨s, hs, -⟩, -⟩ := List.forall_mem_cons.mp h.consistent.inScope
    have hserves := h.serves hp hs
    obtain ⟨⟨v, kind, htarget, hvalue, -⟩, -⟩ := (List.forall_mem_cons.mp h.fit).1 s hs
    rcases herror with hvalueError | hlocate
    · exact hvalue.eval_eq_error hserves hvalueError
    · obtain ⟨k, -, hk, -⟩ := hserves _ v htarget.denote
      have hlocated := VariableRef.locate_eq_ok_iff.mpr ⟨htarget.symbol, hk⟩
      rw [hlocated] at hlocate
      contradiction
  · simp only at heq
    subst activations
    obtain ⟨⟨s, hs, -⟩, -⟩ := List.forall_mem_cons.mp h.consistent.inScope
    have hserves := h.serves hp hs
    obtain ⟨⟨q, hcallee⟩, -⟩ := (List.forall_mem_cons.mp h.fit).1 s hs
    rcases Call.enter_eq_error henter with ⟨hnone, -⟩ | ⟨q', hsymbol, rfl | hframe⟩
    · rw [hcallee.symbol] at hnone
      contradiction
    · exact .depthLimit callee.name q'.name
    · rw [hcallee.symbol, Option.some.injEq] at hsymbol
      subst q'
      have hlinked := h.consistent.linked
      rw [declarations_cons] at hlinked
      obtain ⟨-, -, -, k, -, -, -, -, hk, -⟩ := hlinked.holder_of_procedure hs hcallee.denote
      rcases Call.frame_eq_error hframe with ⟨hnone, -⟩ | hbind
      · rw [hk] at hnone
        contradiction
      · exact hcallee.args.bind_eq_error hserves hbind

/-- What kinds promise of a state of a run of a program. -/
structure TypeSafe (p : Program) (c : Configuration) : Prop where
  /-- Every member of a frame has the name and the kind of a parameter or variable that is declared
  in the scope that the frame runs. -/
  members : ∀ (i : Nat) f, c.machine.stack.frames[i]? = some f →
    ∃ d s, c.declarations[i]? = some d ∧ p.scope? d = some s ∧
      ∀ name v, (name, v) ∈ f.members.entries →
        (∃ declared, (declared ∈ s.params ∨ .variable declared ∈ s.block.declarations) ∧
          name = canonicalName declared.name ∧ v.kind = declared.kind) ∧
        (v.kind = .integer →
          ∃ n, v.number.toInt? = some n ∧ InIntegerRange n ∧ v.number ≠ .zero true)
  /-- Whatever is evaluated next is of the kind that was inferred for it when the statements of the
  scope were resolved. -/
  evaluated : ∀ a below, c.activations = a :: below →
    ∃ s chain raw, p.scope? a.declaration = some s ∧
      resolveStatements chain raw = (s.block.body, .ok ()) ∧
      ∀ st ∈ simpleStatements a.todo, ∀ x ∈ st.expressions, ∀ e ∈ x.subterms,
        ∃ kind, e.resolve chain = (e, .ok kind) ∧
          ∀ v, e.eval c.machine.stack = .ok v → v.kind = kind

theorem WellTyped.typeSafe (hp : p.Resolved) (h : c.WellTyped p) : c.TypeSafe p := by
  obtain ⟨m, activations⟩ := c
  refine ⟨?_, ?_⟩
  · intro i f hf
    obtain ⟨d, hd, -⟩ := h.consistent.linked.exists_declaration hf
    have hmem : d ∈ (Configuration.mk m activations).declarations := List.mem_of_getElem? hd
    rw [declarations, List.mem_reverse, List.mem_map] at hmem
    obtain ⟨a, ha, rfl⟩ := hmem
    obtain ⟨s, hs, -⟩ := h.consistent.inScope a ha
    refine ⟨a.declaration, s, hd, hs, ?_⟩
    intro name v hv
    obtain ⟨w, hw, rfl, hkind, hrange⟩ := h.typed i f a.declaration s hf hd hs name v hv
    obtain ⟨declared, hdeclared, rfl⟩ := LexicalScope.exists_declared_of_mem_locals hw
    exact ⟨⟨declared, hdeclared, rfl, hkind⟩, hrange.integer⟩
  · intro a below heq
    simp only at heq
    subst activations
    obtain ⟨⟨s, hs, -⟩, -⟩ := List.forall_mem_cons.mp h.consistent.inScope
    obtain ⟨chain, raw, hchain, -, hresolved⟩ := hp _ s hs
    refine ⟨s, chain, raw, hs, hresolved, ?_⟩
    intro st hst x hx e he
    have hfit := (List.forall_mem_cons.mp h.fit).1 s hs
    obtain ⟨outer, hx⟩ := statementsFit_hasKind a.todo hfit st hst x hx
    obtain ⟨kind, hkind⟩ := hx.of_mem_subterms he
    refine ⟨kind, hkind.resolve hchain, ?_⟩
    intro v hv
    exact (hkind.eval_eq_ok (h.serves hp hs) hv).1

end Configuration

namespace Program

variable {p : Program}

/-- An accepted program runs type safely: kinds are kept in every state, and the run either succeeds
or fails for one of the reasons that analysis does not exclude. -/
theorem type_soundness {source : List Char} {file : String} {detailed : Bool}
    (hparse : parse source file detailed = .ok p)
    (haccepted : ∃ scopes, p.analyze.scopes = .ok scopes) (limit : DepthLimit) :
    (∀ e, (p.analyze.program.run limit).error = some e → e.cause.Expected limit) ∧
      ∀ c, p.analyze.program.Reaches limit c → c.TypeSafe p.analyze.program := by
  have hsource := fromSource_of_parse hparse
  have hannotated := annotated_of_analyze hsource
  have hresolved := resolved_of_analyze hsource haccepted
  constructor
  · intro e he
    obtain ⟨c, hc, -, -, -, hend⟩ := run_reaches p.analyze.program limit
    rw [he] at hend
    exact (Configuration.wellTyped_of_reaches hannotated hresolved hc).expected hresolved hend
  · intro c hc
    exact (Configuration.wellTyped_of_reaches hannotated hresolved hc).typeSafe hresolved

/-- An INTEGER becomes a REAL on its way into a procedure, which then divides by zero. -/
theorem type_soundness_of_division :
    ∃ p, parse "program p; procedure q(x : real); begin x := x / 0.0 end; begin q(2) end.".toList
        "p.pas" false = .ok p ∧
      (∃ e, (p.analyze.program.run (.ofInt 5)).error = some e ∧ e.cause.Expected (.ofInt 5)) ∧
      ∃ c, p.analyze.program.Reaches (.ofInt 5) c ∧ c.machine.stack.depth = 2 ∧
        c.TypeSafe p.analyze.program := by
  have hfails : (parse "program p; procedure q(x : real); begin x := x / 0.0 end; begin q(2) end.".toList
      "p.pas" false).toOption.any (fun p => p.analyze.scopes.isOk &&
        (p.analyze.program.run (.ofInt 5)).error.isSome &&
        (p.analyze.program.run (.ofInt 5)).stack.depth = 2) = true := by decide +kernel
  obtain ⟨p, hp, htest⟩ := parse_of_any hfails
  simp only [Bool.and_eq_true, decide_eq_true_eq] at htest
  obtain ⟨⟨hok, herror⟩, hdepth⟩ := htest
  obtain ⟨hexpected, hsafe⟩ := type_soundness hp (exists_scopes_of_isOk hok) (.ofInt 5)
  obtain ⟨e, he⟩ := Option.isSome_iff_exists.mp herror
  obtain ⟨c, hc, -, hstack, -⟩ := run_reaches p.analyze.program (.ofInt 5)
  refine ⟨p, hp, ⟨e, he, hexpected e he⟩, c, hc, ?_, hsafe c hc⟩
  rw [← hstack]
  exact hdepth

end Program

end NestedPascal
