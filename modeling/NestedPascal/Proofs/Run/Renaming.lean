import NestedPascal.Proofs.Run.Events
import NestedPascal.Proofs.Run.RenamedStack
import NestedPascal.Proofs.Run.TypeSoundness
import NestedPascal.Proofs.Tree.Relabelling

/-!
# Runs of renamed programs

A run reads and writes members by the names of symbols.  As no two members of a frame get the same
name, a renamed program does step by step what the program does, on a stack that is the renamed one.
-/

namespace NestedPascal

/-- What a failed run is told for and where. -/
def EvaluationError.blame (e : EvaluationError) : ErrorCode × Span :=
  (e.cause.code, e.span)

section

variable {ε ε' α β : Type} {x : Except ε α} {f : ε → ε'}

theorem mapError_eq_ok_iff {a : α} : x.mapError f = .ok a ↔ x = .ok a := by
  cases x <;> simp

theorem mapError_eq_error_iff {e' : ε'} :
    x.mapError f = .error e' ↔ ∃ e, x = .error e ∧ f e = e' := by
  cases x <;> simp

theorem map_bind {γ : Type} (x : Except ε α) (next : α → Except ε β) (g : β → γ) :
    (x >>= next).map g = x >>= fun a => (next a).map g := by
  cases x <;> rfl

end

/-! ## Expressions and arguments -/

/-- A stack serves renamed references as another one serves them as they were. -/
structure CallStack.ReadsAs (ρ : Renaming) (path : DeclarationPath) (visible : Visible)
    (stack' stack : CallStack (Frame Nat)) : Prop where
  depth : stack'.depth = stack.depth
  holder : ∀ level, stack'.holder? level = stack.holder? level
  value : ∀ name v, visible.denote name = some (.variable v) →
    ∃ k, stack.holder? v.level = some k ∧
      stack'.frames[k]?.bind (·.get? (v.rename ρ path).name) =
        stack.frames[k]?.bind (·.get? v.name)
  procedure : ∀ name q, visible.denote name = some (.procedure q) →
    ∃ k, stack.holder? q.level = some k

section

variable {ρ : Renaming} {path : DeclarationPath} {visible : Visible}
  {stack stack' : CallStack (Frame Nat)} (hstack : stack'.ReadsAs ρ path visible stack)

include hstack

theorem VariableRef.Denotes.locate_rename {r : VariableRef} {v : VariableSymbol}
    (hr : r.Denotes visible v) :
    ∃ k, r.locate stack = .ok (v, k) ∧
      (r.rename ρ path).locate stack' = .ok (v.rename ρ path, k) := by
  obtain ⟨k, hk, -⟩ := hstack.value _ v hr.denote
  refine ⟨k, VariableRef.locate_eq_ok_iff.mpr ⟨hr.symbol, hk⟩,
    VariableRef.locate_eq_ok_iff.mpr ⟨?_, ?_⟩⟩
  · rw [VariableRef.rename, hr.symbol]
    rfl
  · rw [VariableSymbol.level_rename, hstack.holder, hk]

theorem VariableRef.Denotes.eval_rename {r : VariableRef} {v : VariableSymbol}
    (hr : r.Denotes visible v) :
    ((r.rename ρ path).eval stack').mapError EvaluationError.blame =
      (r.eval stack).mapError EvaluationError.blame := by
  obtain ⟨k, hk, hvalue⟩ := hstack.value _ v hr.denote
  have hsymbol : (r.rename ρ path).symbol = some (v.rename ρ path) := by
    rw [VariableRef.rename, hr.symbol]
    rfl
  have hholder : stack'.holder? (v.rename ρ path).level = some k := by
    rw [VariableSymbol.level_rename, hstack.holder, hk]
  rw [VariableRef.eval_eq hr.symbol hk, VariableRef.eval_eq hsymbol hholder, hvalue]
  cases stack.frames[k]?.bind (·.get? v.name) <;> rfl

theorem Expr.HasKind.eval_rename {e : Expr} {kind : Kind} (he : e.HasKind visible kind) :
    ((e.rename ρ path).eval stack').mapError EvaluationError.blame =
      (e.eval stack).mapError EvaluationError.blame := by
  induction he with
  | literal => rfl
  | «variable» hr => exact hr.eval_rename hstack
  | unary _ ih => simp only [Expr.rename, Expr.eval, mapError_bind, ih]
  | binary _ _ _ ihl ihr => simp only [Expr.rename, Expr.eval, mapError_bind, ihl, ihr]

theorem ArgumentsFit.bind_rename {params : List VariableSymbol} {args : List Expr}
    (hargs : ArgumentsFit visible params args) {d : DeclarationPath}
    (hlevels : ∀ v ∈ params, v.level = d.length + 1)
    (hnames : ∀ v ∈ params, v.name ≠ canonicalName ρ.fresh) {members : Register String Value}
    (hmembers : ∀ e ∈ members.entries, e.1 ≠ canonicalName ρ.fresh) (c c' : Call) :
    (bindArguments stack' c' (members.mapKeys (ρ.key d)) (params.map (·.rename ρ d))
        (args.map (·.rename ρ path))).mapError EvaluationError.blame =
      ((bindArguments stack c members params args).mapError EvaluationError.blame).map
        (·.mapKeys (ρ.key d)) := by
  induction hargs generalizing members with
  | nil => rfl
  | @cons param params arg args kind harg _ _ ih =>
      obtain ⟨hlevel, hlevels⟩ := List.forall_mem_cons.mp hlevels
      obtain ⟨hname, hnames⟩ := List.forall_mem_cons.mp hnames
      have hkey : (param.rename ρ d).name = ρ.key d param.name :=
        VariableSymbol.name_rename hlevel List.prefix_rfl
      simp only [List.map_cons, bindArguments, mapError_bind, map_bind,
        harg.eval_rename hstack]
      congr 1
      funext value
      rw [hkey, Register.set_mapKeys (Register.keepsApart_key hmembers hname),
        VariableSymbol.kind_rename]
      apply ih hlevels hnames
      intro e he
      rcases Register.mem_replace he with rfl | he
      · exact hname
      · exact hmembers e he

/-- The frame that a call of a renamed procedure is going to push. -/
theorem Call.Fits.frame_rename {c : Call} {q : ProcedureSymbol} (hc : c.Fits visible q)
    (hlevels : ∀ v ∈ q.params, v.level = q.declaration.length + 1)
    (hnames : ∀ v ∈ q.params, v.name ≠ canonicalName ρ.fresh) :
    ((c.rename ρ path).frame (q.rename ρ) stack').mapError EvaluationError.blame =
      ((c.frame q stack).mapError EvaluationError.blame).map (·.rename ρ q.declaration) := by
  obtain ⟨k, hk⟩ := hstack.procedure _ q hc.denote
  have hempty : ∀ e ∈ (Register.empty : Register String Value).entries,
      e.1 ≠ canonicalName ρ.fresh := fun e he => absurd he List.not_mem_nil
  have hbind := hc.args.bind_rename hstack hlevels hnames hempty c (c.rename ρ path)
  simp only [Call.frame, ProcedureSymbol.level_rename, hstack.holder, hk, mapError_bind, map_bind]
  change (bindArguments stack' (c.rename ρ path) (Register.empty.mapKeys (ρ.key q.declaration))
    (q.params.map (·.rename ρ q.declaration)) (c.args.map (·.rename ρ path))).mapError _ >>= _ = _
  rw [hbind, hstack.depth]
  cases (bindArguments stack c .empty q.params c.args).mapError EvaluationError.blame <;> rfl

end

/-! ## States -/

def Activation.rename (ρ : Renaming) (a : Activation) : Activation :=
  { a with
    call := a.call.map fun call => (ρ.key a.declaration.dropLast call.1, call.2)
    todo := renameStatements ρ a.declaration a.todo }

section

variable {ρ : Renaming} {p : Program} {declarations : List DeclarationPath} {path : DeclarationPath}
  {s : LexicalScope} {stack : CallStack (Frame Nat)}
  (hunused : p.globalScope.Everywhere (·.visible.Avoids (canonicalName ρ.fresh)))

include hunused

theorem local_name_ne {v : VariableSymbol} (hs : p.scope? path = some s) (hv : v ∈ s.locals) :
    v.name ≠ canonicalName ρ.fresh :=
  hunused path s hs _ (List.mem_cons_self ..) _ (LexicalScope.variable_mem_offered.mpr hv)

/-- The name of a variable stays apart from the other members of a frame that can hold it. -/
theorem CallStack.TypedIn.keepsApart (htyped : stack.TypedIn p declarations)
    (hs : p.scope? path = some s) {k : Nat} (hk : declarations[k]? = some path) {f : Frame Nat}
    (hf : stack.frames[k]? = some f) {v : VariableSymbol} (hv : v ∈ s.locals) :
    f.members.KeepsApart (ρ.key path) v.name := by
  refine Register.keepsApart_key ?_ (local_name_ne hunused hs hv)
  rintro ⟨name, value⟩ he
  obtain ⟨w, hw, rfl, -, -⟩ := htyped k f path s hf hk hs name value he
  exact local_name_ne hunused hs hw

theorem CallStack.Linked.readsAs (hlinked : stack.Linked (declarations ++ [path]))
    (htyped : stack.TypedIn p (declarations ++ [path])) (hs : p.scope? path = some s) :
    (stack.rename ρ (declarations ++ [path])).ReadsAs ρ path s.visible stack := by
  refine ⟨depth_rename hlinked.depth, holder?_rename hlinked.depth, ?_, ?_⟩
  · intro name v hdenote
    obtain ⟨above, t, k, hprefix, ht, hlocal, hk, -, habove, -⟩ :=
      hlinked.holder_of_variable hs hdenote
    refine ⟨k, hk, ?_⟩
    have hlevel : v.level = above.length + 1 := by
      rw [LexicalScope.level_of_mem_locals hlocal, Program.level_of_scope? ht]
    obtain ⟨f, hf, -⟩ := hlinked.exists_frame habove
    rw [getElem?_rename, habove, hf, VariableSymbol.name_rename hlevel hprefix]
    exact Register.get?_mapKeys (htyped.keepsApart hunused ht habove hf hlocal)
  · exact (hlinked.reaches hs).ofProcedure

theorem Machine.assign_rename {m m' : Machine} (hlinked : m.stack.Linked (declarations ++ [path]))
    (htyped : m.stack.TypedIn p (declarations ++ [path])) (hs : p.scope? path = some s)
    (hstack : m'.stack = m.stack.rename ρ (declarations ++ [path])) {span : Span}
    {target : VariableRef} {value : Expr}
    (hfits : (Statement.assignment span target value).Fits s.visible) :
    (∀ n, m.assign target value = .ok n →
        ∃ n', m'.assign (target.rename ρ path) (value.rename ρ path) = .ok n' ∧
          n'.stack = n.stack.rename ρ (declarations ++ [path])) ∧
      ∀ failure, m.assign target value = .error failure →
        ∃ failure', m'.assign (target.rename ρ path) (value.rename ρ path) = .error failure' ∧
          failure'.error.blame = failure.error.blame := by
  obtain ⟨v, kind, htarget, hvalue, -⟩ := hfits
  have hreads := hlinked.readsAs hunused htyped hs
  rw [← hstack] at hreads
  obtain ⟨k, hlocate, hlocate'⟩ := htarget.locate_rename hreads
  have heval := hvalue.eval_rename hreads
  simp only [Machine.assign, Machine.withResult, hlocate, hlocate']
  cases hresult : value.eval m.stack with
  | error e =>
      rw [hresult] at heval
      obtain ⟨e', he', hblame⟩ := mapError_eq_error_iff.mp heval
      refine ⟨fun n hn => by contradiction, fun failure hfailure => ?_⟩
      cases hfailure
      exact ⟨_, by rw [he'], hblame⟩
  | ok w =>
      rw [hresult] at heval
      have hresult' := mapError_eq_ok_iff.mp heval
      refine ⟨fun n hn => ?_, fun failure hfailure => by contradiction⟩
      cases hn
      obtain ⟨above, t, k', hprefix, ht, hlocal, hk, -, habove, -⟩ :=
        hlinked.holder_of_variable hs htarget.denote
      rw [(VariableRef.locate_eq_ok_iff.mp hlocate).2, Option.some.injEq] at hk
      subst k'
      have hlevel : v.level = above.length + 1 := by
        rw [LexicalScope.level_of_mem_locals hlocal, Program.level_of_scope? ht]
      refine ⟨_, by rw [hresult'], ?_⟩
      -- The frame runs the block that declares the variable, so its member has the same key.
      simp only [hstack, VariableSymbol.name_rename hlevel hprefix]
      exact (CallStack.rename_set habove
        (fun f hf => htyped.keepsApart hunused ht habove hf hlocal) _).symm

theorem Call.enter_rename {m m' : Machine} (hlinked : m.stack.Linked (declarations ++ [path]))
    (htyped : m.stack.TypedIn p (declarations ++ [path])) (hs : p.scope? path = some s)
    (hstack : m'.stack = m.stack.rename ρ (declarations ++ [path])) {c : Call}
    (hfits : (Statement.call c).Fits s.visible) (limit : DepthLimit) :
    (∀ n a, c.enter p.block limit m = .ok (n, a) →
        ∃ n', (c.rename ρ path).enter (p.rename ρ).block limit m' = .ok (n', a.rename ρ) ∧
          n'.stack = n.stack.rename ρ (declarations ++ [path] ++ [a.declaration])) ∧
      ∀ e, c.enter p.block limit m = .error e →
        ∃ e', (c.rename ρ path).enter (p.rename ρ).block limit m' = .error e' ∧
          e'.blame = e.blame := by
  obtain ⟨q, hc⟩ := hfits
  have hreads := hlinked.readsAs hunused htyped hs
  rw [← hstack] at hreads
  obtain ⟨-, -, -, t, -, -, -, ht, hparams⟩ := Program.procedure_of_denote hs hc.denote
  have hlocals : ∀ v ∈ q.params, v ∈ t.locals := by
    intro v hv
    exact List.mem_append_left _ (hparams ▸ hv)
  have hframe := hc.frame_rename hreads
    (fun v hv => (LexicalScope.level_of_mem_locals (hlocals v hv)).trans (Program.level_of_scope? ht))
    (fun v hv => local_name_ne hunused ht (hlocals v hv))
  have hsymbol : (c.rename ρ path).symbol = some (q.rename ρ) := by
    rw [Call.rename, hc.symbol]
    rfl
  simp only [Call.enter, hc.symbol, hsymbol, hreads.depth]
  -- The limit is asked before anything that has a name.
  by_cases hfull : limit.frames ≤ m.stack.depth
  · simp only [if_pos hfull]
    refine ⟨fun n a h => by contradiction, fun e he => ?_⟩
    cases he
    exact ⟨_, rfl, rfl⟩
  · simp only [if_neg hfull]
    cases hresult : c.frame q m.stack with
    | error e =>
        rw [hresult] at hframe
        obtain ⟨e', he', hblame⟩ := mapError_eq_error_iff.mp hframe
        refine ⟨fun n a h => by contradiction, fun e he => ?_⟩
        cases he
        exact ⟨e', by rw [he'], hblame⟩
    | ok frame =>
        rw [hresult] at hframe
        have hframe' := mapError_eq_ok_iff.mp hframe
        refine ⟨fun n a h => ?_, fun e he => by contradiction⟩
        cases h
        have hbody : (((p.rename ρ).block.at? (q.rename ρ).declaration).map Block.body).getD [] =
            renameStatements ρ q.declaration (((p.block.at? q.declaration).map Block.body).getD []) :=
          p.block.body_at?_rename q.declaration
        refine ⟨_, by rw [hframe', hbody]; rfl, ?_⟩
        simp only [Machine.emit, hstack]
        exact (CallStack.rename_push hlinked.depth frame).symm

end

/-! ## Steps -/

/-- The state of a run of the renamed program, but for what it has told so far. -/
structure Configuration.RenamedTo (ρ : Renaming) (c c' : Configuration) : Prop where
  stack : c'.machine.stack = c.machine.stack.rename ρ c.declarations
  activations : c'.activations = c.activations.map (·.rename ρ)

def Outcome.RenamedTo (ρ : Renaming) : Outcome → Outcome → Prop
  | .next c, .next c' => c.RenamedTo ρ c'
  | .finished, .finished => True
  | .failed e, .failed e' => e'.blame = e.blame
  | _, _ => False

section

variable {ρ : Renaming} {p : Program} {limit : DepthLimit} {c c' : Configuration}

variable (limit) in
theorem Configuration.RenamedTo.step
    (hunused : p.globalScope.Everywhere (·.visible.Avoids (canonicalName ρ.fresh)))
    (hc : c.WellTyped p) (h : c.RenamedTo ρ c') :
    (c.step p.block limit).RenamedTo ρ (c'.step (p.rename ρ).block limit) := by
  obtain ⟨m, activations⟩ := c
  obtain ⟨m', activations'⟩ := c'
  obtain ⟨hstack, hactivations⟩ := h
  simp only at hstack hactivations
  subst activations'
  cases activations with
  | nil => trivial
  | cons a below =>
      obtain ⟨declaration, call, todo⟩ := a
      cases todo with
      | nil =>
          cases call with
          | none => trivial
          | some called =>
              obtain ⟨name, span⟩ := called
              have hdepth := hc.consistent.linked.depth
              rw [Configuration.declarations_cons, List.length_append] at hdepth
              rw [Configuration.declarations_cons] at hstack
              refine ⟨?_, rfl⟩
              simp only [Machine.leave, Machine.emit, hstack]
              exact CallStack.rename_pop hdepth
      | cons first rest =>
          obtain ⟨⟨s, hs, -⟩, -⟩ := List.forall_mem_cons.mp hc.consistent.inScope
          obtain ⟨hfits, -⟩ := (List.forall_mem_cons.mp hc.fit).1 s hs
          have hlinked := hc.consistent.linked
          have htyped := hc.typed
          rw [Configuration.declarations_cons] at hlinked htyped hstack
          cases first with
          | compound span children =>
              refine ⟨by rw [Configuration.declarations_cons]; exact hstack, ?_⟩
              simp only [List.map_cons, Activation.rename, renameStatements_append]
          | assignment span target value =>
              have hassign := Machine.assign_rename hunused hlinked htyped hs hstack hfits
              simp only [Configuration.step, List.map_cons, Activation.rename, renameStatements,
                Statement.rename]
              cases hresult : m.assign target value with
              | error failure =>
                  obtain ⟨failure', hfailure', hblame⟩ := hassign.2 failure hresult
                  rw [hfailure']
                  exact hblame
              | ok n =>
                  obtain ⟨n', hn', hnstack⟩ := hassign.1 n hresult
                  rw [hn']
                  exact ⟨by rw [Configuration.declarations_cons]; exact hnstack, rfl⟩
          | call callee =>
              have henter := Call.enter_rename hunused hlinked htyped hs hstack hfits limit
              simp only [Configuration.step, List.map_cons, Activation.rename, renameStatements,
                Statement.rename]
              cases hresult : callee.enter p.block limit m with
              | error e =>
                  obtain ⟨e', he', hblame⟩ := henter.2 e hresult
                  rw [he']
                  exact hblame
              | ok entered =>
                  obtain ⟨n, entered⟩ := entered
                  obtain ⟨n', hn', hnstack⟩ := henter.1 n entered hresult
                  rw [hn']
                  refine ⟨?_, rfl⟩
                  rw [Configuration.declarations_cons, Configuration.declarations_cons]
                  exact hnstack

theorem Configuration.RenamedTo.endsWith
    (hunused : p.globalScope.Everywhere (·.visible.Avoids (canonicalName ρ.fresh)))
    (hc : c.WellTyped p) (h : c.RenamedTo ρ c') {error : Option EvaluationError}
    (hend : c.EndsWith p.block limit error) :
    ∃ error', c'.EndsWith (p.rename ρ).block limit error' ∧
      error'.map EvaluationError.blame = error.map EvaluationError.blame := by
  have hstep := h.step limit hunused hc
  cases error with
  | none =>
      obtain ⟨hfinished, hlength⟩ := hend
      rw [hfinished] at hstep
      cases hstep' : c'.step (p.rename ρ).block limit with
      | finished =>
          refine ⟨none, ⟨hstep', ?_⟩, rfl⟩
          rw [h.activations, List.length_map, hlength]
      | next d => rw [hstep'] at hstep; contradiction
      | failed e => rw [hstep'] at hstep; contradiction
  | some e =>
      have hfailed : c.step p.block limit = .failed e := hend
      rw [hfailed] at hstep
      cases hstep' : c'.step (p.rename ρ).block limit with
      | failed e' =>
          rw [hstep'] at hstep
          exact ⟨some e', hstep', congrArg some hstep⟩
      | next d => rw [hstep'] at hstep; contradiction
      | finished => rw [hstep'] at hstep; contradiction

end

namespace Program

variable {p : Program} {ρ : Renaming} {limit : DepthLimit} (hannotated : p.Annotated)
  (hresolved : p.Resolved)
  (hunused : p.globalScope.Everywhere (·.visible.Avoids (canonicalName ρ.fresh)))

theorem start_renamedTo (p : Program) (ρ : Renaming) : p.start.RenamedTo ρ (p.rename ρ).start := by
  refine ⟨rfl, ?_⟩
  simp [start, Activation.rename, rename, Block.body_rename]

include hannotated hresolved hunused

/-- The renamed program goes through the renamed states. -/
theorem reaches_rename {c : Configuration} (hc : p.Reaches limit c) :
    ∃ c', (p.rename ρ).Reaches limit c' ∧ c.RenamedTo ρ c' := by
  induction hc with
  | refl => exact ⟨_, .refl, p.start_renamedTo ρ⟩
  | @tail c d hc hstep ih =>
      obtain ⟨c', hc', hrenamed⟩ := ih
      have htyped := Configuration.wellTyped_of_reaches hannotated hresolved hc
      have hnext := hrenamed.step limit hunused htyped
      rw [hstep] at hnext
      cases hstep' : c'.step (p.rename ρ).block limit with
      | next d' =>
          rw [hstep'] at hnext
          exact ⟨d', hc'.tail hstep', hnext⟩
      | finished => rw [hstep'] at hnext; contradiction
      | failed e => rw [hstep'] at hnext; contradiction

variable (limit) in
/-- A run of the renamed program ends with the renamed stack, and if it fails, for what and where the
run of the program does. -/
theorem run_rename :
    ∃ c, p.Reaches limit c ∧ c.EndsWith p.block limit (p.run limit).error ∧
      (p.run limit).stack = c.machine.stack ∧
      ((p.rename ρ).run limit).stack = (p.run limit).stack.rename ρ c.declarations ∧
      ((p.rename ρ).run limit).error.map EvaluationError.blame =
        (p.run limit).error.map EvaluationError.blame := by
  obtain ⟨c, hc, -, hend, hrun⟩ := p.run_eq_result limit
  obtain ⟨c', hc', hrenamed⟩ := reaches_rename hannotated hresolved hunused hc
  have htyped := Configuration.wellTyped_of_reaches hannotated hresolved hc
  obtain ⟨error', hend', hblame⟩ := hrenamed.endsWith hunused htyped hend
  have hrun' := run_eq_of_endsWith hc' hend'
  have hstack : (p.run limit).stack = c.machine.stack := congrArg RunResult.stack hrun
  refine ⟨c, hc, hend, hstack, ?_, ?_⟩
  · rw [hrun', hstack]
    exact hrenamed.stack
  · rw [hrun']
    exact hblame

end Program

end NestedPascal
