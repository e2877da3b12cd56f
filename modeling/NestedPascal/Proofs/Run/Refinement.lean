import NestedPascal.Proofs.Run.Simulation
import NestedPascal.Proofs.Run.TypeSoundness

/-!
# Runs and lexical environments

A run of an accepted program comes to what the program means with lexical environments: it succeeds
with the values of the assigned global locations in the program's frame, or fails with the same error.
The simulation is for one block at a time.  The activations below it stay what they are while its
statements are executed, and a call adds one on top for as long as its body runs.
-/

namespace NestedPascal

/-! ## Evaluation -/

section

variable {stack : CallStack (Frame Nat)} {p : Program} {declarations : List DeclarationPath}
  {environments : List Environment} {store : Store} {path : DeclarationPath} {env : Environment}
  {s : LexicalScope}

theorem VariableRef.Denotes.eval_eq_valueIn
    (h : stack.Simulates p (declarations ++ [path]) (environments ++ [env]) store)
    (hs : p.scope? path = some s) {r : VariableRef} {v : VariableSymbol}
    (hr : r.Denotes s.visible v) : r.eval stack = r.valueIn env store := by
  obtain ⟨k, l, f, -, -, hk, hf, -, -, hl, hvalue⟩ := h.slot_of_denote hs hr.denote
  have hlocation : r.locationIn env = .ok (v, l) := by
    simp only [VariableRef.locationIn, hr.symbol, hl]
  rw [VariableRef.eval_eq hr.symbol hk, hf, Option.bind_some, hvalue, VariableRef.valueIn, hlocation]
  rfl

theorem Expr.HasKind.eval_eq_valueIn
    (h : stack.Simulates p (declarations ++ [path]) (environments ++ [env]) store)
    (hs : p.scope? path = some s) {e : Expr} {kind : Kind} (he : e.HasKind s.visible kind) :
    e.eval stack = e.valueIn env store := by
  induction he with
  | literal => rfl
  | «variable» hr => exact hr.eval_eq_valueIn h hs
  | unary _ ih => rw [Expr.eval, Expr.valueIn, ih]
  | binary _ _ _ ihl ihr => rw [Expr.eval, Expr.valueIn, ihl, ihr]

/-- Arguments are bound to members as their values are to locations, or fail as these do. -/
theorem ArgumentsFit.bind_cases
    (h : stack.Simulates p (declarations ++ [path]) (environments ++ [env]) store)
    (hs : p.scope? path = some s) {params : List VariableSymbol} {args : List Expr}
    (hargs : ArgumentsFit s.visible params args) {t : LexicalScope} (ht : t.Resolved)
    (hparams : ∀ param ∈ params, param ∈ t.locals) (c : Call) {base : Nat}
    {members : Register String Value} {target : Store}
    (hkept : (t.instanceAt base).KeptBy members target)
    (hsize : base + t.locals.length ≤ target.cells.length) :
    (∃ e, valuesIn env store args = .error e ∧
        bindArguments stack c members params args = .error e) ∨
      ∃ values members', valuesIn env store args = .ok values ∧
        bindArguments stack c members params args = .ok members' ∧
        (t.instanceAt base).KeptBy members' ((t.instanceAt base).bind target params values) := by
  induction hargs generalizing members target with
  | nil => exact .inr ⟨[], members, rfl, rfl, hkept⟩
  | @cons param params arg args kind harg _ _ ih =>
      obtain ⟨hparam, hparams⟩ := List.forall_mem_cons.mp hparams
      rw [valuesIn, bindArguments, harg.eval_eq_valueIn h hs]
      cases hvalue : arg.valueIn env store with
      | error e => exact .inl ⟨e, rfl, rfl⟩
      | ok value =>
          obtain ⟨l, hl, hslot⟩ := LexicalScope.location?_eq_some base hparam
          have hlt : l < target.cells.length := by
            have hbound := LexicalScope.lt_of_mem_slots hslot
            omega
          have hset := hkept.set ht hslot hlt (value.widen param.kind)
          rcases ih hparams hset (by rw [Store.length_write]; exact hsize) with
            ⟨e, hvalues, hbind⟩ | ⟨values, members', hvalues, hbind, hkept'⟩
          · refine .inl ⟨e, ?_, hbind⟩
            rw [hvalues]
            rfl
          · refine .inr ⟨value :: values, members', ?_, hbind, ?_⟩
            · rw [hvalues]
              rfl
            · rw [Instance.bind, hl]
              exact hkept'

end

/-! ## Execution -/

/-- A run and a meaning come to a machine and a store that are related, or fail with one error. -/
inductive Agree (R : Machine → Store → Prop) :
    Machine.Step → Except EvaluationError Store → Prop where
  | passes {m store} : R m store → Agree R (.ok m) (.ok store)
  | fails {e m} : Agree R (.error ⟨e, m⟩) (.error e)

namespace Agree

variable {R R' : Machine → Store → Prop} {x : Machine.Step} {y : Except EvaluationError Store}

theorem bind (h : Agree R x y) {f : Machine → Machine.Step}
    {g : Store → Except EvaluationError Store}
    (hgoOn : ∀ m store, R m store → Agree R' (f m) (g store)) : Agree R' (x >>= f) (y >>= g) := by
  cases h with
  | passes hrelated => exact hgoOn _ _ hrelated
  | fails => exact .fails

theorem andThen (h : Agree R x y) {f : Machine → Machine}
    (hgoOn : ∀ m store, R m store → R' (f m) store) : Agree R' (x >>= fun m => .ok (f m)) y := by
  cases h with
  | passes hrelated => exact .passes (hgoOn _ _ hrelated)
  | fails => exact .fails

end Agree

/-- A block is executed in an environment, on top of what else is active. -/
def RunsIn (p : Program) (declarations : List DeclarationPath) (environments : List Environment)
    (path : DeclarationPath) (env : Environment) (m : Machine) (store : Store) : Prop :=
  m.stack.Simulates p (declarations ++ [path]) (environments ++ [env]) store

section

variable {p : Program} {declarations : List DeclarationPath} {environments : List Environment}
  {path : DeclarationPath} {env : Environment} {s : LexicalScope}

theorem Machine.assign_agrees (hp : p.Resolved) (hs : p.scope? path = some s) {m : Machine}
    {store : Store} (h : RunsIn p declarations environments path env m store)
    {target : VariableRef} {v : VariableSymbol} (htarget : target.Denotes s.visible v)
    {value : Expr} {kind : Kind} (hvalue : value.HasKind s.visible kind) (span : Span)
    (meaning : Environment → Call → Store → Except EvaluationError Store) :
    Agree (RunsIn p declarations environments path env) (m.assign target value)
      ((Statement.assignment span target value).interpret meaning env store) := by
  obtain ⟨k, l, f, inst, outer, hk, -, henv, hslot, hl, -⟩ := h.slot_of_denote hs htarget.denote
  have hlocate := VariableRef.locate_eq_ok_iff.mpr ⟨htarget.symbol, hk⟩
  have hlocation : target.locationIn env = .ok (v, l) := by
    simp only [VariableRef.locationIn, htarget.symbol, hl]
  rw [Machine.assign, hvalue.eval_eq_valueIn h hs, hlocate, Statement.interpret, hlocation]
  cases value.valueIn env store with
  | error e => exact .fails
  | ok result => exact .passes (h.set hp henv hslot (result.widen v.kind))

section

variable {onCall : Call → Machine → Machine.Step}
  {meaning : Environment → Call → Store → Except EvaluationError Store}

mutual

theorem Statement.execute_agrees (hp : p.Resolved) (hs : p.scope? path = some s)
    (hcalls : ∀ c q, c.Fits s.visible q → ∀ m store,
      RunsIn p declarations environments path env m store →
      Agree (RunsIn p declarations environments path env) (onCall c m) (meaning env c store)) :
    (st : Statement) → st.Fits s.visible → ∀ m store,
      RunsIn p declarations environments path env m store →
      Agree (RunsIn p declarations environments path env) (st.execute onCall m)
        (st.interpret meaning env store)
  | .compound _ children, hfits, m, store, h => by
    rw [Statement.execute, Statement.interpret]
    exact executeAll_agrees hp hs hcalls children hfits m store h
  | .assignment span target value, hfits, m, store, h => by
    obtain ⟨v, kind, htarget, hvalue, -⟩ := hfits
    rw [Statement.execute]
    exact Machine.assign_agrees hp hs h htarget hvalue span meaning
  | .call c, hfits, m, store, h => by
    obtain ⟨q, hc⟩ := hfits
    rw [Statement.execute, Statement.interpret]
    exact hcalls c q hc m store h

theorem executeAll_agrees (hp : p.Resolved) (hs : p.scope? path = some s)
    (hcalls : ∀ c q, c.Fits s.visible q → ∀ m store,
      RunsIn p declarations environments path env m store →
      Agree (RunsIn p declarations environments path env) (onCall c m) (meaning env c store)) :
    (ss : List Statement) → statementsFit s.visible ss → ∀ m store,
      RunsIn p declarations environments path env m store →
      Agree (RunsIn p declarations environments path env) (executeAll onCall ss m)
        (interpretAll meaning env ss store)
  | [], _, m, store, h => by
    rw [executeAll, interpretAll]
    exact .passes h
  | st :: rest, hfits, m, store, h => by
    rw [executeAll, interpretAll]
    exact (Statement.execute_agrees hp hs hcalls st hfits.1 m store h).bind
      (executeAll_agrees hp hs hcalls rest hfits.2)

end

end

/-- What a call pushes simulates the activation that its closure gets. -/
theorem Call.Fits.entered (hp : p.Resolved) (hs : p.scope? path = some s) {m : Machine}
    {store : Store} (h : RunsIn p declarations environments path env m store) {c : Call}
    {q : ProcedureSymbol} (hc : c.Fits s.visible q) :
    ∃ t inner, p.scope? q.declaration = some t ∧ env.closure? q = some ⟨q.declaration, inner⟩ ∧
      ((∃ e, valuesIn env store c.args = .error e ∧ c.frame q m.stack = .error e) ∨
        ∃ values frame, valuesIn env store c.args = .ok values ∧
          c.frame q m.stack = .ok frame ∧
          (m.stack.push frame).Simulates p (declarations ++ [path] ++ [q.declaration])
            (environments ++ [env] ++ [(t.activate store).1 :: inner])
            ((t.activate store).1.bind (t.activate store).2 t.parameters values)) := by
  obtain ⟨above, place, t, k, hlevel, hdeclaration, ht, hparams, hk, hnearest⟩ :=
    h.linked.holder_of_procedure hs hc.denote
  obtain ⟨k', inner, hk', hinner, hclosure⟩ := h.closure_of_denote hs hc.denote
  rw [hk, Option.some.injEq] at hk'
  subst k'
  refine ⟨t, inner, ht, hclosure, ?_⟩
  have hargs := hc.args
  rw [hparams] at hargs
  have hsize : (t.activate store).2.cells.length = store.cells.length + t.locals.length :=
    Store.length_allocate t.locals.length
  rcases hargs.bind_cases h hs (hp _ t ht) (fun param hparam => List.mem_append_left _ hparam) c
    (.fresh t store) (Nat.le_of_eq hsize.symm) with
    ⟨e, hvalues, hbind⟩ | ⟨values, members, hvalues, hbind, hkept⟩
  · refine .inl ⟨e, hvalues, ?_⟩
    simp only [Call.frame, hk, hparams, hbind]
    rfl
  · refine .inr ⟨values, ⟨q.name, .procedure, m.stack.depth + 1, q.level + 1, some k, members⟩,
      hvalues, ?_, ?_⟩
    · simp only [Call.frame, hk, hparams, hbind]
      rfl
    · refine h.push ht (h.linked.push_call hlevel hdeclaration hnearest members) ?_ ?_ hkept ?_
      · exact Instance.length_bind.trans hsize
      · intro l hl
        rw [Instance.read?_bind_of_not_mem, LexicalScope.activate, Store.read?_allocate]
        intro v hslot
        have hnew := (LexicalScope.mem_slots_iff.mp hslot).1
        omega
      · intro k' hk'
        cases hk'
        exact hinner

/-- A call agrees with its meaning whatever may still be nested in it. -/
theorem Call.execute_agrees (hp : p.Resolved) (limit : DepthLimit) (allowed : Nat)
    (hs : p.scope? path = some s) {c : Call} {q : ProcedureSymbol} (hc : c.Fits s.visible q)
    {m : Machine} {store : Store} (h : RunsIn p declarations environments path env m store) :
    Agree (RunsIn p declarations environments path env) (c.execute p.block limit allowed m)
      (c.interpret p limit allowed env store) := by
  -- Inside the body another block runs in another environment, with one call less allowed.
  induction allowed generalizing declarations environments path env s c q m store with
  | zero =>
      rw [Call.execute, Call.interpret]
      simp only [hc.symbol]
      exact .fails
  | succ allowed ih =>
      obtain ⟨t, inner, ht, hclosure, hentered⟩ := hc.entered hp hs h
      rw [Call.execute, Call.interpret]
      simp only [hc.symbol, hclosure, ht]
      rcases hentered with ⟨e, hvalues, hframe⟩ | ⟨values, frame, hvalues, hframe, hsimulates⟩
      · rw [hvalues, hframe]
        exact .fails
      · rw [hvalues, hframe, Program.body_of_scope? ht]
        have hruns := executeAll_agrees hp ht
          (fun c' q' hc' m' store' h' => ih ht hc' h') t.block.body (hp _ t ht).fit
          (({ m with stack := m.stack.push frame } : Machine).emit
            (.callStart q.name (m.stack.push frame).depth) c.span) _ hsimulates
        exact hruns.andThen fun m' store' h' => CallStack.Simulates.pop h'

end

/-! ## Fresh activations -/

section

variable {stack : CallStack (Frame Nat)} {visible : Visible}

theorem ArgumentsFit.entries_of_bind {params : List VariableSymbol} {args : List Expr}
    (hargs : ArgumentsFit visible params args) {c : Call} {members members' : Register String Value}
    (hnodup : (members.entries.map Prod.fst ++ params.map VariableSymbol.name).Nodup)
    (h : bindArguments stack c members params args = .ok members') :
    ∃ values, List.Forall₂ (fun arg value => arg.eval stack = .ok value) args values ∧
      members'.entries = members.entries ++
        List.zipWith (fun param value => (param.name, value.widen param.kind)) params values := by
  induction hargs generalizing members with
  | nil =>
      cases h
      exact ⟨[], .nil, by simp⟩
  | @cons param params arg args kind _ _ _ ih =>
      rw [bindArguments] at h
      obtain ⟨value, hvalue, hrest⟩ := bind_eq_ok_iff.mp h
      have hfresh : ∀ entry ∈ members.entries, entry.1 ≠ param.name := by
        intro entry hentry heq
        have hdisjoint := List.disjoint_of_nodup_append hnodup
        exact hdisjoint (List.mem_map_of_mem hentry) (heq ▸ List.mem_cons_self ..)
      have hset : (members.set param.name (value.widen param.kind)).entries =
          members.entries ++ [(param.name, value.widen param.kind)] :=
        Register.replace_of_fresh hfresh
      have hnodup' : ((members.set param.name (value.widen param.kind)).entries.map Prod.fst ++
          params.map VariableSymbol.name).Nodup := by
        rw [hset, List.map_append, List.append_assoc]
        exact hnodup
      obtain ⟨values, hvalues, hentries⟩ := ih hnodup' hrest
      refine ⟨value :: values, .cons hvalue hvalues, ?_⟩
      rw [hentries, hset, List.append_assoc, List.zipWith_cons_cons, List.singleton_append]

end

/-- A call starts an activation with the values of its arguments, which are those that they have for
the caller, and with nothing from an activation before. -/
def Call.StartsAfresh (c : Call) (p : Program) (before after : CallStack (Frame Nat)) : Prop :=
  ∃ q s values f, c.symbol = some q ∧ p.scope? q.declaration = some s ∧
    c.args.length = s.parameters.length ∧
    List.Forall₂ (fun arg value => arg.eval before = .ok value) c.args values ∧
    after = before.push f ∧
    f.members.entries =
      List.zipWith (fun param value => (param.name, value.widen param.kind)) s.parameters values

theorem Configuration.WellTyped.startsAfresh {p : Program} {limit : DepthLimit} (hp : p.Resolved)
    {m m' : Machine} {declaration : DeclarationPath} {call : Option (String × Span)} {c : Call}
    {rest : List Statement} {below : List Activation} {entered : Activation}
    (h : WellTyped p ⟨m, ⟨declaration, call, .call c :: rest⟩ :: below⟩)
    (henter : c.enter p.block limit m = .ok (m', entered)) : c.StartsAfresh p m.stack m'.stack := by
  obtain ⟨⟨s, hs, -⟩, -⟩ := List.forall_mem_cons.mp h.consistent.inScope
  obtain ⟨⟨q, hc⟩, -⟩ := (List.forall_mem_cons.mp h.fit).1 s hs
  obtain ⟨q', k, members, hsymbol, -, -, hmembers, hstack, -⟩ := Call.enter_eq_ok henter
  rw [hc.symbol, Option.some.injEq] at hsymbol
  subst q'
  obtain ⟨-, -, -, t, -, -, -, ht, hparams⟩ := Program.procedure_of_denote hs hc.denote
  have hargs := hc.args
  rw [hparams] at hargs hmembers
  have hnodup : (t.parameters.map VariableSymbol.name).Nodup := by
    have hlocals := (hp _ t ht).nodup_locals
    rw [LexicalScope.locals, List.map_append] at hlocals
    exact hlocals.of_append_left
  have hstart : (Register.empty : Register String Value).entries.map Prod.fst = [] := rfl
  obtain ⟨values, hvalues, hentries⟩ := hargs.entries_of_bind (by rw [hstart]; exact hnodup) hmembers
  exact ⟨q, t, values, _, hc.symbol, ht, hargs.length_eq.symm, hvalues, hstack, hentries⟩

/-! ## Whole runs -/

/-- The members of the frame are the assigned locations of the activation, with their values. -/
structure Frame.Holds (f : Frame Nat) (inst : Instance) (store : Store) : Prop where
  nodup : (f.members.entries.map Prod.fst).Nodup
  entries : ∀ name value, (name, value) ∈ f.members.entries ↔
    ∃ v l, (v, l) ∈ inst.slots ∧ v.name = name ∧ store.read? l = some value

theorem Instance.KeptBy.holds {inst : Instance} {f : Frame Nat} {store : Store}
    (h : inst.KeptBy f.members store) : f.Holds inst store := by
  refine ⟨h.keys, ?_⟩
  intro name value
  constructor
  · intro hmem
    obtain ⟨v, l, hslot, rfl⟩ := h.named name (List.mem_map_of_mem hmem)
    refine ⟨v, l, hslot, rfl, ?_⟩
    rw [← h.values v l hslot]
    exact Register.get?_of_mem h.keys hmem
  · rintro ⟨v, l, hslot, rfl, hvalue⟩
    rw [← h.values v l hslot] at hvalue
    exact Register.mem_of_get? hvalue

/-- A run succeeds with what the program's frame should hold, or fails as it should. -/
def RunResult.Matches (r : RunResult) : Except EvaluationError (Instance × Store) → Prop
  | .ok (globals, store) =>
    r.error = none ∧ ∃ f, r.stack.frames = #[f] ∧ f.role = .program ∧ f.Holds globals store
  | .error e => r.error = some e

namespace Program

variable {p : Program}

theorem runsIn_start (p : Program) :
    RunsIn p [] [] [] [(p.globalScope.activate .empty).1] p.initialMachine
      (p.globalScope.activate .empty).2 := by
  have hempty : CallStack.empty.Simulates p [] [] .empty := by
    refine ⟨⟨rfl, ?_⟩, rfl, ?_, ?_⟩
    · intro i f d hf hd
      contradiction
    · intro i f d hf hd
      contradiction
    · intro i j inst outer inst' outer' v w l l' hij hi
      contradiction
  refine hempty.push rfl p.linked_initialMachine (Store.length_allocate _) ?_ (.fresh _ _) ?_
  · intro l hl
    exact Store.read?_allocate _
  · intro k hk
    contradiction

/-- At the end of the program's own block its frame is alone, and holds the global locations. -/
theorem holds_of_runsIn {m : Machine} {store : Store}
    (h : RunsIn p [] [] [] [(p.globalScope.activate .empty).1] m store) :
    ∃ f, m.stack.frames = #[f] ∧ f.role = .program ∧
      f.Holds (p.globalScope.activate .empty).1 store := by
  have hdepth : m.stack.frames.size = 1 := h.linked.depth
  obtain ⟨f, hf, hlinked⟩ := h.linked.exists_frame (i := 0) rfl
  obtain ⟨s, base, outer, -, henv, -, hkept, -⟩ := h.frames 0 f [] hf rfl
  have hglobals : (p.globalScope.activate .empty).1 = s.instanceAt base :=
    (List.cons.inj (Option.some.inj henv)).1
  refine ⟨f, ?_, (hlinked.bottom rfl).1, hglobals ▸ hkept.holds⟩
  apply Array.ext_getElem?
  intro i
  cases i with
  | zero => exact hf
  | succ i =>
      rw [Array.getElem?_eq_none (by omega)]
      simp

theorem run_matches_interpret (hp : p.Resolved) (limit : DepthLimit) :
    (p.run limit).Matches (p.interpret limit) := by
  have hagree := executeAll_agrees hp (s := p.globalScope) rfl
    (fun c q hc m store h => Call.execute_agrees hp limit limit.calls rfl hc h) p.block.body
    (hp [] p.globalScope rfl).fit p.initialMachine _ p.runsIn_start
  have hmeaning : p.interpret limit =
      interpretAll (Call.interpret p limit limit.calls) [(p.globalScope.activate .empty).1]
        p.block.body (p.globalScope.activate .empty).2 >>=
      fun store => .ok ((p.globalScope.activate .empty).1, store) := rfl
  rw [hmeaning, run]
  revert hagree
  generalize executeAll (Call.execute p.block limit limit.calls) p.block.body p.initialMachine =
    result
  generalize interpretAll (Call.interpret p limit limit.calls) _ p.block.body _ = meaning
  intro hagree
  cases hagree with
  | fails => rfl
  | passes h => exact ⟨rfl, holds_of_runsIn h⟩

theorem scope_eq_of_mem_locals {path above above' : DeclarationPath} (habove : above <+: path)
    (habove' : above' <+: path) {s t : LexicalScope} (hs : p.scope? above = some s)
    (ht : p.scope? above' = some t) {v : VariableSymbol} (hv : v ∈ s.locals) (hw : v ∈ t.locals) :
    above = above' := by
  have hlevel : above.length + 1 = above'.length + 1 := by
    rw [← level_of_scope? hs, ← level_of_scope? ht, ← LexicalScope.level_of_mem_locals hv,
      ← LexicalScope.level_of_mem_locals hw]
  have hprefix := List.prefix_of_prefix_length_le habove habove' (by omega)
  exact hprefix.eq_of_length (by omega)

/-- A run of an accepted program comes to what the program means with lexical environments.  In an
activation no two declarations share a name, the scopes around a place share no variable, and every
call starts afresh. -/
theorem run_refines_lexical_environments {source : List Char} {file : String} {detailed : Bool}
    (hparse : parse source file detailed = .ok p)
    (haccepted : ∃ scopes, p.analyze.scopes = .ok scopes) (limit : DepthLimit) :
    (p.analyze.program.run limit).Matches (p.analyze.program.interpret limit) ∧
      (∀ path s, p.analyze.program.scope? path = some s →
        (s.locals.map VariableSymbol.name).Nodup) ∧
      (∀ path above above' s t v, above <+: path → above' <+: path →
        p.analyze.program.scope? above = some s → p.analyze.program.scope? above' = some t →
        v ∈ s.locals → v ∈ t.locals → above = above') ∧
      ∀ m declaration call callee rest below c',
        p.analyze.program.Reaches limit ⟨m, ⟨declaration, call, .call callee :: rest⟩ :: below⟩ →
        (Configuration.mk m (⟨declaration, call, .call callee :: rest⟩ :: below)).step
          p.analyze.program.block limit = .next c' →
        callee.StartsAfresh p.analyze.program m.stack c'.machine.stack := by
  have hsource := fromSource_of_parse hparse
  have hannotated := annotated_of_analyze hsource
  have hresolved := resolved_of_analyze hsource haccepted
  refine ⟨run_matches_interpret hresolved limit, ?_, ?_, ?_⟩
  · intro path s hs
    exact (hresolved path s hs).nodup_locals
  · intro path above above' s t v habove habove' hs ht hv hw
    exact scope_eq_of_mem_locals habove habove' hs ht hv hw
  · intro m declaration call callee rest below c' hc hstep
    cases Configuration.step_of_eq_next hstep with
    | call henter =>
        have htyped := Configuration.wellTyped_of_reaches hannotated hresolved hc
        exact htyped.startsAfresh hresolved henter

/-- A parameter that shadows a global variable is a location of its own, which a procedure inside
assigns to. -/
theorem run_refines_with_shadowing :
    ∃ p, parse ("program p; var x : integer; procedure q(x : integer); procedure r; " ++
          "begin x := x + 1 end; begin r() end; begin x := 1; q(x) end.").toList "p.pas" false = .ok p ∧
      (p.analyze.program.run (.ofInt 5)).Matches (p.analyze.program.interpret (.ofInt 5)) ∧
      (p.analyze.program.run (.ofInt 5)).error = none ∧
      (p.analyze.program.interpret (.ofInt 5)).toOption.map (fun meaning => meaning.2.cells) =
        some [some (Value.ofInt 1), some (Value.ofInt 2)] := by
  have htest : (parse ("program p; var x : integer; procedure q(x : integer); procedure r; " ++
      "begin x := x + 1 end; begin r() end; begin x := 1; q(x) end.").toList "p.pas"
      false).toOption.any (fun p => p.analyze.scopes.isOk &&
        (p.analyze.program.run (.ofInt 5)).error.isNone &&
        (p.analyze.program.interpret (.ofInt 5)).toOption.map (fun meaning => meaning.2.cells) =
          some [some (Value.ofInt 1), some (Value.ofInt 2)]) = true := by
    decide +kernel
  obtain ⟨p, hp, htest⟩ := parse_of_any htest
  simp only [Bool.and_eq_true, decide_eq_true_eq, Option.isNone_iff_eq_none] at htest
  obtain ⟨⟨hok, herror⟩, hcells⟩ := htest
  have hrefines := run_refines_lexical_environments hp (exists_scopes_of_isOk hok) (.ofInt 5)
  exact ⟨p, hp, hrefines.1, herror, hcells⟩

end Program

end NestedPascal
