import NestedPascal.Proofs.Run.Linkage
import NestedPascal.Proofs.Run.Transition
import NestedPascal.Proofs.Scope.Acceptance
import NestedPascal.Proofs.Value.Range

/-!
# Static links

In every state of a run of an annotated program the frames are the activations that are not done, and
each is linked to the most recent activation of the block that declares it.  So the frame of a level
is always found, and it is the most recent activation of the block of that level around the one that
runs.  This needs no more than that annotations are right as far as they go.
-/

namespace NestedPascal

/-- The declarations whose blocks are active, that of the program first. -/
def Configuration.declarations (c : Configuration) : List DeclarationPath :=
  (c.activations.map Activation.declaration).reverse

theorem Configuration.declarations_cons (m : Machine) (a : Activation) (below : List Activation) :
    (Configuration.mk m (a :: below)).declarations =
      (Configuration.mk m below).declarations ++ [a.declaration] := by
  simp [declarations]

namespace CallStack.Linked

variable {stack : CallStack (Frame Nat)} {declarations : List DeclarationPath} {p : Program}
  {path : DeclarationPath} {s : LexicalScope}

/-- The frame that holds a visible variable runs the scope that declares it. -/
theorem holder_of_variable (h : stack.Linked (declarations ++ [path])) (hs : p.scope? path = some s)
    {name : String} {v : VariableSymbol} (hdenote : s.visible.denote name = some (.variable v)) :
    ∃ above t k, above <+: path ∧ p.scope? above = some t ∧ v ∈ t.locals ∧
      stack.holder? v.level = some k ∧ Nearest (declarations ++ [path]) above stack.depth k := by
  obtain ⟨-, above, t, hprefix, ht, hlocal, hlevel⟩ := Program.local_of_denote hs hdenote
  obtain ⟨k, hk, hnearest⟩ := h.holder?_eq hprefix
  rw [← hlevel] at hk
  exact ⟨above, t, k, hprefix, ht, hlocal, hk, hnearest⟩

/-- The frame that a call links to runs the scope that declares the procedure. -/
theorem holder_of_procedure (h : stack.Linked (declarations ++ [path]))
    (hs : p.scope? path = some s) {name : String} {q : ProcedureSymbol}
    (hdenote : s.visible.denote name = some (.procedure q)) :
    ∃ above place callee k, q.level = above.length + 1 ∧ q.declaration = above ++ [place] ∧
      p.scope? q.declaration = some callee ∧ q.params = callee.parameters ∧
      stack.holder? q.level = some k ∧ Nearest (declarations ++ [path]) above stack.depth k := by
  obtain ⟨-, above, place, callee, hprefix, hlevel, hdeclaration, hcallee, hparams⟩ :=
    Program.procedure_of_denote hs hdenote
  obtain ⟨k, hk, hnearest⟩ := h.holder?_eq hprefix
  rw [← hlevel] at hk
  exact ⟨above, place, callee, k, hlevel, hdeclaration, hcallee, hparams, hk, hnearest⟩

theorem push_call (h : stack.Linked (declarations ++ [path])) {q : ProcedureSymbol}
    {above : DeclarationPath} {place k : Nat} (hlevel : q.level = above.length + 1)
    (hdeclaration : q.declaration = above ++ [place])
    (hnearest : Nearest (declarations ++ [path]) above stack.depth k)
    (members : Register String Value) :
    (stack.push ⟨q.name, .procedure, stack.depth + 1, q.level + 1, some k, members⟩).Linked
      (declarations ++ [path] ++ [q.declaration]) := by
  apply h.push
  have hpositive : 0 < stack.depth := by
    rw [h.depth, List.length_append, List.length_singleton]
    omega
  refine ⟨rfl, ?_, ?_, ?_⟩
  · simp [hlevel, hdeclaration]
  · intro hzero
    omega
  · intro _
    exact ⟨rfl, above, place, k, hdeclaration, rfl, hnearest⟩

end CallStack.Linked

/-! ## Errors that do not come up -/

/-- The error does not say that a frame is missing. -/
def EvaluationError.FrameFound (e : EvaluationError) : Prop :=
  ∀ name level, e.cause ≠ .noActiveFrame name level

section

variable {stack : CallStack (Frame Nat)} {visible : Visible} {e : EvaluationError}

/-- The frames of whatever is visible are found. -/
structure CallStack.Reaches (stack : CallStack (Frame Nat)) (visible : Visible) : Prop where
  ofVariable : ∀ name v, visible.denote name = some (.variable v) →
    ∃ k, stack.holder? v.level = some k
  ofProcedure : ∀ name q, visible.denote name = some (.procedure q) →
    ∃ k, stack.holder? q.level = some k

theorem CallStack.Linked.reaches {declarations : List DeclarationPath} {p : Program}
    {path : DeclarationPath} {s : LexicalScope} (h : stack.Linked (declarations ++ [path]))
    (hs : p.scope? path = some s) : stack.Reaches s.visible := by
  constructor
  · intro name v hdenote
    obtain ⟨-, -, k, -, -, -, hk, -⟩ := h.holder_of_variable hs hdenote
    exact ⟨k, hk⟩
  · intro name q hdenote
    obtain ⟨-, -, -, k, -, -, -, -, hk, -⟩ := h.holder_of_procedure hs hdenote
    exact ⟨k, hk⟩

theorem VariableRef.locate_frameFound (hstack : stack.Reaches visible) {r : VariableRef}
    (hr : r.AnnotatedIn visible) (h : r.locate stack = .error e) : e.FrameFound := by
  rcases VariableRef.locate_eq_error h with ⟨-, rfl⟩ | ⟨v, hsymbol, hnone, -⟩
  · intro name level
    simp
  · obtain ⟨k, hk⟩ := hstack.ofVariable _ v (hr v hsymbol)
    rw [hnone] at hk
    contradiction

theorem Expr.eval_frameFound (hstack : stack.Reaches visible) {x : Expr}
    (hx : x.AnnotatedIn visible) (h : x.eval stack = .error e) : e.FrameFound := by
  induction x with
  | literal span value => contradiction
  | «variable» r =>
      rcases VariableRef.eval_eq_error h with hlocate | rfl
      · exact VariableRef.locate_frameFound hstack hx hlocate
      · intro name level
        simp
  | unary span sign operand ih =>
      rcases Expr.eval_unary_eq_error h with hoperand | ⟨v, cause, -, hsign, rfl⟩
      · exact ih hx hoperand
      · obtain ⟨range, rfl⟩ := Sign.apply_eq_error hsign
        intro name level
        simp
  | binary span op left right ihl ihr =>
      rcases Expr.eval_binary_eq_error h with hleft | hright | ⟨l, r, cause, -, -, hop, rfl⟩
      · exact ihl hx.1 hleft
      · exact ihr hx.2 hright
      · intro name level
        rcases BinaryOperator.apply_eq_error hop with ⟨range, rfl⟩ | rfl | ⟨-, rfl⟩ | ⟨-, rfl⟩ <;>
          simp

theorem Call.enter_frameFound {program : Block} {limit : DepthLimit} {m : Machine}
    (hstack : m.stack.Reaches visible) {c : Call} (hc : c.AnnotatedIn visible)
    (h : c.enter program limit m = .error e) : e.FrameFound := by
  rcases Call.enter_eq_error h with ⟨-, rfl⟩ | ⟨q, hsymbol, rfl | hframe⟩
  · intro name level
    simp
  · intro name level
    simp
  · rcases Call.frame_eq_error hframe with ⟨hnone, -⟩ | hbind
    · obtain ⟨k, hk⟩ := hstack.ofProcedure _ q (hc.symbol q hsymbol)
      rw [hnone] at hk
      contradiction
    · rcases bindArguments_eq_error hbind with ⟨param, rfl⟩ | ⟨arg, hmem, harg⟩
      · intro name level
        simp
      · exact Expr.eval_frameFound hstack (hc.args arg hmem) harg

end

/-! ## States of a run -/

theorem Program.linked_initialMachine (p : Program) : p.initialMachine.stack.Linked [[]] := by
  have hempty : CallStack.empty.Linked [] := by
    refine ⟨rfl, ?_⟩
    intro i f d hf hd
    contradiction
  apply hempty.push
  exact ⟨rfl, rfl, fun _ => ⟨rfl, rfl, rfl⟩, fun hpositive => absurd hpositive (by decide)⟩

/-- Stack and activations tell the same, and everything still to do is annotated right. -/
structure Configuration.Consistent (p : Program) (c : Configuration) : Prop where
  linked : c.machine.stack.Linked c.declarations
  inScope : ∀ a ∈ c.activations,
    ∃ s, p.scope? a.declaration = some s ∧ statementsAnnotatedIn s.visible a.todo
  base : ∃ above base, c.activations = above ++ [base] ∧ base.call = none

namespace Configuration

variable {p : Program} {limit : DepthLimit} {c c' : Configuration}

theorem Consistent.start (hp : p.Annotated) : p.start.Consistent p := by
  constructor
  · exact p.linked_initialMachine
  · intro a ha
    simp only [Program.start, List.mem_singleton] at ha
    subst a
    exact ⟨p.globalScope, rfl, hp [] p.globalScope rfl⟩
  · exact ⟨[], _, rfl, rfl⟩

theorem Consistent.goOn {m m' : Machine} {declaration : DeclarationPath}
    {call : Option (String × Span)} {todo todo' : List Statement} {below : List Activation}
    (h : Consistent p ⟨m, ⟨declaration, call, todo⟩ :: below⟩)
    (hstack : m'.stack.Linked (Configuration.mk m' (⟨declaration, call, todo⟩ :: below)).declarations)
    (htodo : ∀ s, p.scope? declaration = some s → statementsAnnotatedIn s.visible todo →
      statementsAnnotatedIn s.visible todo') :
    Consistent p ⟨m', ⟨declaration, call, todo'⟩ :: below⟩ := by
  obtain ⟨hfirst, hbelow⟩ := List.forall_mem_cons.mp h.inScope
  obtain ⟨s, hs, hannotated⟩ := hfirst
  refine ⟨?_, ?_, ?_⟩
  · rw [declarations_cons] at hstack ⊢
    exact hstack
  · exact List.forall_mem_cons.mpr ⟨⟨s, hs, htodo s hs hannotated⟩, hbelow⟩
  · obtain ⟨above, base, heq, hbase⟩ := h.base
    cases above with
    | nil =>
        cases heq
        exact ⟨[], _, rfl, hbase⟩
    | cons first above =>
        cases heq
        exact ⟨_ :: above, base, rfl, hbase⟩

theorem Consistent.step (hp : p.Annotated) (h : c.Consistent p)
    (hstep : Step p.block limit c c') : c'.Consistent p := by
  cases hstep with
  | @leave m declaration name span below =>
      obtain ⟨above, base, heq, hbase⟩ := h.base
      cases above with
      | nil =>
          cases heq
          contradiction
      | cons first above =>
          cases heq
          have hlinked := h.linked
          rw [declarations_cons] at hlinked
          refine ⟨hlinked.pop, ?_, ⟨above, base, rfl, hbase⟩⟩
          exact (List.forall_mem_cons.mp h.inScope).2
  | @compound m declaration call span children rest below =>
      refine h.goOn h.linked ?_
      rintro s - ⟨hchildren, hrest⟩
      exact statementsAnnotatedIn_append.mpr ⟨hchildren, hrest⟩
  | @assignment m m' declaration call span target value rest below hassign =>
      obtain ⟨v, symbol, place, -, -, rfl⟩ := Machine.assign_eq_ok hassign
      refine h.goOn (h.linked.set place symbol.name _) ?_
      rintro s - ⟨-, hrest⟩
      exact hrest
  | @call m m' declaration call callee entered rest below henter =>
      obtain ⟨hfirst, -⟩ := List.forall_mem_cons.mp h.inScope
      obtain ⟨s, hs, hcallee, -⟩ := hfirst
      obtain ⟨q, k, members, hsymbol, -, hk, -, hstack, rfl⟩ := Call.enter_eq_ok henter
      have hlinked := h.linked
      rw [declarations_cons] at hlinked
      obtain ⟨above, place, t, k', hlevel, hdeclaration, ht, -, hk', hnearest⟩ :=
        hlinked.holder_of_procedure hs (hcallee.symbol q hsymbol)
      rw [hk, Option.some.injEq] at hk'
      subst k'
      have hbelow : Consistent p ⟨m, ⟨declaration, call, rest⟩ :: below⟩ := by
        refine h.goOn h.linked ?_
        rintro s - ⟨-, hrest⟩
        exact hrest
      refine ⟨?_, ?_, ?_⟩
      · rw [declarations_cons, hstack, declarations_cons]
        exact hlinked.push_call hlevel hdeclaration hnearest members
      · refine List.forall_mem_cons.mpr ⟨⟨t, ht, ?_⟩, hbelow.inScope⟩
        rw [Program.body_of_scope? ht]
        exact hp _ t ht
      · obtain ⟨above', base, heq, hbase⟩ := hbelow.base
        exact ⟨_ :: above', base, congrArg (List.cons _) heq, hbase⟩

theorem consistent_of_reaches (hp : p.Annotated) (hc : p.Reaches limit c) : c.Consistent p := by
  induction hc with
  | refl => exact .start hp
  | tail _ hstep ih => exact ih.step hp (step_of_eq_next hstep)

end Configuration

/-! ## The bound on the stack -/

namespace DepthLimit

theorem add_sub_one_div {units one : Nat} (hone : 0 < one) (hwhole : units % one = 0) :
    (units + (one - 1)) / one = units / one := by
  have hunits : units = one * (units / one) :=
    (Nat.mul_div_cancel' (Nat.dvd_of_mod_eq_zero hwhole)).symm
  have hrest : (one - 1) / one = 0 := Nat.div_eq_of_lt (by omega)
  rw [hunits, Nat.mul_add_div hone, hrest, Nat.mul_div_cancel_left _ hone, Nat.add_zero]

/-- A limit that is an integer allows as many frames as it says. -/
theorem frames_of_toInt? {l : DepthLimit} {n : Int} (h : l.number.toInt? = some n) :
    l.frames = n.toNat := by
  obtain ⟨number⟩ := l
  cases number with
  | nan => simp [Binary64.toInt?] at h
  | infinity negative => simp [Binary64.toInt?] at h
  | finite negative units hgrid =>
      simp only [Binary64.toInt?, Option.ite_none_right_eq_some, Option.some.injEq] at h
      obtain ⟨hwhole, rfl⟩ := h
      cases negative with
      | true =>
          simp only [frames, if_true]
          exact (Int.toNat_of_nonpos (Int.neg_nonpos_of_nonneg (Int.natCast_nonneg _))).symm
      | false =>
          simp only [frames, add_sub_one_div Binary64.one_pos hwhole, Bool.false_eq_true, if_false,
            Int.toNat_natCast]

end DepthLimit

namespace Configuration

variable {p : Program} {limit : DepthLimit} {c : Configuration}

theorem depth_le_of_reaches (hc : p.Reaches limit c) :
    c.machine.stack.depth ≤ max 1 limit.frames := by
  induction hc with
  | refl => exact Nat.le_max_left 1 limit.frames
  | tail _ hstep ih =>
      cases step_of_eq_next hstep with
      | leave =>
          refine Nat.le_trans ?_ ih
          simp [Machine.leave, Machine.emit, CallStack.pop, CallStack.depth]
      | compound => exact ih
      | assignment hassign =>
          obtain ⟨v, symbol, place, -, -, rfl⟩ := Machine.assign_eq_ok hassign
          simpa [CallStack.depth, CallStack.set] using ih
      | call henter =>
          obtain ⟨q, k, members, -, hroom, -, -, hstack, -⟩ := Call.enter_eq_ok henter
          rw [hstack]
          simp only [CallStack.depth, CallStack.push, Array.size_push]
          exact Nat.le_trans hroom (Nat.le_max_right 1 limit.frames)

/-! ## What static links promise -/

/-- What static links promise of a state of a run of a program. -/
structure StaticallyLinked (p : Program) (limit : DepthLimit) (c : Configuration) : Prop where
  /-- Every frame is that of an activation of a declaration of the program. -/
  depth : c.machine.stack.depth = c.declarations.length
  declared : ∀ d ∈ c.declarations, ∃ s, p.scope? d = some s
  bounded : c.machine.stack.depth ≤ max 1 limit.frames
  bottom : ∃ f, c.machine.stack.frames[0]? = some f ∧ c.declarations[0]? = some [] ∧
    f.role = .program ∧ f.nesting = 1 ∧ f.level = 1 ∧ f.link = none
  nesting : ∀ (i : Nat) f, c.machine.stack.frames[i]? = some f → f.nesting = i + 1
  /-- The link of a procedure's frame leads to the most recent activation, below it, of the block
  that declares the procedure. -/
  links : ∀ (i : Nat) f, 0 < i → c.machine.stack.frames[i]? = some f → f.role = .procedure ∧
    ∃ parent place k g, c.declarations[i]? = some (parent ++ [place]) ∧ f.link = some k ∧
      c.machine.stack.frames[k]? = some g ∧ f.level = g.level + 1 ∧
      MostRecent c.declarations parent i k
  /-- Seen from the top, the frame of a level is the most recent activation of the block of that
  level around the one that runs. -/
  holders : ∀ d, c.declarations.getLast? = some d → ∀ a, a <+: d →
    ∃ k, c.machine.stack.holder? (a.length + 1) = some k ∧
      MostRecent c.declarations a c.machine.stack.depth k
  found : ∀ e, c.step p.block limit = .failed e → e.FrameFound

theorem Consistent.found (h : c.Consistent p) {e : EvaluationError}
    (hfailed : c.step p.block limit = .failed e) : e.FrameFound := by
  obtain ⟨m, activations⟩ := c
  have hlinked := h.linked
  obtain ⟨declaration, call, rest, below,
    ⟨span, target, value, heq, herror⟩ | ⟨callee, heq, henter⟩⟩ := eq_of_step_failed hfailed
  · simp only at heq
    subst activations
    rw [declarations_cons] at hlinked
    obtain ⟨⟨s, hs, ⟨htarget, hvalue⟩, -⟩, -⟩ := List.forall_mem_cons.mp h.inScope
    rcases herror with hvalueError | hlocate
    · exact Expr.eval_frameFound (hlinked.reaches hs) hvalue hvalueError
    · exact VariableRef.locate_frameFound (hlinked.reaches hs) htarget hlocate
  · simp only at heq
    subst activations
    rw [declarations_cons] at hlinked
    obtain ⟨⟨s, hs, hcallee, -⟩, -⟩ := List.forall_mem_cons.mp h.inScope
    exact Call.enter_frameFound (hlinked.reaches hs) hcallee henter

theorem Consistent.first (h : c.Consistent p) : c.declarations[0]? = some [] := by
  obtain ⟨above, base, heq, -⟩ := h.base
  have hdeclarations : c.declarations =
      base.declaration :: (above.map Activation.declaration).reverse := by
    simp [declarations, heq]
  have hbase : c.declarations[0]? = some base.declaration := by rw [hdeclarations]; rfl
  obtain ⟨f, -, hlinked⟩ := h.linked.exists_frame hbase
  rw [hbase, (hlinked.bottom rfl).2.1]

theorem Consistent.staticallyLinked (h : c.Consistent p)
    (hbounded : c.machine.stack.depth ≤ max 1 limit.frames) : c.StaticallyLinked p limit := by
  have hdepth := h.linked.depth
  refine ⟨hdepth, ?_, hbounded, ?_, ?_, ?_, ?_, ?_⟩
  · intro d hd
    rw [declarations, List.mem_reverse, List.mem_map] at hd
    obtain ⟨a, ha, rfl⟩ := hd
    obtain ⟨s, hs, -⟩ := h.inScope a ha
    exact ⟨s, hs⟩
  · have hfirst : c.declarations[0]? = some [] := h.first
    obtain ⟨f, hf, hlinked⟩ := h.linked.exists_frame hfirst
    obtain ⟨hrole, -, hlink⟩ := hlinked.bottom rfl
    exact ⟨f, hf, hfirst, hrole, hlinked.nesting, hlinked.level, hlink⟩
  · intro i f hf
    obtain ⟨d, -, hlinked⟩ := h.linked.exists_declaration hf
    exact hlinked.nesting
  · intro i f hpositive hf
    obtain ⟨d, hd, hlinked⟩ := h.linked.exists_declaration hf
    obtain ⟨hrole, parent, place, k, rfl, hlink, hnearest⟩ := hlinked.link hpositive
    obtain ⟨g, hg, hparent⟩ := h.linked.exists_frame hnearest.2.1
    refine ⟨hrole, parent, place, k, g, hd, hlink, hg, ?_, hnearest.mostRecent⟩
    rw [hlinked.level, hparent.level, List.length_append, List.length_singleton]
  · intro d hd a ha
    obtain ⟨below, hsplit⟩ := List.getLast?_eq_some_iff.mp hd
    have hlinked := h.linked
    rw [hsplit] at hlinked ⊢
    obtain ⟨k, hk, hnearest⟩ := hlinked.holder?_eq ha
    exact ⟨k, hk, hnearest.mostRecent⟩
  · intro e he
    exact h.found he

end Configuration

namespace Program

variable {p : Program}

/-- In every state of a run of a program that went through analysis, whether it was accepted or not,
frames are linked to the most recent activations of the blocks around them. -/
theorem static_links {source : List Char} {file : String} {detailed : Bool}
    (hparse : parse source file detailed = .ok p) (limit : DepthLimit) :
    (∀ c, p.analyze.program.Reaches limit c → c.StaticallyLinked p.analyze.program limit) ∧
      (∀ n, limit.number.toInt? = some n → ∀ c, p.analyze.program.Reaches limit c →
        (c.machine.stack.depth : Int) ≤ max 1 n) ∧
      ∀ e, (p.analyze.program.run limit).error = some e → e.FrameFound := by
  have hannotated := annotated_of_analyze (fromSource_of_parse hparse)
  refine ⟨?_, ?_, ?_⟩
  · intro c hc
    exact (Configuration.consistent_of_reaches hannotated hc).staticallyLinked
      (Configuration.depth_le_of_reaches hc)
  · intro n hn c hc
    have hbounded := Configuration.depth_le_of_reaches hc
    rw [DepthLimit.frames_of_toInt? hn] at hbounded
    omega
  · intro e he
    obtain ⟨c, hc, -, -, -, hend⟩ := run_reaches p.analyze.program limit
    rw [he] at hend
    exact (Configuration.consistent_of_reaches hannotated hc).found hend

/-- A procedure that calls itself fills the stack up to the limit. -/
theorem static_links_of_recursion :
    ∃ p, parse "program p; procedure q; begin q() end; begin q() end.".toList "p.pas" false = .ok p ∧
      ∃ c, p.analyze.program.Reaches (.ofInt 3) c ∧ c.machine.stack.depth = 3 ∧
        c.StaticallyLinked p.analyze.program (.ofInt 3) := by
  have hdeep : (parse "program p; procedure q; begin q() end; begin q() end.".toList "p.pas"
      false).toOption.any (fun p => (p.analyze.program.run (.ofInt 3)).stack.depth = 3) = true := by
    decide +kernel
  obtain ⟨p, hp, hdepth⟩ := parse_of_any hdeep
  obtain ⟨c, hc, -, hstack, -⟩ := run_reaches p.analyze.program (.ofInt 3)
  refine ⟨p, hp, c, hc, ?_, (static_links hp (.ofInt 3)).1 c hc⟩
  rw [← hstack]
  exact of_decide_eq_true hdepth

end Program

end NestedPascal
