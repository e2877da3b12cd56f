import Mathlib.Logic.Relation
import NestedPascal.Proofs.Run.Evaluation

/-!
# Runs step by step

A run taken apart into steps: each step looks at one statement of the innermost activation that is
not done, or leaves an activation that is.  The states that a run goes through are the configurations
that are reached from its start, and where the steps end is where the run ends.
-/

namespace NestedPascal

/-- An activation of a block and what it has still to do. -/
structure Activation where
  declaration : DeclarationPath
  /-- The name of the procedure and the place of its call; nothing calls the program's own block. -/
  call : Option (String × Span)
  todo : List Statement

structure Configuration where
  machine : Machine
  /-- Innermost first. -/
  activations : List Activation

inductive Outcome where
  | next (c : Configuration)
  | finished
  | failed (e : EvaluationError)

/-- Enters the procedure that a call is for, without executing its body. -/
def Call.enter (program : Block) (limit : DepthLimit) (c : Call) (m : Machine) :
    Except EvaluationError (Machine × Activation) :=
  match c.symbol with
  | none => .error ⟨.unresolvedCall c.name, c.span⟩
  | some p =>
    if limit.frames ≤ m.stack.depth then
      .error ⟨.depthLimit limit c.name p.name, c.span⟩
    else
      match c.frame p m.stack with
      | .error e => .error e
      | .ok frame =>
        let entered := { m with stack := m.stack.push frame }
        .ok (entered.emit (.callStart p.name entered.stack.depth) c.span,
          ⟨p.declaration, some (p.name, c.span),
            ((program.at? p.declaration).map Block.body).getD []⟩)

def Machine.leave (m : Machine) (name : String) (span : Span) : Machine :=
  let left := m.emit (.callEnd name m.stack.depth) span
  { left with stack := left.stack.pop }

def Configuration.step (program : Block) (limit : DepthLimit) (c : Configuration) : Outcome :=
  match c.activations with
  | [] => .finished
  | a :: below =>
    match a.todo with
    | [] =>
      match a.call with
      | none => .finished
      | some (name, span) => .next ⟨c.machine.leave name span, below⟩
    | .compound _ children :: rest =>
      .next ⟨c.machine, { a with todo := children ++ rest } :: below⟩
    | .assignment _ target value :: rest =>
      match c.machine.assign target value with
      | .error failure => .failed failure.error
      | .ok m => .next ⟨m, { a with todo := rest } :: below⟩
    | .call call :: rest =>
      match call.enter program limit c.machine with
      | .error e => .failed e
      | .ok (m, entered) => .next ⟨m, entered :: { a with todo := rest } :: below⟩

/-- One configuration is reached from another by any number of steps. -/
def Configuration.Reaches (program : Block) (limit : DepthLimit) :
    Configuration → Configuration → Prop :=
  Relation.ReflTransGen fun c c' => c.step program limit = .next c'

def Program.start (p : Program) : Configuration :=
  ⟨p.initialMachine, [⟨[], none, p.block.body⟩]⟩

/-- The states that a run of a program goes through. -/
def Program.Reaches (p : Program) (limit : DepthLimit) (c : Configuration) : Prop :=
  Configuration.Reaches p.block limit p.start c

/-! ## What a step can do -/

/-- The steps by what they look at. -/
inductive Configuration.Step (program : Block) (limit : DepthLimit) :
    Configuration → Configuration → Prop where
  | leave {m declaration name span below} :
    Step program limit ⟨m, ⟨declaration, some (name, span), []⟩ :: below⟩
      ⟨m.leave name span, below⟩
  | compound {m declaration call span children rest below} :
    Step program limit ⟨m, ⟨declaration, call, .compound span children :: rest⟩ :: below⟩
      ⟨m, ⟨declaration, call, children ++ rest⟩ :: below⟩
  | assignment {m m' declaration call span target value rest below} :
    m.assign target value = .ok m' →
    Step program limit ⟨m, ⟨declaration, call, .assignment span target value :: rest⟩ :: below⟩
      ⟨m', ⟨declaration, call, rest⟩ :: below⟩
  | call {m m' declaration call c entered rest below} :
    c.enter program limit m = .ok (m', entered) →
    Step program limit ⟨m, ⟨declaration, call, .call c :: rest⟩ :: below⟩
      ⟨m', entered :: ⟨declaration, call, rest⟩ :: below⟩

theorem Configuration.step_of_eq_next {program : Block} {limit : DepthLimit}
    {c c' : Configuration} (h : c.step program limit = .next c') : Step program limit c c' := by
  obtain ⟨m, activations⟩ := c
  unfold step at h
  split at h
  next => contradiction
  next a below hactivations =>
    simp only at hactivations
    subst activations
    obtain ⟨declaration, call, todo⟩ := a
    split at h
    next htodo =>
      simp only at htodo
      subst todo
      split at h
      next => contradiction
      next name span hcall =>
        simp only at hcall
        subst call
        cases h
        exact .leave
    next span children rest htodo =>
      simp only at htodo
      subst todo
      cases h
      exact .compound
    next span target value rest htodo =>
      simp only at htodo
      subst todo
      split at h
      next => contradiction
      next m' hassign =>
        cases h
        exact .assignment hassign
    next c rest htodo =>
      simp only at htodo
      subst todo
      split at h
      next => contradiction
      next m' entered henter =>
        cases h
        exact .call henter

theorem Machine.assign_eq_ok {m m' : Machine} {target : VariableRef} {value : Expr}
    (h : m.assign target value = .ok m') :
    ∃ v symbol place, value.eval m.stack = .ok v ∧
      target.locate m.stack = .ok (symbol, place) ∧
      m' = { m with stack := m.stack.set place symbol.name (v.widen symbol.kind) } := by
  unfold assign withResult at h
  split at h
  next v hvalue =>
    split at h
    next located hlocated =>
      cases h
      exact ⟨v, located.1, located.2, hvalue, hlocated, rfl⟩
    next => contradiction
  next => contradiction

theorem Machine.assign_eq_error {m : Machine} {target : VariableRef} {value : Expr}
    {failure : Machine.Failure} (h : m.assign target value = .error failure) :
    failure.machine = m ∧ (value.eval m.stack = .error failure.error ∨
      target.locate m.stack = .error failure.error) := by
  unfold assign withResult at h
  split at h
  next v hvalue =>
    split at h
    next => contradiction
    next e hlocated =>
      cases h
      exact ⟨rfl, .inr hlocated⟩
  next e hvalue =>
    cases h
    exact ⟨rfl, .inl hvalue⟩

theorem Call.enter_eq_ok {program : Block} {limit : DepthLimit} {c : Call} {m m' : Machine}
    {entered : Activation} (h : c.enter program limit m = .ok (m', entered)) :
    ∃ p place members, c.symbol = some p ∧ m.stack.depth < limit.frames ∧
      m.stack.holder? p.level = some place ∧
      bindArguments m.stack c .empty p.params c.args = .ok members ∧
      m'.stack = m.stack.push
        ⟨p.name, .procedure, m.stack.depth + 1, p.level + 1, some place, members⟩ ∧
      entered = ⟨p.declaration, some (p.name, c.span),
        ((program.at? p.declaration).map Block.body).getD []⟩ := by
  unfold enter at h
  split at h
  next => contradiction
  next p hsymbol =>
    split at h
    next => contradiction
    next hroom =>
      split at h
      next => contradiction
      next frame hframe =>
        obtain ⟨place, members, hplace, hmembers, rfl⟩ := Call.frame_eq_ok hframe
        cases h
        exact ⟨p, place, members, hsymbol, by omega, hplace, hmembers, rfl, rfl⟩

theorem Call.enter_eq_error {program : Block} {limit : DepthLimit} {c : Call} {m : Machine}
    {e : EvaluationError} (h : c.enter program limit m = .error e) :
    (c.symbol = none ∧ e = ⟨.unresolvedCall c.name, c.span⟩) ∨
      ∃ p, c.symbol = some p ∧
        (e = ⟨.depthLimit limit c.name p.name, c.span⟩ ∨ c.frame p m.stack = .error e) := by
  unfold enter at h
  split at h
  next hsymbol =>
    cases h
    exact .inl ⟨hsymbol, rfl⟩
  next p hsymbol =>
    split at h
    next =>
      cases h
      exact .inr ⟨p, hsymbol, .inl rfl⟩
    next =>
      split at h
      next e' hframe =>
        cases h
        exact .inr ⟨p, hsymbol, .inr hframe⟩
      next => contradiction

/-- A step fails in an assignment or at a call. -/
theorem Configuration.eq_of_step_failed {program : Block} {limit : DepthLimit}
    {c : Configuration} {e : EvaluationError} (h : c.step program limit = .failed e) :
    ∃ declaration call rest below,
      (∃ span target value, c.activations =
          ⟨declaration, call, .assignment span target value :: rest⟩ :: below ∧
        (value.eval c.machine.stack = .error e ∨ target.locate c.machine.stack = .error e)) ∨
      ∃ callee, c.activations = ⟨declaration, call, .call callee :: rest⟩ :: below ∧
        callee.enter program limit c.machine = .error e := by
  obtain ⟨m, activations⟩ := c
  unfold step at h
  split at h
  next => contradiction
  next a below hactivations =>
    simp only at hactivations
    subst activations
    obtain ⟨declaration, call, todo⟩ := a
    split at h
    next htodo =>
      split at h
      next => contradiction
      next => contradiction
    next => contradiction
    next span target value rest htodo =>
      simp only at htodo
      subst todo
      split at h
      next failure hassign =>
        cases h
        exact ⟨declaration, call, rest, below,
          .inl ⟨span, target, value, rfl, (Machine.assign_eq_error hassign).2⟩⟩
      next => contradiction
    next callee rest htodo =>
      simp only at htodo
      subst todo
      split at h
      next e' henter =>
        cases h
        exact ⟨declaration, call, rest, below, .inr ⟨callee, rfl, henter⟩⟩
      next => contradiction

/-! ## The run is where the steps end -/

/-- Steps through statements at the head of what is to do come to the result of a run of them. -/
structure StepsTo (program : Block) (limit : DepthLimit) (ss : List Statement) (m : Machine)
    (result : Machine.Step) : Prop where
  passes : ∀ m', result = .ok m' → m'.stack.depth = m.stack.depth ∧
    ∀ (a : Activation) below rest,
      Configuration.Reaches program limit ⟨m, { a with todo := ss ++ rest } :: below⟩
        ⟨m', { a with todo := rest } :: below⟩
  fails : ∀ failure, result = .error failure → ∀ (a : Activation) below rest, ∃ activations,
    Configuration.Reaches program limit ⟨m, { a with todo := ss ++ rest } :: below⟩
        ⟨failure.machine, activations⟩ ∧
      (Configuration.mk failure.machine activations).step program limit = .failed failure.error

section

variable {program : Block} {limit : DepthLimit} {m : Machine}

theorem assign_stepsTo (span : Span) (target : VariableRef) (value : Expr) :
    StepsTo program limit [.assignment span target value] m (m.assign target value) := by
  constructor
  · intro m' hassign
    constructor
    · obtain ⟨v, symbol, place, -, -, rfl⟩ := Machine.assign_eq_ok hassign
      simp [CallStack.depth, CallStack.set]
    · intro a below rest
      apply Relation.ReflTransGen.single
      simp [Configuration.step, hassign]
  · intro failure hassign a below rest
    rw [(Machine.assign_eq_error hassign).1]
    refine ⟨_, .refl, ?_⟩
    simp [Configuration.step, hassign]

theorem StepsTo.nil : StepsTo program limit [] m (.ok m) := by
  constructor
  · intro m' hm'
    cases hm'
    exact ⟨rfl, fun _ _ _ => .refl⟩
  · intro failure hfailure
    contradiction

theorem StepsTo.append {front back : List Statement} {result : Machine.Step}
    {goOn : Machine → Machine.Step} (hfront : StepsTo program limit front m result)
    (hback : ∀ m', result = .ok m' → StepsTo program limit back m' (goOn m')) :
    StepsTo program limit (front ++ back) m (result.bind goOn) := by
  constructor
  · intro m'' hm''
    cases result with
    | error failure => contradiction
    | ok m' =>
        obtain ⟨hdepth, hreaches⟩ := hfront.passes m' rfl
        obtain ⟨hdepth', hreaches'⟩ := (hback m' rfl).passes m'' hm''
        refine ⟨hdepth'.trans hdepth, ?_⟩
        intro a below rest
        rw [List.append_assoc]
        exact (hreaches a below (back ++ rest)).trans (hreaches' a below rest)
  · intro failure hfailure a below rest
    rw [List.append_assoc]
    cases result with
    | error failure' =>
        cases hfailure
        exact hfront.fails failure rfl a below (back ++ rest)
    | ok m' =>
        obtain ⟨-, hreaches⟩ := hfront.passes m' rfl
        obtain ⟨activations, hreaches', hfailed⟩ :=
          (hback m' rfl).fails failure hfailure a below rest
        exact ⟨activations, (hreaches a below (back ++ rest)).trans hreaches', hfailed⟩

theorem StepsTo.compound {children : List Statement} {result : Machine.Step} (span : Span)
    (h : StepsTo program limit children m result) :
    StepsTo program limit [.compound span children] m result := by
  have hopen (a : Activation) (below : List Activation) (rest : List Statement) :
      Configuration.Reaches program limit
        ⟨m, { a with todo := [.compound span children] ++ rest } :: below⟩
        ⟨m, { a with todo := children ++ rest } :: below⟩ := .single rfl
  constructor
  · intro m' hm'
    obtain ⟨hdepth, hreaches⟩ := h.passes m' hm'
    exact ⟨hdepth, fun a below rest => (hopen a below rest).trans (hreaches a below rest)⟩
  · intro failure hfailure a below rest
    obtain ⟨activations, hreaches, hfailed⟩ := h.fails failure hfailure a below rest
    exact ⟨activations, (hopen a below rest).trans hreaches, hfailed⟩

section

variable {onCall : Call → Machine → Machine.Step} {depth : Nat}

mutual

theorem Statement.execute_stepsTo
    (hcalls : ∀ c m, m.stack.depth = depth → StepsTo program limit [.call c] m (onCall c m)) :
    (s : Statement) → (m : Machine) → m.stack.depth = depth →
      StepsTo program limit [s] m (s.execute onCall m)
  | .compound span children, m, hm => by
    rw [Statement.execute]
    exact .compound span (executeAll_stepsTo hcalls children m hm)
  | .assignment span target value, m, _ => by
    rw [Statement.execute]
    exact assign_stepsTo span target value
  | .call c, m, hm => by
    rw [Statement.execute]
    exact hcalls c m hm

theorem executeAll_stepsTo
    (hcalls : ∀ c m, m.stack.depth = depth → StepsTo program limit [.call c] m (onCall c m)) :
    (ss : List Statement) → (m : Machine) → m.stack.depth = depth →
      StepsTo program limit ss m (executeAll onCall ss m)
  | [], m, _ => by
    rw [executeAll]
    exact .nil
  | s :: rest, m, hm => by
    have hfirst := Statement.execute_stepsTo hcalls s m hm
    have hboth := hfirst.append fun m' hm' =>
      executeAll_stepsTo hcalls rest m' ((hfirst.passes m' hm').1.trans hm)
    rw [executeAll]
    exact hboth

end

end

theorem StepsTo.refused {c : Call} {e : EvaluationError} (h : c.enter program limit m = .error e) :
    StepsTo program limit [.call c] m (.error ⟨e, m⟩) := by
  constructor
  · intro m' hm'
    contradiction
  · intro failure hfailure a below rest
    cases hfailure
    refine ⟨_, .refl, ?_⟩
    simp [Configuration.step, h]

theorem StepsTo.entered {c : Call} {entered : Machine} {body : List Statement}
    {result : Machine.Step} {declaration : DeclarationPath} {name : String} {span : Span}
    (h : c.enter program limit m = .ok (entered, ⟨declaration, some (name, span), body⟩))
    (hdepth : entered.stack.depth = m.stack.depth + 1)
    (hbody : StepsTo program limit body entered result) :
    StepsTo program limit [.call c] m (result.map (·.leave name span)) := by
  have henter (a : Activation) (below : List Activation) (rest : List Statement) :
      Configuration.Reaches program limit ⟨m, { a with todo := [.call c] ++ rest } :: below⟩
        ⟨entered,
          ⟨declaration, some (name, span), body ++ []⟩ :: { a with todo := rest } :: below⟩ := by
    apply Relation.ReflTransGen.single
    simp [Configuration.step, h]
  constructor
  · intro m' hm'
    cases result with
    | error failure => contradiction
    | ok done =>
        cases hm'
        obtain ⟨hkept, hreaches⟩ := hbody.passes done rfl
        refine ⟨?_, ?_⟩
        · simp only [Machine.leave, Machine.emit, CallStack.pop, CallStack.depth, Array.size_pop]
          change done.stack.depth - 1 = m.stack.depth
          omega
        · intro a below rest
          have hbelow := hreaches ⟨declaration, some (name, span), body⟩
            ({ a with todo := rest } :: below) []
          exact ((henter a below rest).trans hbelow).tail rfl
  · intro failure hfailure a below rest
    cases result with
    | ok done => contradiction
    | error _ =>
        cases hfailure
        obtain ⟨activations, hreaches, hfailed⟩ := hbody.fails failure rfl
          ⟨declaration, some (name, span), body⟩ ({ a with todo := rest } :: below) []
        exact ⟨activations, (henter a below rest).trans hreaches, hfailed⟩

/-- What is allowed to a call is what the limit leaves above the stack. -/
theorem Call.execute_stepsTo (allowed : Nat) (c : Call) (m : Machine)
    (hallowed : limit.frames - m.stack.depth = allowed) :
    StepsTo program limit [.call c] m (c.execute program limit allowed m) := by
  -- A body runs one frame higher, where the limit allows one call less.
  induction allowed generalizing c m with
  | zero =>
      rw [Call.execute]
      cases hsymbol : c.symbol with
      | none => exact .refused (by simp [Call.enter, hsymbol])
      | some p =>
          have hfull : limit.frames ≤ m.stack.depth := by omega
          exact .refused (by simp [Call.enter, hsymbol, hfull])
  | succ allowed ih =>
      rw [Call.execute]
      cases hsymbol : c.symbol with
      | none => exact .refused (by simp [Call.enter, hsymbol])
      | some p =>
          have hroom : ¬ limit.frames ≤ m.stack.depth := by omega
          cases hframe : c.frame p m.stack with
          | error e =>
              simp only [hframe, Machine.withResult]
              exact .refused (by simp [Call.enter, hsymbol, hroom, hframe])
          | ok frame =>
              have hdepth : (m.stack.push frame).depth = m.stack.depth + 1 := by
                simp [CallStack.depth, CallStack.push]
              have henter : c.enter program limit m =
                  .ok ({ m with stack := m.stack.push frame }.emit
                      (.callStart p.name (m.stack.push frame).depth) c.span,
                    ⟨p.declaration, some (p.name, c.span),
                      ((program.at? p.declaration).map Block.body).getD []⟩) := by
                simp only [Call.enter, hsymbol, if_neg hroom, hframe]
              have hcalls (c' : Call) (m' : Machine) (hm' : m'.stack.depth = m.stack.depth + 1) :=
                ih c' m' (by omega)
              simp only [hframe, Machine.withResult]
              exact .entered henter hdepth (executeAll_stepsTo hcalls _ _ hdepth)

end

/-- Whatever is reached leads on to where the steps end. -/
theorem Configuration.reaches_end {program : Block} {limit : DepthLimit}
    {start final c : Configuration} (hc : Reaches program limit start c)
    (hfinal : Reaches program limit start final)
    (hend : ∀ c', final.step program limit ≠ .next c') : Reaches program limit c final := by
  have hunique : Relator.RightUnique
      fun (c c' : Configuration) => c.step program limit = .next c' := by
    intro c c₁ c₂ h₁ h₂
    rw [h₁, Outcome.next.injEq] at h₂
    exact h₂
  rcases Relation.ReflTransGen.total_of_right_unique hunique hc hfinal with h | h
  · exact h
  · rcases Relation.ReflTransGen.cases_head h with heq | ⟨c', hstep, -⟩
    · rw [heq]
      exact .refl
    · exact absurd hstep (hend c')

/-- A run ends where its steps end, with the stack and the events as they are there. -/
theorem Program.run_reaches (p : Program) (limit : DepthLimit) :
    ∃ c, p.Reaches limit c ∧ (∀ c', p.Reaches limit c' → Configuration.Reaches p.block limit c' c) ∧
      (p.run limit).stack = c.machine.stack ∧
      (∃ last, (p.run limit).events = c.machine.events.push last) ∧
      match (p.run limit).error with
      | none => c.step p.block limit = .finished ∧ c.activations.length = 1
      | some e => c.step p.block limit = .failed e := by
  have hstart : p.initialMachine.stack.depth = 1 := rfl
  have hcalls (c : Call) (m : Machine) (hm : m.stack.depth = 1) :
      StepsTo p.block limit [.call c] m (c.execute p.block limit limit.calls m) :=
    Call.execute_stepsTo limit.calls c m (by rw [hm, DepthLimit.calls])
  have hsteps := executeAll_stepsTo hcalls p.block.body p.initialMachine hstart
  cases hresult : executeAll (Call.execute p.block limit limit.calls) p.block.body
      p.initialMachine with
  | ok m =>
      obtain ⟨-, hreaches⟩ := hsteps.passes m hresult
      have hfinal := hreaches ⟨[], none, p.block.body⟩ [] []
      rw [List.append_nil] at hfinal
      refine ⟨_, hfinal, ?_, ?_⟩
      · intro c' hc'
        apply Configuration.reaches_end hc' hfinal
        simp [Configuration.step]
      · simp only [run, hresult]
        exact ⟨rfl, ⟨_, rfl⟩, rfl, rfl⟩
  | error failure =>
      obtain ⟨activations, hfinal, hfailed⟩ :=
        hsteps.fails failure hresult ⟨[], none, p.block.body⟩ [] []
      rw [List.append_nil] at hfinal
      refine ⟨_, hfinal, ?_, ?_⟩
      · intro c' hc'
        apply Configuration.reaches_end hc' hfinal
        simp [hfailed]
      · simp only [run, hresult]
        exact ⟨rfl, ⟨_, rfl⟩, hfailed⟩

namespace Configuration

variable {p : Program} {limit : DepthLimit} {c c' : Configuration}

theorem Step.depth_eq (hdepth : c.machine.stack.depth = c.activations.length)
    (hstep : Step p.block limit c c') : c'.machine.stack.depth = c'.activations.length := by
  cases hstep with
  | leave =>
      simp only [CallStack.depth, List.length_cons] at hdepth
      simp [Machine.leave, Machine.emit, CallStack.pop, CallStack.depth, hdepth]
  | compound => exact hdepth
  | assignment hassign =>
      obtain ⟨v, symbol, place, -, -, rfl⟩ := Machine.assign_eq_ok hassign
      simpa [CallStack.depth, CallStack.set] using hdepth
  | call henter =>
      obtain ⟨q, place, members, -, -, -, -, hstack, -⟩ := Call.enter_eq_ok henter
      simp only [CallStack.depth, List.length_cons] at hdepth
      simp [hstack, CallStack.depth, CallStack.push, hdepth]

/-- Every activation has its frame, and no other frame is on the stack. -/
theorem depth_eq_of_reaches (hc : p.Reaches limit c) :
    c.machine.stack.depth = c.activations.length := by
  induction hc with
  | refl => rfl
  | tail _ hstep ih => exact (step_of_eq_next hstep).depth_eq ih

end Configuration

end NestedPascal
