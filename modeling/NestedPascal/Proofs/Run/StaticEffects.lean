import NestedPascal.Proofs.Run.StaticLinks

/-!
# Effects stay on the static chain

Executing a statement sets names only in frames that links lead to from the top, whatever calls it
makes: the link of a new frame leads to such a frame, and so do all links that follow.  A statement
that is done leaves the same frames behind, and one that fails leaves them under those of the calls
it failed in.  None of this needs the stack to be linked as annotations would have it.
-/

namespace NestedPascal

namespace CallStack

/-- The link of the frame at one place leads to another. -/
def Links (stack : CallStack (Frame Nat)) (i j : Nat) : Prop :=
  ∃ f, stack.frames[i]? = some f ∧ f.link = some j

/-- Links lead from the top to a place, the top being one of them. -/
def OnChain (stack : CallStack (Frame Nat)) : Nat → Prop :=
  Relation.ReflTransGen stack.Links (stack.depth - 1)

/-- The frames of a stack are at the bottom of another, with their members unless they may change. -/
def KeptBut (changing : Nat → Prop) (before after : CallStack (Frame Nat)) : Prop :=
  ∀ (i : Nat) f, before.frames[i]? = some f →
    ∃ members, after.frames[i]? = some { f with members := members } ∧
      (¬ changing i → members = f.members)

variable {stack before middle after : CallStack (Frame Nat)} {changing changing' : Nat → Prop}
  {f : Frame Nat} {i j level place : Nat}

theorem KeptBut.refl : KeptBut changing stack stack :=
  fun _ f hf => ⟨f.members, hf, fun _ => rfl⟩

theorem KeptBut.trans (h : KeptBut changing before middle) (h' : KeptBut changing middle after) :
    KeptBut changing before after := by
  intro i f hf
  obtain ⟨members, hmiddle, hkept⟩ := h i f hf
  obtain ⟨members', hafter, hkept'⟩ := h' i _ hmiddle
  exact ⟨members', hafter, fun hi => (hkept' hi).trans (hkept hi)⟩

theorem KeptBut.mono (h : KeptBut changing before after)
    (hmore : ∀ i, i < before.depth → changing i → changing' i) : KeptBut changing' before after := by
  intro i f hf
  obtain ⟨hlt, -⟩ := Array.getElem?_eq_some_iff.mp hf
  obtain ⟨members, hafter, hkept⟩ := h i f hf
  exact ⟨members, hafter, fun hi => hkept fun hchanging => hi (hmore i hlt hchanging)⟩

theorem KeptBut.links_eq (h : KeptBut changing before after) (hdepth : after.depth = before.depth) :
    after.Links = before.Links := by
  ext i j
  constructor
  · rintro ⟨g, hg, hlink⟩
    obtain ⟨hlt, -⟩ := Array.getElem?_eq_some_iff.mp hg
    rw [depth, depth] at hdepth
    have hf : before.frames[i]? = some before.frames[i] := Array.getElem?_eq_getElem (by omega)
    obtain ⟨members, hafter, -⟩ := h i _ hf
    rw [hg, Option.some.injEq] at hafter
    subst g
    exact ⟨_, hf, hlink⟩
  · rintro ⟨f, hf, hlink⟩
    obtain ⟨members, hafter, -⟩ := h i f hf
    exact ⟨_, hafter, hlink⟩

theorem KeptBut.onChain_eq (h : KeptBut changing before after)
    (hdepth : after.depth = before.depth) : after.OnChain = before.OnChain := by
  rw [OnChain, OnChain, h.links_eq hdepth, hdepth]

theorem links_of_holderFrom? (h : stack.holderFrom? level i = some j) :
    Relation.ReflTransGen stack.Links i j := by
  fun_induction holderFrom? stack level i with
  | case1 => contradiction
  | case2 i f hf hlevel next hlink hbelow ih => exact .head ⟨f, hf, hlink⟩ (ih h)
  | case3 => contradiction
  | case4 => contradiction
  | case5 =>
      cases h
      exact .refl
  | case6 => contradiction

/-- The frame of a level is on the chain. -/
theorem onChain_of_holder? (h : stack.holder? level = some place) : stack.OnChain place := by
  rw [holder?] at h
  split at h
  next => contradiction
  next => exact links_of_holderFrom? h

theorem keptBut_set (stack : CallStack (Frame Nat)) (place : Nat) (name : String) (value : Value) :
    KeptBut (· = place) stack (stack.set place name value) := by
  intro i f hf
  by_cases hi : i = place
  · refine ⟨(f.set name value).members, ?_, fun hne => absurd hi hne⟩
    simp [set, hi.symm, hf, Array.getElem?_modify, Frame.set]
  · refine ⟨f.members, ?_, fun _ => rfl⟩
    simp [set, Ne.symm hi, hf, Array.getElem?_modify]

theorem depth_set (stack : CallStack (Frame Nat)) (place : Nat) (name : String) (value : Value) :
    (stack.set place name value).depth = stack.depth := by
  simp [depth, set]

theorem depth_push (stack : CallStack (Frame Nat)) (f : Frame Nat) :
    (stack.push f).depth = stack.depth + 1 := by
  simp [depth, push]

theorem keptBut_push (stack : CallStack (Frame Nat)) (f : Frame Nat) :
    KeptBut changing stack (stack.push f) := by
  intro i g hg
  obtain ⟨hlt, -⟩ := Array.getElem?_eq_some_iff.mp hg
  refine ⟨g.members, ?_, fun _ => rfl⟩
  rw [push, Array.getElem?_push_lt hlt, ← hg, Array.getElem?_eq_getElem hlt]

theorem KeptBut.pop (h : KeptBut changing before after) (hdepth : before.depth < after.depth) :
    KeptBut changing before after.pop := by
  intro i f hf
  obtain ⟨hlt, -⟩ := Array.getElem?_eq_some_iff.mp hf
  rw [depth, depth] at hdepth
  obtain ⟨members, hafter, hkept⟩ := h i f hf
  refine ⟨members, ?_, hkept⟩
  rw [CallStack.pop, Array.getElem?_pop, if_pos (by omega), hafter]

/-- A chain that starts from a new frame goes on as one that was there. -/
theorem onChain_of_push (hlink : f.link = some place) (hplace : stack.OnChain place)
    (h : (stack.push f).OnChain i) : i = stack.depth ∨ stack.OnChain i := by
  rw [OnChain, depth_push, Nat.add_sub_cancel] at h
  induction h with
  | refl => exact .inl rfl
  | @tail j k _ hlinks ih =>
      right
      obtain ⟨g, hg, hnext⟩ := hlinks
      rw [push, Array.getElem?_push] at hg
      split at hg
      next =>
        cases hg
        rw [hlink, Option.some.injEq] at hnext
        exact hnext ▸ hplace
      next htop =>
        have hchain := ih.resolve_left htop
        exact hchain.tail ⟨g, hg, hnext⟩

end CallStack

/-! ## Statements -/

/-- What comes of going on from a machine keeps its frames, with their members unless links lead to
them from the top.  If nothing failed, no other frames are left. -/
structure Machine.Confined (m : Machine) (result : Machine.Step) : Prop where
  passes : ∀ m', result = .ok m' → m'.stack.depth = m.stack.depth ∧
    m.stack.KeptBut m.stack.OnChain m'.stack
  fails : ∀ failure, result = .error failure →
    m.stack.KeptBut m.stack.OnChain failure.machine.stack

namespace Machine

variable {m m' : Machine} {result : Step}

theorem Confined.ok (hstack : m'.stack = m.stack) : m.Confined (.ok m') := by
  constructor
  · intro m'' hm''
    cases hm''
    rw [hstack]
    exact ⟨rfl, .refl⟩
  · intro failure hfailure
    contradiction

theorem Confined.error (e : EvaluationError) : m.Confined (.error ⟨e, m⟩) := by
  constructor
  · intro m' hm'
    contradiction
  · intro failure hfailure
    cases hfailure
    exact .refl

theorem Confined.bind {next : Machine → Step} (h : m.Confined result)
    (hnext : ∀ m', result = .ok m' → m'.Confined (next m')) : m.Confined (result.bind next) := by
  cases result with
  | error failure =>
      constructor
      · intro m' hm'
        contradiction
      · intro failure' hfailure
        cases hfailure
        exact h.fails failure rfl
  | ok m' =>
      obtain ⟨hdepth, hkept⟩ := h.passes m' rfl
      have hsame := hkept.onChain_eq hdepth
      constructor
      · intro m'' hm''
        obtain ⟨hdepth', hkept'⟩ := (hnext m' rfl).passes m'' hm''
        rw [hsame] at hkept'
        exact ⟨hdepth'.trans hdepth, hkept.trans hkept'⟩
      · intro failure hfailure
        have hkept' := (hnext m' rfl).fails failure hfailure
        rw [hsame] at hkept'
        exact hkept.trans hkept'

theorem assign_confined (m : Machine) (target : VariableRef) (value : Expr) :
    m.Confined (m.assign target value) := by
  constructor
  · intro m' hassign
    obtain ⟨v, symbol, place, -, hlocate, rfl⟩ := assign_eq_ok hassign
    have hset := CallStack.keptBut_set m.stack place symbol.name (v.widen symbol.kind)
    refine ⟨CallStack.depth_set .., hset.mono ?_⟩
    rintro i - rfl
    exact CallStack.onChain_of_holder? (VariableRef.locate_eq_ok_iff.mp hlocate).2
  · intro failure hfailure
    rw [(assign_eq_error hfailure).1]
    exact .refl

end Machine

section

variable {onCall : Call → Machine → Machine.Step}

mutual

theorem Statement.execute_confined (hcalls : ∀ (c : Call) (m : Machine), m.Confined (onCall c m)) :
    (s : Statement) → (m : Machine) → m.Confined (s.execute onCall m)
  | .compound _ children, m => by
    rw [Statement.execute]
    exact executeAll_confined hcalls children m
  | .assignment _ target value, m => by
    rw [Statement.execute]
    exact m.assign_confined target value
  | .call c, m => by
    rw [Statement.execute]
    exact hcalls c m

theorem executeAll_confined (hcalls : ∀ (c : Call) (m : Machine), m.Confined (onCall c m)) :
    (ss : List Statement) → (m : Machine) → m.Confined (executeAll onCall ss m)
  | [], m => by
    rw [executeAll]
    exact .ok rfl
  | s :: rest, m => by
    rw [executeAll]
    exact (Statement.execute_confined hcalls s m).bind fun m' _ =>
      executeAll_confined hcalls rest m'

end

/-- What the body of a callee may change, apart from its own frame, its caller may change. -/
theorem Machine.Confined.entered {m entered : Machine} {result : Machine.Step} {frame : Frame Nat}
    {place : Nat} {name : String} {span : Span} (hentered : entered.stack = m.stack.push frame)
    (hlink : frame.link = some place) (hplace : m.stack.OnChain place)
    (h : entered.Confined result) : m.Confined (result.map (·.leave name span)) := by
  have hbelow : ∀ i, i < m.stack.depth → entered.stack.OnChain i → m.stack.OnChain i := by
    intro i hi hchain
    rw [hentered] at hchain
    exact (CallStack.onChain_of_push hlink hplace hchain).resolve_left (by omega)
  have hpushed {changing : Nat → Prop} : m.stack.KeptBut changing entered.stack := by
    rw [hentered]
    exact CallStack.keptBut_push m.stack frame
  constructor
  · intro m' hm'
    cases result with
    | error failure => contradiction
    | ok done =>
        cases hm'
        obtain ⟨hdepth, hkept⟩ := h.passes done rfl
        rw [hentered, CallStack.depth_push] at hdepth
        refine ⟨?_, ((hpushed.trans hkept).mono hbelow).pop (by omega)⟩
        simp only [Machine.leave, Machine.emit, CallStack.pop, CallStack.depth, Array.size_pop]
          at hdepth ⊢
        omega
  · intro failure hfailure
    cases result with
    | ok done => contradiction
    | error _ =>
        cases hfailure
        exact (hpushed.trans (h.fails failure rfl)).mono hbelow

theorem Call.execute_confined (program : Block) (limit : DepthLimit) (allowed : Nat) (c : Call)
    (m : Machine) : m.Confined (c.execute program limit allowed m) := by
  -- Calls in the body of the callee are allowed one nested call less.
  induction allowed generalizing c m with
  | zero =>
      rw [Call.execute]
      cases c.symbol with
      | none => exact .error _
      | some p => exact .error _
  | succ allowed ih =>
      rw [Call.execute]
      cases c.symbol with
      | none => exact .error _
      | some p =>
          cases hframe : c.frame p m.stack with
          | error e =>
              simp only [hframe, Machine.withResult]
              exact .error e
          | ok frame =>
              obtain ⟨place, members, hplace, -, rfl⟩ := Call.frame_eq_ok hframe
              simp only [hframe, Machine.withResult]
              exact .entered rfl rfl (CallStack.onChain_of_holder? hplace)
                (executeAll_confined ih _ _)

end

/-! ## Assignments in a run -/

/-- A value is stored under the name of the target of an assignment, in the frame at a place and
nowhere else. -/
structure Configuration.Stores (p : Program) (c : Configuration) (declaration : DeclarationPath)
    (target : VariableRef) (after : CallStack (Frame Nat)) (symbol : VariableSymbol) (place : Nat)
    (value : Value) : Prop where
  /-- The symbol is what the name of the target denotes in the scope that is running. -/
  resolved : target.symbol = some symbol ∧ ∃ s, p.scope? declaration = some s ∧
    s.visible.denote (canonicalName target.name) = some (.variable symbol)
  /-- The frame runs the scope that declares the symbol, and links lead to it from the top. -/
  declares : ∃ above t, above <+: declaration ∧ p.scope? above = some t ∧ symbol ∈ t.locals ∧
    c.declarations[place]? = some above
  onChain : c.machine.stack.OnChain place
  bound : ∃ f g, c.machine.stack.frames[place]? = some f ∧ after.frames[place]? = some g ∧
    g = { f with members := g.members } ∧ g.get? symbol.name = some value ∧
    ∀ name, name ≠ symbol.name → g.get? name = f.get? name
  elsewhere : ∀ i, i ≠ place → after.frames[i]? = c.machine.stack.frames[i]?

theorem CallStack.getElem?_set_of_ne {stack : CallStack (Frame Nat)} {i place : Nat}
    (hi : i ≠ place) (name : String) (value : Value) :
    (stack.set place name value).frames[i]? = stack.frames[i]? := by
  simp [set, Array.getElem?_modify, Ne.symm hi]

theorem Configuration.Consistent.stores {p : Program} {m m' : Machine}
    {declaration : DeclarationPath} {call : Option (String × Span)} {span : Span}
    {target : VariableRef} {value : Expr} {rest : List Statement} {below : List Activation}
    (h : Consistent p ⟨m, ⟨declaration, call, .assignment span target value :: rest⟩ :: below⟩)
    (hassign : m.assign target value = .ok m') :
    ∃ symbol place v, value.eval m.stack = .ok v ∧
      Stores p ⟨m, ⟨declaration, call, .assignment span target value :: rest⟩ :: below⟩ declaration
        target m'.stack symbol place (v.widen symbol.kind) := by
  obtain ⟨v, symbol, place, hvalue, hlocate, rfl⟩ := Machine.assign_eq_ok hassign
  obtain ⟨hsymbol, hholder⟩ := VariableRef.locate_eq_ok_iff.mp hlocate
  obtain ⟨⟨s, hs, ⟨htarget, -⟩, -⟩, -⟩ := List.forall_mem_cons.mp h.inScope
  have hlinked := h.linked
  rw [declarations_cons] at hlinked
  obtain ⟨above, t, k, habove, ht, hlocal, hk, hnearest⟩ :=
    hlinked.holder_of_variable hs (htarget symbol hsymbol)
  rw [hholder, Option.some.injEq] at hk
  subst k
  obtain ⟨f, hf, -⟩ := hlinked.exists_frame hnearest.2.1
  refine ⟨symbol, place, v, hvalue, ⟨hsymbol, s, hs, htarget symbol hsymbol⟩, ?_, ?_, ?_, ?_⟩
  · exact ⟨above, t, habove, ht, hlocal, by rw [declarations_cons]; exact hnearest.2.1⟩
  · exact CallStack.onChain_of_holder? hholder
  · refine ⟨f, f.set symbol.name (v.widen symbol.kind), hf, ?_, rfl, ?_, ?_⟩
    · simp [CallStack.set, Array.getElem?_modify, hf]
    · simp [Frame.get?, Frame.set, Register.get?_set]
    · intro name hname
      simp [Frame.get?, Frame.set, Register.get?_set, Ne.symm hname]
  · intro i hi
    exact CallStack.getElem?_set_of_ne hi _ _

namespace Program

variable {p : Program}

/-- In a run of a program that went through analysis, whether it was accepted or not, executing a
statement sets names only in frames that links lead to from the top, and an assignment sets one name
in the frame that runs the scope declaring it.  With as many calls allowed as the limit leaves,
executing a statement is what the steps of the run do. -/
theorem effects_stay_on_static_chain {source : List Char} {file : String} {detailed : Bool}
    (hparse : parse source file detailed = .ok p) (limit : DepthLimit) {c : Configuration}
    (hc : p.analyze.program.Reaches limit c) :
    (∀ (s : Statement) (allowed : Nat), c.machine.Confined
        (s.execute (Call.execute p.analyze.program.block limit allowed) c.machine)) ∧
      (∀ s : Statement, StepsTo p.analyze.program.block limit [s] c.machine
        (s.execute (Call.execute p.analyze.program.block limit
          (limit.frames - c.machine.stack.depth)) c.machine)) ∧
      ∀ declaration call span target value rest below,
        c.activations = ⟨declaration, call, .assignment span target value :: rest⟩ :: below →
        ∀ (allowed : Nat) m', (Statement.assignment span target value).execute
            (Call.execute p.analyze.program.block limit allowed) c.machine = .ok m' →
          ∃ symbol place v, value.eval c.machine.stack = .ok v ∧
            c.Stores p.analyze.program declaration target m'.stack symbol place
              (v.widen symbol.kind) := by
  have hannotated := annotated_of_analyze (fromSource_of_parse hparse)
  have hconsistent := Configuration.consistent_of_reaches hannotated hc
  refine ⟨?_, ?_, ?_⟩
  · intro s allowed
    exact s.execute_confined (Call.execute_confined _ limit allowed) c.machine
  · intro s
    exact Statement.execute_stepsTo
      (fun callee m hm => Call.execute_stepsTo _ callee m (by rw [hm])) s c.machine rfl
  · intro declaration call span target value rest below hactivations allowed m' hexecute
    obtain ⟨m, activations⟩ := c
    simp only at hactivations
    subst activations
    rw [Statement.execute] at hexecute
    exact hconsistent.stores hexecute

/-- A run that fails two calls deep, where the links lead past the frame of the caller. -/
theorem effects_stay_on_chain_of_nested_calls :
    ∃ p, parse ("program p; var x : integer; procedure q; begin x := 1 div (x - x) end; " ++
        "procedure r; begin q() end; begin x := 0; r() end.").toList "p.pas" false = .ok p ∧
      ∃ c, p.analyze.program.Reaches (.ofInt 9) c ∧ c.machine.stack.depth = 3 ∧
        c.machine.stack.frames[2]?.bind Frame.link = some 0 ∧
        ∀ (s : Statement) (allowed : Nat), c.machine.Confined
          (s.execute (Call.execute p.analyze.program.block (.ofInt 9) allowed) c.machine) := by
  have hdeep : (parse ("program p; var x : integer; procedure q; begin x := 1 div (x - x) end; " ++
      "procedure r; begin q() end; begin x := 0; r() end.").toList "p.pas" false).toOption.any
        (fun p => (p.analyze.program.run (.ofInt 9)).stack.depth = 3 ∧
          (p.analyze.program.run (.ofInt 9)).stack.frames[2]?.bind Frame.link = some 0) = true := by
    decide +kernel
  obtain ⟨p, hp, hend⟩ := parse_of_any hdeep
  obtain ⟨hdepth, hlink⟩ := of_decide_eq_true hend
  obtain ⟨c, hc, -, hstack, -⟩ := run_reaches p.analyze.program (.ofInt 9)
  rw [hstack] at hdepth hlink
  exact ⟨p, hp, c, hc, hdepth, hlink, (effects_stay_on_static_chain hp (.ofInt 9) hc).1⟩

end Program

end NestedPascal
