import NestedPascal.Proofs.Run.Evaluation
import NestedPascal.Proofs.Run.Linkage
import NestedPascal.Proofs.Tree.Relabelling

/-!
# Runs of relabelled programs

Frames, links and members are found by symbols.  Of the labels a run shows the program's name in the
frame at the bottom, and spans and names as they are written in events and in the error that ends
it. Everything else is the same in a run of a relabelled program.
-/

namespace NestedPascal

variable (R : Relabelling)

/-- The frame with its label changed: that of the program shows a name as it is written. -/
def Frame.relabel (f : Frame Nat) : Frame Nat :=
  { f with
    name := match f.role with
      | .program => R.text f.name
      | .procedure => f.name }

def CallStack.relabel (s : CallStack (Frame Nat)) : CallStack (Frame Nat) :=
  ⟨s.frames.map (·.relabel R)⟩

namespace Machine

def relabel (m : Machine) : Machine :=
  ⟨m.stack.relabel R, m.events.map (·.relabel R)⟩

def Step.relabel : Step → Step
  | .ok m => .ok (m.relabel R)
  | .error failure => .error ⟨failure.error.relabel R, failure.machine.relabel R⟩

end Machine

variable {R}

/-! ## Stacks -/

@[simp] theorem Frame.get?_relabel (f : Frame Nat) (name : String) :
    (f.relabel R).get? name = f.get? name := rfl

theorem Frame.set_relabel (f : Frame Nat) (name : String) (value : Value) :
    (f.relabel R).set name value = (f.set name value).relabel R := rfl

namespace CallStack

variable (s : CallStack (Frame Nat))

@[simp] theorem depth_relabel : (s.relabel R).depth = s.depth := by
  simp [relabel, depth]

theorem getElem?_relabel (place : Nat) :
    (s.relabel R).frames[place]? = s.frames[place]?.map (·.relabel R) := by
  simp [relabel]

@[simp] theorem holder?_relabel (level : Nat) :
    (s.relabel R).holder? level = s.holder? level := by
  refine holder?_congr (depth_relabel s) (fun i => ?_) level
  rw [getElem?_relabel, Option.map_map]
  rfl

theorem push_relabel (f : Frame Nat) :
    (s.relabel R).push (f.relabel R) = (s.push f).relabel R := by
  simp [relabel, push]

theorem pop_relabel : (s.relabel R).pop = s.pop.relabel R := by
  simp [relabel, pop]

theorem set_relabel (place : Nat) (name : String) (value : Value) :
    (s.relabel R).set place name value = (s.set place name value).relabel R := by
  simp only [relabel, set, mk.injEq]
  apply Array.ext_getElem?
  intro i
  simp only [Array.getElem?_modify, Array.getElem?_map]
  split
  next => cases s.frames[i]? <;> simp [Frame.set_relabel]
  next => rfl

end CallStack

/-! ## Expressions -/

variable (stack : CallStack (Frame Nat))

theorem located_relabel {α : Type} (span : Span) (r : Except EvaluationCause α) :
    located (R.span span) (r.mapError (·.relabel R)) =
      (located span r).mapError (·.relabel R) := by
  cases r <;> rfl

theorem VariableRef.locate_relabel (r : VariableRef) :
    (r.relabel R).locate (stack.relabel R) = (r.locate stack).mapError (·.relabel R) := by
  simp only [locate, relabel, CallStack.holder?_relabel]
  split
  next => rfl
  next => split <;> rfl

theorem VariableRef.eval_relabel (r : VariableRef) :
    (r.relabel R).eval (stack.relabel R) = (r.eval stack).mapError (·.relabel R) := by
  simp only [eval, locate_relabel, mapError_bind]
  congr 1
  funext found
  rw [stack.getElem?_relabel]
  cases stack.frames[found.2]? with
  | none => rfl
  | some f =>
      simp only [Option.map_some, Option.bind_some, Frame.get?_relabel]
      cases f.get? found.1.name <;> rfl

theorem Sign.apply_relabel (sign : Sign) (v : Value) :
    (sign.apply v).mapError (EvaluationCause.relabel R) = sign.apply v := by
  cases h : sign.apply v with
  | ok w => rfl
  | error cause =>
      obtain ⟨range, rfl⟩ := Sign.apply_eq_error h
      rfl

theorem BinaryOperator.apply_relabel (op : BinaryOperator) (left right : Value) :
    (op.apply left right).mapError (EvaluationCause.relabel R) = op.apply left right := by
  cases h : op.apply left right with
  | ok w => rfl
  | error cause =>
      rcases BinaryOperator.apply_eq_error h with ⟨range, rfl⟩ | rfl | ⟨-, rfl⟩ | ⟨-, rfl⟩ <;> rfl

theorem Expr.eval_relabel (e : Expr) :
    (e.relabel R).eval (stack.relabel R) = (e.eval stack).mapError (·.relabel R) := by
  induction e with
  | literal span value => rfl
  | «variable» r => exact r.eval_relabel stack
  | unary span sign operand ih =>
      simp only [relabel, eval, ih, mapError_bind]
      congr 1
      funext v
      rw [← located_relabel, sign.apply_relabel]
  | binary span op left right ihl ihr =>
      simp only [relabel, eval, ihl, ihr, mapError_bind]
      congr 1
      funext l
      congr 1
      funext r
      rw [← located_relabel, op.apply_relabel]

theorem bindArguments_relabel (c : Call) (members : Register String Value)
    (params : List VariableSymbol) (args : List Expr) :
    bindArguments (stack.relabel R) (c.relabel R) members params (args.map (·.relabel R)) =
      (bindArguments stack c members params args).mapError (·.relabel R) := by
  induction params generalizing members args with
  | nil => rfl
  | cons param params ih =>
      cases args with
      | nil => rfl
      | cons arg args =>
          simp only [List.map_cons, bindArguments, arg.eval_relabel, mapError_bind, ih]

theorem Call.frame_relabel (c : Call) (p : ProcedureSymbol) :
    (c.relabel R).frame p (stack.relabel R) = (c.frame p stack).mapError (·.relabel R) := by
  simp only [frame, CallStack.holder?_relabel, CallStack.depth_relabel]
  split
  next => rfl
  next =>
    simp only [mapError_bind, ← bindArguments_relabel]
    rfl

theorem Call.relabel_of_frame_eq_ok {c : Call} {p : ProcedureSymbol} {frame : Frame Nat}
    (h : c.frame p stack = .ok frame) : frame.relabel R = frame := by
  obtain ⟨place, members, -, -, rfl⟩ := Call.frame_eq_ok h
  rfl

/-! ## Statements -/

namespace Machine

variable (m : Machine)

theorem emit_relabel (kind : EventKind) (span : Span) :
    (m.relabel R).emit (kind.relabel R) (R.span span) = (m.emit kind span).relabel R := by
  simp [emit, relabel, Event.relabel]

theorem assign_relabel (target : VariableRef) (value : Expr) :
    (m.relabel R).assign (target.relabel R) (value.relabel R) =
      (m.assign target value).relabel R := by
  simp only [assign, withResult, relabel, value.eval_relabel, target.locate_relabel]
  cases value.eval m.stack with
  | error e => rfl
  | ok v =>
      cases target.locate m.stack with
      | error e => rfl
      | ok found => simp [Step.relabel, relabel, CallStack.set_relabel]

end Machine

section

variable {onCall onCall' : Call → Machine → Machine.Step}

mutual

theorem Statement.execute_relabel
    (hcall : ∀ c m, onCall' (c.relabel R) (m.relabel R) = (onCall c m).relabel R) :
    (s : Statement) → (m : Machine) →
      (s.relabel R).execute onCall' (m.relabel R) = (s.execute onCall m).relabel R
  | .compound _ children, m => by
    simp only [Statement.relabel, Statement.execute]
    exact executeAll_relabel hcall children m
  | .assignment _ target value, m => by
    simp only [Statement.relabel, Statement.execute]
    exact m.assign_relabel target value
  | .call c, m => by
    simp only [Statement.relabel, Statement.execute]
    exact hcall c m

theorem executeAll_relabel
    (hcall : ∀ c m, onCall' (c.relabel R) (m.relabel R) = (onCall c m).relabel R) :
    (ss : List Statement) → (m : Machine) →
      executeAll onCall' (relabelStatements R ss) (m.relabel R) =
        (executeAll onCall ss m).relabel R
  | [], m => rfl
  | s :: rest, m => by
    simp only [relabelStatements, executeAll, s.execute_relabel hcall m]
    cases s.execute onCall m with
    | error failure => rfl
    | ok m' => exact executeAll_relabel hcall rest m'

end

end

theorem Call.execute_relabel (program : Block) (limit : DepthLimit) (allowed : Nat) (c : Call)
    (m : Machine) :
    (c.relabel R).execute (program.relabel R) limit allowed (m.relabel R) =
      (c.execute program limit allowed m).relabel R := by
  -- A body is allowed one call less.
  induction allowed generalizing c m with
  | zero =>
      rw [execute, execute]
      simp only [relabel]
      cases c.symbol <;> rfl
  | succ allowed ih =>
      rw [execute, execute]
      have hsymbol : (c.relabel R).symbol = c.symbol := rfl
      rw [hsymbol]
      cases c.symbol with
      | none => rfl
      | some p =>
          have hframe := c.frame_relabel m.stack p (R := R)
          simp only [Machine.withResult, Machine.relabel, hframe]
          cases hpushed : c.frame p m.stack with
          | error e => rfl
          | ok frame =>
              have hpush : (m.stack.relabel R).push frame = (m.stack.push frame).relabel R := by
                rw [← CallStack.push_relabel, relabel_of_frame_eq_ok m.stack hpushed]
              have hentered := Machine.emit_relabel ⟨m.stack.push frame, m.events⟩
                (.callStart p.name (m.stack.push frame).depth) c.span (R := R)
              simp only [Machine.relabel, EventKind.relabel] at hentered
              have hbody := executeAll_relabel ih
                (((program.at? p.declaration).map Block.body).getD [])
                (Machine.emit ⟨m.stack.push frame, m.events⟩
                  (.callStart p.name (m.stack.push frame).depth) c.span)
              simp only [Machine.relabel] at hbody
              simp only [mapError_ok, hpush, CallStack.depth_relabel, Block.body_at?_relabel, relabel,
                hentered, hbody]
              cases executeAll (Call.execute program limit allowed) _ _ with
              | error failure => rfl
              | ok m' =>
                  simp [Machine.Step.relabel, Machine.relabel, Machine.emit, bind, Except.bind,
                    CallStack.pop_relabel, Event.relabel, EventKind.relabel]

/-- A relabelled program runs like the program itself. -/
theorem Program.run_relabel (p : Program) (limit : DepthLimit) :
    ((p.relabel R).run limit).stack = (p.run limit).stack.relabel R ∧
      ((p.relabel R).run limit).error = (p.run limit).error.map (·.relabel R) := by
  have hstart : (p.relabel R).initialMachine = p.initialMachine.relabel R := by
    simp [initialMachine, relabel, Machine.relabel, CallStack.relabel, CallStack.push,
      CallStack.empty, Frame.relabel, Event.relabel, EventKind.relabel]
  have hresult := executeAll_relabel
    (Call.execute_relabel p.block limit limit.calls (R := R)) p.block.body p.initialMachine
  rw [← hstart, ← Block.body_relabel] at hresult
  simp only [run, relabel] at hresult ⊢
  rw [hresult]
  cases executeAll (Call.execute p.block limit limit.calls) p.block.body p.initialMachine with
  | error failure => exact ⟨rfl, rfl⟩
  | ok m => exact ⟨rfl, rfl⟩

/-- Programs that a relabelling makes the same run alike. -/
theorem Program.run_eq_of_relabel_eq {p p' : Program} (h : p.relabel R = p'.relabel R)
    (limit : DepthLimit) :
    (p.run limit).stack.relabel R = (p'.run limit).stack.relabel R ∧
      (p.run limit).error.map (·.relabel R) = (p'.run limit).error.map (·.relabel R) := by
  obtain ⟨hstack, herror⟩ := p.run_relabel limit (R := R)
  obtain ⟨hstack', herror'⟩ := p'.run_relabel limit (R := R)
  rw [← hstack, ← herror, h, hstack', herror']
  exact ⟨rfl, rfl⟩

end NestedPascal
