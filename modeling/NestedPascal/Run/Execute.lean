import NestedPascal.Event
import NestedPascal.Run.Evaluate

/-!
# Executing programs

A run starts with one frame, that of the program, and executes the program's statements.  A call
checks the limit on the depth of the stack, finds the frame of the scope that declares the callee,
evaluates the arguments in the caller's frame, and only then pushes the callee's frame, which is
popped when its body is done.  A run that fails stops where it is: no frame is popped and no
assignment undone.

How many more frames the limit allows bounds the nesting of calls, and so every run ends.
-/

namespace NestedPascal

/-- What a run has come to. -/
structure Machine where
  stack : CallStack (Frame Nat)
  events : Array Event

namespace Machine

def emit (m : Machine) (kind : EventKind) (span : Span) : Machine :=
  { m with events := m.events.push ⟨kind, span⟩ }

/-- A run that failed, as it stood when it did. -/
structure Failure where
  error : EvaluationError
  machine : Machine

abbrev Step := Except Failure Machine

def fail (m : Machine) (cause : EvaluationCause) (span : Span) : Step :=
  .error ⟨⟨cause, span⟩, m⟩

/-- Goes on with a result that was read off the stack. -/
def withResult (m : Machine) (r : Except EvaluationError α) (next : α → Step) : Step :=
  match r with
  | .ok a => next a
  | .error e => .error ⟨e, m⟩

/-- Evaluates the value, then stores it in the frame that holds the target. -/
def assign (m : Machine) (target : VariableRef) (value : Expr) : Step :=
  m.withResult (value.eval m.stack) fun v =>
    m.withResult (target.locate m.stack) fun (symbol, place) =>
      .ok { m with stack := m.stack.set place symbol.name (v.widen symbol.kind) }

end Machine

mutual

/-- Executes a statement, given how to execute a call. -/
def Statement.execute (onCall : Call → Machine → Machine.Step) :
    Statement → Machine → Machine.Step
  | .compound _ children, m => executeAll onCall children m
  | .assignment _ target value, m => m.assign target value
  | .call c, m => onCall c m

def executeAll (onCall : Call → Machine → Machine.Step) :
    List Statement → Machine → Machine.Step
  | [], m => .ok m
  | s :: rest, m => do
    let m ← s.execute onCall m
    executeAll onCall rest m

end

/-- Evaluates the arguments of a call for its parameters; further ones are left alone. -/
def bindArguments (stack : CallStack (Frame Nat)) (c : Call) (members : Register String Value) :
    List VariableSymbol → List Expr → Except EvaluationError (Register String Value)
  | [], _ => .ok members
  | param :: _, [] => .error ⟨.missingArgument param.name c.name, c.span⟩
  | param :: params, arg :: args => do
    let v ← arg.eval stack
    bindArguments stack c (members.set param.name (v.widen param.kind)) params args

/-- The frame that a call of a procedure is going to push. -/
def Call.frame (c : Call) (p : ProcedureSymbol) (stack : CallStack (Frame Nat)) :
    Except EvaluationError (Frame Nat) :=
  match stack.holder? p.level with
  | none => .error ⟨.noActiveFrame p.name p.level, c.span⟩
  | some place => do
    let members ← bindArguments stack c .empty p.params c.args
    .ok ⟨p.name, .procedure, stack.depth + 1, p.level + 1, some place, members⟩

/-- Executes a call in a program's block, when the limit allows so many more frames. -/
def Call.execute (program : Block) (limit : DepthLimit) : Nat → Call → Machine → Machine.Step
  | allowed, c, m =>
    match c.symbol with
    | none => m.fail (.unresolvedCall c.name) c.span
    | some p =>
      match allowed with
      | 0 => m.fail (.depthLimit limit c.name p.name) c.span
      | allowed + 1 =>
        m.withResult (c.frame p m.stack) fun frame => do
          let entered := { m with stack := m.stack.push frame }
          let depth := entered.stack.depth
          let body := ((program.at? p.declaration).map Block.body).getD []
          let m ← executeAll (Call.execute program limit allowed) body
            (entered.emit (.callStart p.name depth) c.span)
          let left := m.emit (.callEnd p.name m.stack.depth) c.span
          .ok { left with stack := left.stack.pop }

/-- How a run ended: the final stack, or the stack as the error left it, and all events. -/
structure RunResult where
  stack : CallStack (Frame Nat)
  events : Array Event
  error : Option EvaluationError

def defaultCallDepth : Nat := 512

/-- The machine on which a program's statements start. -/
def Program.initialMachine (p : Program) : Machine :=
  { stack := CallStack.empty.push ⟨p.name, .program, 1, 1, none, .empty⟩
    events := #[⟨.runStart p.name p.file, p.span⟩] }

def Program.run (p : Program) (limit : DepthLimit) : RunResult :=
  let onCall := Call.execute p.block limit limit.calls
  match executeAll onCall p.block.body p.initialMachine with
  | .ok m =>
    let m := m.emit (.runEnd m.stack.depth none) p.span
    ⟨m.stack, m.events, none⟩
  | .error ⟨e, m⟩ =>
    let m := m.emit (.runEnd m.stack.depth (some (e.cause.code.text, e.cause.message))) p.span
    ⟨m.stack, m.events, some e⟩

end NestedPascal
