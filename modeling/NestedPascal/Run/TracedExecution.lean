import NestedPascal.Run.Execute
import NestedPascal.TraceFile.Tracer

/-!
# Runs that tell their events

A run goes on only when an event was told.  If one cannot be told, the run still tries to tell that it
ends, with the error that came up and the depth of the stack as it stands.  What a run comes to whose
events are all told is what it comes to without a trace.
-/

namespace NestedPascal

section

variable {m : Type → Type} [Monad m]

/-- A part of a run in the monad in which events are told; it fails as the run does. -/
abbrev Machine.TracedStep (m : Type → Type) : Type :=
  ExceptT Machine.Failure m Machine

def Machine.Step.traced (r : Machine.Step) : Machine.TracedStep m :=
  ExceptT.mk (pure r)

mutual

def Statement.executeTraced (onCall : Call → Machine → Machine.TracedStep m) :
    Statement → Machine → Machine.TracedStep m
  | .compound _ children, s => executeAllTraced onCall children s
  | .assignment _ target value, s => (s.assign target value).traced
  | .call c, s => onCall c s

def executeAllTraced (onCall : Call → Machine → Machine.TracedStep m) :
    List Statement → Machine → Machine.TracedStep m
  | [], s => pure s
  | statement :: rest, s => do
    let s ← statement.executeTraced onCall s
    executeAllTraced onCall rest s

end

/-- Executes a call.  What tells an event also learns how deep the stack is. -/
def Call.executeTraced (tell : Nat → Event → m Unit) (program : Block) (limit : DepthLimit) :
    Nat → Call → Machine → Machine.TracedStep m
  | allowed, c, s =>
    match c.symbol with
    | none => (s.fail (.unresolvedCall c.name) c.span).traced
    | some p =>
      match allowed with
      | 0 => (s.fail (.depthLimit limit c.name p.name) c.span).traced
      | allowed + 1 =>
        match c.frame p s.stack with
        | .error e => Machine.Step.traced (.error ⟨e, s⟩)
        | .ok frame => do
          let entered := { s with stack := s.stack.push frame }
          let depth := entered.stack.depth
          let body := ((program.at? p.declaration).map Block.body).getD []
          tell depth ⟨.callStart p.name depth, c.span⟩
          let s ← executeAllTraced (Call.executeTraced tell program limit allowed) body
            (entered.emit (.callStart p.name depth) c.span)
          tell s.stack.depth ⟨.callEnd p.name s.stack.depth, c.span⟩
          let left := s.emit (.callEnd p.name s.stack.depth) c.span
          pure { left with stack := left.stack.pop }

end

/-- An event that could not be told: why, and how deep the stack was. -/
structure Untold where
  message : String
  depth : Nat

variable {m : Type → Type} [Monad m]

/-- Tells an event while the stack has a depth. -/
def Tracer.tellAt (t : Tracer m) (depth : Nat) (e : Event) (duration : Time.Duration := .zero) :
    ExceptT Untold m Unit :=
  (t.tell e duration).adapt fun message => ⟨message, depth⟩

namespace Program

/-- Tells the end of a run that started at a time. -/
def tellEnd (p : Program) (t : Tracer m) (started : Time.Instant) (depth : Nat)
    (reason : Option (String × String)) : ExceptT Untold m Unit := do
  let now ← t.clock
  t.tellAt depth ⟨.runEnd depth reason, p.span⟩ (now.since started)

/-- Executes the statements of a program and, if that goes well, tells the end of the run. -/
def bodyTraced (p : Program) (t : Tracer m) (started : Time.Instant) (limit : DepthLimit) :
    ExceptT Untold m Machine.Step := do
  let onCall := Call.executeTraced (t.tellAt · ·) p.block limit limit.calls
  match ← (executeAllTraced onCall p.block.body p.initialMachine).run with
  | .error failure => pure (.error failure)
  | .ok s => do
    p.tellEnd t started s.stack.depth none
    pure (.ok (s.emit (.runEnd s.stack.depth none) p.span))

/-- What a run comes to once its statements are done or given up. -/
def concludeTraced (p : Program) (t : Tracer m) (started : Time.Instant) :
    Except Untold Machine.Step → ExceptT String m RunResult
  | .ok (.ok s) => pure ⟨s.stack, s.events, none⟩
  | .ok (.error ⟨e, s⟩) => do
    let reason := some (e.cause.code.text, e.cause.message)
    (p.tellEnd t started s.stack.depth reason).adapt Untold.message
    pure ⟨s.stack, (s.emit (.runEnd s.stack.depth reason) p.span).events, some e⟩
  | .error untold => do
    -- That the run ended may be told even now; if not, the later error is the one that is reported.
    let reason := some (ErrorCode.evaluation.text, untold.message)
    (p.tellEnd t started untold.depth reason).adapt Untold.message
    throw untold.message

/-- What a run comes to, or the message of the error that kept it from telling an event. -/
def runTraced (p : Program) (t : Tracer m) (limit : DepthLimit) : ExceptT String m RunResult := do
  let started ← t.clock
  t.tell ⟨.runStart p.name p.file, p.span⟩
  p.concludeTraced t started (← (p.bodyTraced t started limit).run)

end Program

end NestedPascal
