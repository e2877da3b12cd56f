import NestedPascal.CommandLine.FileError
import NestedPascal.Config
import NestedPascal.Grammar.Program
import NestedPascal.Run.TracedExecution
import NestedPascal.Scope.TracedAnalysis
import NestedPascal.Text.Utf8
import NestedPascal.TraceFile.Summary

/-!
# Replies

What each command prints, on which output, and how it exits, as a function of what it has read, and
for a run of what the tracer took.  A reply that is a success leaves the error output empty, and any
other the standard output, unless an error in closing the trace comes after it.
-/

namespace NestedPascal

inductive ExitStatus where
  | success
  /-- The arguments ask for nothing that can be done. -/
  | misuse
  /-- The program is not well formed. -/
  | rejected
  | failed
deriving DecidableEq, Repr

def ExitStatus.code : ExitStatus → UInt8
  | success => 0
  | misuse => 1
  | rejected => 2
  | failed => 4

structure Reply where
  status : ExitStatus
  output : String
  errors : String
deriving DecidableEq, Repr

namespace Reply

def print (text : String) : Reply :=
  ⟨.success, text ++ "\n", ""⟩

def refuse (status : ExitStatus) (text : String) : Reply :=
  ⟨status, "", text ++ "\n"⟩

/-- The reply that shows a diagnostic. -/
def diagnose (d : Diagnostic) (pretty : Bool) : Reply :=
  refuse .failed (d.format pretty)

def ofFileError (message : String) (pretty : Bool) : Reply :=
  diagnose { code := ErrorCode.inputOutput.text, message := message } pretty

def ofConfigError (words : Json.Fault → String) (e : ConfigError) (pretty : Bool) : Reply :=
  diagnose (e.diagnostic words) pretty

def ofSemanticError (file : String) (e : SemanticError) (pretty : Bool) : Reply :=
  refuse .rejected (Diagnostic.formatAll [e.diagnostic file] pretty)

/-- The object that reports a failed run. -/
def failureJson (file : String) (stack : CallStack (Frame Nat)) (e : EvaluationError) : Json :=
  .ofFields [
    ("code", some (.ofString e.cause.code.text)),
    ("message", some (.ofString e.cause.message)),
    ("span", some (e.span.inFile file).toJson),
    ("details", e.cause.details?),
    ("callStack", some stack.report.toJson)]

/-- The reply to a run: the stack as it was at the end, with the error if one ended it. -/
def ofRun (file : String) (r : RunResult) (pretty : Bool) : Reply :=
  match r.error with
  | none => print (if pretty then r.stack.report.readable else r.stack.report.toJson.pretty)
  | some e =>
    refuse .failed <|
      if pretty then
        (e.diagnostic file).readable ++ "\n\nCall stack at failure:\n" ++ r.stack.report.readable
      else (failureJson file r.stack e).compact

end Reply

/-- The program in a source file, or the reply when there is none.  The file named by a single dash
is the standard input. -/
def Program.load (file : String) (content : Except FileError (List UInt8))
    (pretty detailed : Bool) : Except Reply Program :=
  match content with
  | .error e => .error (.ofFileError ("Error reading file: " ++ e.readMessage file) pretty)
  | .ok bytes =>
    let name := if file = "-" then "<stdin>" else file
    match Program.parse (Utf8.decode bytes) name detailed with
    | .error ds => .error (.refuse .rejected (Diagnostic.formatAll ds pretty))
    | .ok p => .ok p

/-- The reply to a request to check a program. -/
def Program.checkReply (p : Program) (pretty : Bool) : Reply :=
  match p.analyze.scopes with
  | .error e => .ofSemanticError p.file e pretty
  | .ok _ => .print (if pretty then "No errors found." else "[]")

/-- The reply to a run of a program that is analysed, or the message of the error that kept the run
from telling an event. -/
def ProgramAnalysis.runReply {m : Type → Type} [Monad m] (analysis : ProgramAnalysis)
    (t : Tracer m) (file : String) (limit : DepthLimit) (pretty : Bool) : ExceptT String m Reply :=
  match analysis.scopes with
  | .error e => pure (.ofSemanticError file e pretty)
  | .ok _ => do
    let r ← analysis.program.runTraced t limit
    pure (.ofRun file r pretty)

/-- The reply to a request to run a program. -/
def Program.runReply {m : Type → Type} [Monad m] (p : Program) (t : Tracer m) (limit : DepthLimit)
    (pretty : Bool) : m Reply := do
  let told ← (p.analyzeTraced t.tell >>= fun analysis =>
    analysis.runReply t p.file limit pretty).run
  match told with
  | .ok reply => pure reply
  | .error message => pure (.ofFileError message pretty)

/-- The reply once the trace is closed.  An error then comes last and spoils a success. -/
def Reply.closing (r : Reply) (closed : Except FileError Unit) (pretty : Bool) : Reply :=
  match closed with
  | .ok () => r
  | .error e =>
    let report := Reply.ofFileError ("Error closing trace file: " ++ e.closeMessage) pretty
    { r with
      status := if r.status = .success then report.status else r.status
      errors := r.errors ++ report.errors }

/-- The reply to a request for the summary of a trace. -/
def TraceSummary.reply (file : String) (content : Except FileError (List UInt8)) (json : Bool) :
    Reply :=
  match content with
  | .error e => .refuse .failed ("Error reading trace file: " ++ e.readMessage file)
  | .ok bytes =>
    let lines := traceLines (Utf8.decode bytes)
    let events := lines.filterMap TraceLine.read?
    if events.isEmpty then .refuse .failed "No valid trace events found."
    else
      let summary := TraceSummary.ofLines events (.ofNat (lines.length - events.length))
      .print (if json then summary.toJson.pretty else "\n".intercalate summary.readable)

/-- The reply to a request for the configuration. -/
def ResolvedConfig.reply (words : Json.Fault → String)
    (r : Except ConfigError ResolvedConfig) (json : Bool) : Reply :=
  match r with
  | .error e => .ofConfigError words e !json
  | .ok r => .print (if json then r.toJson.pretty else "\n".intercalate r.readable)

end NestedPascal
