import NestedPascal.CommandLine.Invocation
import NestedPascal.CommandLine.Reply
import NestedPascal.CommandLine.Usage

/-!
# Hosts

A host is what the program runs on: files, the standard input, the current and the home directory,
a clock.  Commands are performed on any host.
-/

namespace NestedPascal

/-- A file that is open for writing. -/
structure OpenFile (m : Type → Type) where
  write : String → m (Except FileError Unit)
  close : m (Except FileError Unit)

structure Host (m : Type → Type) where
  workingDirectory : String
  homeDirectory : String
  /-- The words for a fault in a configuration file that is no JSON. -/
  faultWords : Json.Fault → String
  /-- Whether there is a file or directory at a path. -/
  isPresent : String → m Bool
  read : String → m (Except FileError (List UInt8))
  readInput : m (List UInt8)
  /-- Opens a file for writing; from then on it is empty. -/
  create : String → m (Except FileError (OpenFile m))
  clock : m Time.Instant
  /-- A name for a run, another one each time. -/
  runId : m String

namespace Host

variable {m : Type → Type} [Monad m]

/-- The path of something below a directory. -/
def below (directory path : String) : String :=
  if directory.toList.getLast? = some '/' then directory ++ path else directory ++ "/" ++ path

def configFile (h : Host m) (path : String) : m ConfigFile := do
  if ← h.isPresent path then
    match ← h.read path with
    | .ok bytes => pure (.text (Utf8.decode bytes))
    | .error e => pure (.unreadable (e.readMessage path))
  else pure .absent

def resolveConfig (h : Host m) : m (Except ConfigError ResolvedConfig) := do
  let projectPath := below h.workingDirectory ".minipasrc.json"
  let userPath := below h.homeDirectory ".minipas/config.json"
  let project ← h.configFile projectPath
  let user ← h.configFile userPath
  pure (ResolvedConfig.resolve projectPath userPath project user)

/-- The content of a source file, where a single dash stands for the standard input. -/
def readSource (h : Host m) (file : String) : m (Except FileError (List UInt8)) := do
  if file = "-" then
    let bytes ← h.readInput
    pure (.ok bytes)
  else h.read file

/-- The limit on the depth of calls: the one asked for, else the one configured. -/
def callDepth (h : Host m) (limit : Option DepthLimit) :
    m (Except ConfigError DepthLimit) := do
  match limit with
  | some n => pure (.ok n)
  | none =>
    let resolved ← h.resolveConfig
    pure (resolved.map fun r => .ofInt r.config.maxCallDepth)

/-- The tracer that writes each event on a line of a file, if there is one. -/
def tracer (h : Host m) (file runId : String) (trace : Option (OpenFile m)) : Tracer m where
  clock := h.clock
  sink? := trace.map fun f e => do
    let written ← f.write (e.line file runId ++ "\n")
    pure (written.mapError fun e => "Error writing trace file: " ++ e.writeMessage)

/-- Runs a program, with a trace in the file asked for, if any. -/
def runProgram (h : Host m) (p : Program) (trace : Option String) (limit : DepthLimit)
    (pretty : Bool) : m Reply := do
  match trace.filter (· ≠ "") with
  | none =>
    let runId ← h.runId
    p.runReply (h.tracer p.file runId none) limit pretty
  | some path =>
    match ← h.create path with
    | .error e => pure (.ofFileError ("Error opening trace file: " ++ e.openMessage path) pretty)
    | .ok f =>
      let runId ← h.runId
      let reply ← p.runReply (h.tracer p.file runId (some f)) limit pretty
      let closed ← f.close
      pure (reply.closing closed pretty)

/-- Performs a command. -/
def perform (h : Host m) : Command → m Reply
  | .check file pretty detailed => do
    match Program.load file (← h.readSource file) pretty detailed with
    | .error reply => pure reply
    | .ok p => pure (p.checkReply pretty)
  | .run file trace limit pretty detailed => do
    match Program.load file (← h.readSource file) pretty detailed with
    | .error reply => pure reply
    | .ok p =>
      match ← h.callDepth limit with
      | .error e => pure (.ofConfigError h.faultWords e pretty)
      | .ok limit => h.runProgram p trace limit pretty
  | .trace file json => do
    let content ← h.read file
    pure (TraceSummary.reply file content json)
  | .config json => do
    let resolved ← h.resolveConfig
    pure (ResolvedConfig.reply h.faultWords resolved json)

/-- Does what an invocation asks for. -/
def answer (h : Host m) : Invocation → m Reply
  | .command c => h.perform c
  | .version => pure (.print "0.1.0")
  | .help kind => pure ⟨.success, Usage.ofCommand kind, ""⟩
  | .usage => pure ⟨.misuse, "", Usage.program⟩
  | .invalid message => pure (.refuse .misuse message)

/-- Does what a list of arguments asks for. -/
def answerArgs (h : Host m) (args : List String) : m Reply :=
  h.answer (Invocation.ofArgs args)

end Host

end NestedPascal
