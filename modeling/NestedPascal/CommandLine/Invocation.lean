import NestedPascal.CommandLine.CommandName
import NestedPascal.CommandLine.Suggestion
import NestedPascal.Decimal.Numeral
import NestedPascal.Run.DepthLimit

/-!
# Invocations

What a list of arguments asks for: one of the commands, help, the version, or nothing that can be
done.  An unknown command is found out first.  Then the program's own options are scanned over all
arguments, and what they leave is scanned by the command.  A value that an option refuses counts
before an unknown option, and that before a missing file.
-/

namespace NestedPascal

inductive CommandKind where
  | check
  | run
  | trace
  | config
deriving DecidableEq, Repr

namespace CommandKind

def all : List CommandKind :=
  [check, run, trace, config]

def name : CommandKind → String
  | check => "check"
  | run => "run"
  | trace => "trace"
  | config => "config"

def ofName? (name : String) : Option CommandKind :=
  all.find? (·.name == name)

def takesFile : CommandKind → Bool
  | config => false
  | _ => true

private def flag (long : String) : OptionSpec :=
  { short := none, long := some long, value := .none }

/-- The positive integer that a numeral denotes. -/
def positiveInteger? (numeral : String) : Option Binary64 :=
  (Numeral.read? numeral.toList).filter fun x => x.toInt?.any (1 ≤ ·)

def options : CommandKind → List OptionSpec
  | check => [flag "--pretty", flag "--debug-parse"]
  | run => [
    { short := none, long := some "--trace", value := .required "path" },
    { short := none, long := some "--max-call-depth", value := .required "n"
      complaint := fun v =>
        if (positiveInteger? v).isSome then none else some "Expected a positive integer." },
    flag "--pretty", flag "--debug-parse"]
  | trace => [flag "--json"]
  | config => [flag "--json"]

end CommandKind

inductive Command where
  | check (file : String) (pretty detailed : Bool)
  | run (file : String) (trace : Option String) (limit : Option DepthLimit) (pretty detailed : Bool)
  | trace (file : String) (json : Bool)
  | config (json : Bool)
deriving DecidableEq

inductive Invocation where
  | command (c : Command)
  | version
  /-- Help that was asked for, of the program or of a command. -/
  | help (of : Option CommandKind)
  /-- Help because nothing else was asked for. -/
  | usage
  | invalid (message : String)
deriving DecidableEq

namespace Invocation

def programOptions : List OptionSpec :=
  [{ short := some "-V", long := some "--version", value := .none }]

def asksForHelp (args : List String) : Bool :=
  args.any fun arg => arg == "-h" || arg == "--help"

def longNames (options : List OptionSpec) : List String :=
  options.filterMap OptionSpec.long ++ ["--help"]

/-- The complaint about an unknown option, with suggestions for one with a long name. -/
def unknownOption (candidates : List String) (arg : String) : Invocation :=
  let suggestion := match arg.toList with
    | '-' :: '-' :: word =>
      let words := candidates.map fun c => String.ofList (c.toList.drop 2)
      Suggestion.write "--" (Suggestion.similar (String.ofList word) words)
    | _ => ""
  .invalid ("error: unknown option '" ++ arg ++ "'" ++ suggestion)

def unknownCommand (name : String) : Invocation :=
  let candidates := CommandKind.all.map CommandKind.name ++ ["help"]
  .invalid ("error: unknown command '" ++ name ++ "'" ++
    Suggestion.write "" (Suggestion.similar name candidates))

/-- The command of a kind with its settings and a file. -/
def build (kind : CommandKind) (s : ScannedArgs) (file : String) : Command :=
  let pretty := s.hasSetting "--pretty"
  let detailed := s.hasSetting "--debug-parse"
  let json := s.hasSetting "--json"
  match kind with
  | .check => .check file pretty detailed
  | .run =>
    .run file (s.setting? "--trace")
      (((s.setting? "--max-call-depth").bind CommandKind.positiveInteger?).map DepthLimit.mk) pretty detailed
  | .trace => .trace file json
  | .config => .config json

/-- The invocation of a command with operands that are already known and arguments to scan. -/
def ofCommand (kind : CommandKind) (operands args : List String) : Invocation :=
  match ScannedArgs.scan kind.options args with
  | .error message => .invalid message
  | .ok s =>
    if asksForHelp s.unknown then .help (some kind)
    else match s.unknown with
      | arg :: _ => unknownOption (longNames kind.options ++ longNames programOptions) arg
      | [] =>
        match operands ++ s.operands with
        | file :: _ => .command (build kind s file)
        | [] =>
          if kind.takesFile then .invalid "error: missing required argument 'file'"
          else .command (build kind s "")

/-- The invocation that asks for help, perhaps on a command. -/
def ofHelp : List String → Invocation
  | [] => .help none
  | name :: _ =>
    if name.isEmpty then .help none
    else match CommandKind.ofName? name with
      | some kind => .help (some kind)
      | none => .usage

/-- The invocation when no operand names a command. -/
def withoutCommand (s : ScannedArgs) : Invocation :=
  if s.operands.isEmpty && s.unknown.isEmpty then .usage
  else if asksForHelp s.unknown then .help none
  else match s.operands, s.unknown with
    | name :: _, _ => unknownCommand name
    | [], arg :: _ => unknownOption (longNames programOptions) arg
    | [], [] => .usage

def ofArgs (args : List String) : Invocation :=
  let commands := CommandKind.all.map fun kind => { name := kind.name : CommandSpec }
  match (unknownCommand? programOptions commands args).filter (· ≠ "") with
  | some name => .invalid ("Unknown command: " ++ name)
  | none =>
    match ScannedArgs.scan programOptions args with
    | .error message => .invalid message
    | .ok s =>
      if s.hasSetting "--version" then .version
      else match s.operands with
        | [] => withoutCommand s
        | name :: operands =>
          match CommandKind.ofName? name with
          | some kind => ofCommand kind operands s.unknown
          | none => if name = "help" then ofHelp operands else withoutCommand s

end Invocation

end NestedPascal
