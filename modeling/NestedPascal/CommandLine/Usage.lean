import NestedPascal.CommandLine.Invocation

/-!
# Usage

The help texts of the program and of its commands.
-/

namespace NestedPascal.Usage

private def lines (ls : List String) : String :=
  String.join (ls.map (· ++ "\n"))

def program : String :=
  lines [
    "Usage: minipas [options] [command]",
    "",
    "Scope analysis and tree-walking execution for a small Pascal subset",
    "",
    "Options:",
    "  -V, --version           output the version number",
    "  -h, --help              display help for command",
    "",
    "Commands:",
    "  check [options] <file>  Parse and analyze without execution",
    "  run [options] <file>    Analyze and execute a program, then print the call",
    "                          stack",
    "  trace [options] <file>  Display trace summary",
    "  config [options]        Display effective configuration and resolution source",
    "  help [command]          display help for command"]

def check : String :=
  lines [
    "Usage: minipas check [options] <file>",
    "",
    "Parse and analyze without execution",
    "",
    "Arguments:",
    "  file           Source file to check",
    "",
    "Options:",
    "  --pretty       Human-readable output (default: false)",
    "  --debug-parse  Show raw parser internals on parse errors (default: false)",
    "  -h, --help     display help for command"]

def run : String :=
  lines [
    "Usage: minipas run [options] <file>",
    "",
    "Analyze and execute a program, then print the call stack",
    "",
    "Arguments:",
    "  file                  Source file to run (or - for stdin)",
    "",
    "Options:",
    "  --trace <path>        Write JSONL trace to file",
    "  --max-call-depth <n>  Override the configured call depth limit",
    "  --pretty              Human-readable output (default: false)",
    "  --debug-parse         Show raw parser internals on parse errors (default:",
    "                        false)",
    "  -h, --help            display help for command"]

def trace : String :=
  lines [
    "Usage: minipas trace [options] <file>",
    "",
    "Display trace summary",
    "",
    "Arguments:",
    "  file        JSONL trace file",
    "",
    "Options:",
    "  --json      Output as JSON (default: false)",
    "  -h, --help  display help for command"]

def config : String :=
  lines [
    "Usage: minipas config [options]",
    "",
    "Display effective configuration and resolution source",
    "",
    "Options:",
    "  --json      Output as JSON (default: false)",
    "  -h, --help  display help for command"]

/-- The help text of a command, or that of the program. -/
def ofCommand : Option CommandKind → String
  | none => program
  | some .check => check
  | some .run => run
  | some .trace => trace
  | some .config => config

end NestedPascal.Usage
