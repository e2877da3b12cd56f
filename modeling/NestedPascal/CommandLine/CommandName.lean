import NestedPascal.CommandLine.OptionSpec

/-!
# The name of the command

The command is looked for before the options are scanned: it is the first argument that is neither
an option nor the value of one.  An argument that holds its value after an equals sign is skipped
alone, and after two dashes the next argument is the command.
-/

namespace NestedPascal

structure CommandSpec where
  name : String
  aliases : List String := []
deriving Repr

/-- The command that a text such as `copy <from> [to]` describes: its first word is the name. -/
def CommandSpec.ofUsage (usage : String) (aliases : List String) : CommandSpec where
  name := String.ofList ((usage.toList.dropWhile (· == ' ')).takeWhile (· != ' '))
  aliases := aliases

/-- The first argument that names a command. -/
def commandName? (options : List OptionSpec) : List String → Option String
  | [] => none
  | arg :: rest =>
    if arg = "--" then rest.head?
    else if arg.toList.head? ≠ some '-' then some arg
    else if arg.toList.contains '=' then commandName? options rest
    else if (OptionSpec.find? options arg).any (·.takesValue) then
      match rest with
      | _ :: rest => commandName? options rest
      | [] => none
    else commandName? options rest

/-- The name of a command that does not exist, if one is asked for. -/
def unknownCommand? (options : List OptionSpec) (commands : List CommandSpec)
    (args : List String) : Option String :=
  match commandName? options args with
  | none => none
  | some name =>
    if name = "help" ∨ commands.any (fun c => c.name == name || c.aliases.contains name) then none
    else some name

end NestedPascal
