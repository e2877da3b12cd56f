import NestedPascal.Diagnostic

/-!
# Events

What analysis and execution report as they go: scopes entered and left, the start and end of a run,
calls started and ended.  The depth of a call counts the frames on the stack, its own included.
-/

namespace NestedPascal

inductive EventKind where
  | scopeEnter (scope : String) (level : Nat)
  | scopeLeave (scope : String) (level symbols : Nat)
  | runStart (program file : String)
  /-- The depth at the end, and the code and message of the error that ended the run, if one did. -/
  | runEnd (depth : Nat) (error : Option (String × String))
  | callStart (procedure : String) (depth : Nat)
  | callEnd (procedure : String) (depth : Nat)
deriving DecidableEq, Repr

structure Event where
  kind : EventKind
  span : Span
deriving DecidableEq, Repr

namespace Event

def name (e : Event) : String :=
  match e.kind with
  | .scopeEnter .. => "scope_enter"
  | .scopeLeave .. => "scope_leave"
  | .runStart .. => "run_start"
  | .runEnd .. => "run_end"
  | .callStart .. => "call_start"
  | .callEnd .. => "call_end"

/-- What the event tells, apart from times. -/
def data (e : Event) : List (String × Json) :=
  match e.kind with
  | .scopeEnter scope level => [("scope", .ofString scope), ("level", .ofNat level)]
  | .scopeLeave scope level symbols =>
    [("scope", .ofString scope), ("level", .ofNat level), ("symbols", .ofNat symbols)]
  | .runStart program file => [("program", .ofString program), ("file", .ofString file)]
  | .runEnd depth none => [("depth", .ofNat depth)]
  | .runEnd depth (some (code, message)) =>
    [("depth", .ofNat depth), ("error", .ofString code), ("message", .ofString message)]
  | .callStart procedure depth | .callEnd procedure depth =>
    [("procedure", .ofString procedure), ("depth", .ofNat depth)]

end Event

end NestedPascal
