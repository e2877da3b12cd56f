import NestedPascal.Event
import NestedPascal.Json.Reader
import NestedPascal.Json.Writer
import NestedPascal.Text.Blank
import NestedPascal.Time.Calendar

/-!
# Trace lines

A trace is written with one event on a line, as an object with the time, the run and what the event
tells.  A line that is read back needs a time, a run and an event, each a string; its data, if there
are any, are strings and numbers.
-/

namespace NestedPascal

inductive TraceDatum where
  | text (t : Text)
  | number (x : Binary64)
deriving DecidableEq

structure TraceLine where
  time : Text
  runId : Text
  event : Text
  data : List (Text × TraceDatum)
deriving DecidableEq

namespace TraceDatum

def ofJson? : Json → Option TraceDatum
  | .string t => some (.text t)
  | .number x => some (.number x)
  | _ => none

def text? : TraceDatum → Option Text
  | .text t => some t
  | .number _ => none

def number? : TraceDatum → Option Binary64
  | .number x => some x
  | .text _ => none

end TraceDatum

namespace TraceLine

def stringMember? (name : String) (members : List (Text × Json)) : Option Text :=
  match Json.member? name members with
  | some (.string t) => some t
  | _ => none

def readData? (members : List (Text × Json)) : Option (List (Text × TraceDatum)) :=
  match Json.member? "data" members with
  | none => some []
  | some (.object data) =>
    data.mapM fun (name, value) => (TraceDatum.ofJson? value).map fun d => (name, d)
  | some _ => none

def ofJson? : Json → Option TraceLine
  | .object members => do
    let time ← stringMember? "ts" members
    let runId ← stringMember? "runId" members
    let event ← stringMember? "event" members
    let data ← readData? members
    some ⟨time, runId, event, data⟩
  | _ => none

def read? (cs : List Char) : Option TraceLine :=
  (Json.read? cs).bind ofJson?

def datum? (l : TraceLine) (name : String) : Option TraceDatum :=
  Register.lookup (Text.ofString name) l.data

end TraceLine

/-- An event with the time when it was told. -/
structure TimedEvent where
  event : Event
  time : Time.Instant
  /-- How long the run took, which is told at its end only. -/
  duration : Time.Duration

namespace TimedEvent

/-- The object of an event's line. -/
def toJson (file runId : String) (e : TimedEvent) : Json :=
  let duration := match e.event.kind with
    | .runEnd .. => [("durationMs", some (Json.ofInt e.duration.millis))]
    | _ => []
  .ofFields [
    ("ts", some (.ofString e.time.text)),
    ("runId", some (.ofString runId)),
    ("event", some (.ofString e.event.name)),
    ("span", some (e.event.span.inFile file).toJson),
    ("data", some (.ofFields (duration ++ e.event.data.map fun d => (d.1, some d.2))))]

def line (file runId : String) (e : TimedEvent) : String :=
  (e.toJson file runId).compact

end TimedEvent

/-- The text of a trace. -/
def traceText (file runId : String) (told : List TimedEvent) : String :=
  String.join (told.map fun e => e.line file runId ++ "\n")

/-- Cuts a text at its line feeds. -/
def splitLines : List Char → List (List Char)
  | [] => [[]]
  | c :: rest =>
    if c = '\n' then [] :: splitLines rest
    else match splitLines rest with
      | line :: lines => (c :: line) :: lines
      | [] => [[c]]

/-- The lines of a trace that are not blank. -/
def traceLines (source : List Char) : List (List Char) :=
  (splitLines source).filter fun l => !l.all isBlank

end NestedPascal
