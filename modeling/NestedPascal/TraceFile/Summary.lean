import NestedPascal.Text.Inherited
import NestedPascal.TraceFile.Line
import NestedPascal.Time.Reader

/-!
# Trace summaries

A summary counts what a trace tells: scopes entered, calls in all and by procedure, the deepest
stack, and when the run started and ended.  The calls by procedure are a record, and a record
answers to some names from the start: the count of a procedure of such a name continues the text
that it finds there, digit by digit, and one name cannot be set at all.
-/

namespace NestedPascal

/-- How often a procedure was called. -/
inductive CallCount where
  | count (n : Nat)
  /-- A text continued by a one for each call. -/
  | continued (text : String)
deriving DecidableEq, Repr

namespace CallCount

def next : CallCount → CallCount
  | count n => count (n + 1)
  | continued text => continued (text ++ "1")

def toJson : CallCount → Json
  | count n => .ofNat n
  | continued text => .ofString text

def text : CallCount → String
  | count n => toString n
  | continued text => text

end CallCount

/-- What a trace marks once, with a text of its own. -/
inductive TraceMark where
  | startTime
  | endTime
  | error
deriving DecidableEq, Repr

def TraceMark.name : TraceMark → String
  | startTime => "startTime"
  | endTime => "endTime"
  | error => "error"

structure TraceSummary where
  runId : Text
  totalEvents : Nat
  skippedLines : Binary64
  scopesEntered : Nat
  calls : Nat
  callsByProcedure : Register Text CallCount
  maxDepth : Binary64
  marks : Register TraceMark Text

namespace TraceSummary

/-- The count that a procedure's first call starts from. -/
def initialCount (procedure : Text) : CallCount :=
  match inheritedText? procedure.toString with
  | some text => .continued text
  | none => .count 0

def countCall (s : TraceSummary) (procedure : Text) : TraceSummary :=
  let s := { s with calls := s.calls + 1 }
  if procedure = Text.ofString "__proto__" then s
  else
    let count := (s.callsByProcedure.get? procedure).getD (initialCount procedure)
    { s with callsByProcedure := s.callsByProcedure.set procedure count.next }

def mark (s : TraceSummary) (m : TraceMark) (t : Text) : TraceSummary :=
  { s with marks := s.marks.set m t }

def deepen (s : TraceSummary) (depth : Option Binary64) : TraceSummary :=
  match depth with
  | some x => if s.maxDepth.lt x then { s with maxDepth := x } else s
  | none => s

def add (s : TraceSummary) (l : TraceLine) : TraceSummary :=
  let s := s.deepen ((l.datum? "depth").bind TraceDatum.number?)
  let event := l.event
  if event = Text.ofString "run_start" then s.mark .startTime l.time
  else if event = Text.ofString "run_end" then
    let s := s.mark .endTime l.time
    match (l.datum? "error").bind TraceDatum.text? with
    | some e => s.mark .error e
    | none => s
  else if event = Text.ofString "scope_enter" then
    { s with scopesEntered := s.scopesEntered + 1 }
  else if event = Text.ofString "call_start" then
    s.countCall (((l.datum? "procedure").bind TraceDatum.text?).getD "unknown")
  else s

def ofLines (lines : List TraceLine) (skipped : Binary64) : TraceSummary :=
  let runId := match lines with
    | l :: _ => l.runId
    | [] => []
  lines.foldl add ⟨runId, lines.length, skipped, 0, 0, .empty, .zero false, .empty⟩

/-- The milliseconds from start to end, if both are told; no number if one of them is no time. -/
def duration? (s : TraceSummary) : Option Binary64 :=
  match s.marks.get? .startTime, s.marks.get? .endTime with
  | some start, some finish =>
    if start = [] ∨ finish = [] then none
    else match Time.read? start.shown, Time.read? finish.shown with
      | some t, some u => some (.ofInt (u - t))
      | _, _ => some .nan
  | _, _ => none

def toJson (s : TraceSummary) : Json :=
  let counts := s.callsByProcedure.entries.map fun c => (c.1, c.2.toJson)
  .ofFields ([
    ("runId", some (.string s.runId)),
    ("totalEvents", some (.ofNat s.totalEvents)),
    ("skippedLines", some (.number s.skippedLines)),
    ("scopesEntered", some (.ofNat s.scopesEntered)),
    ("calls", some (.ofNat s.calls)),
    ("callsByProcedure", some (.record counts)),
    ("maxDepth", some (.number s.maxDepth))] ++
    s.marks.entries.map (fun m => (m.1.name, some (.string m.2))) ++
    [("durationMs", s.duration?.map .number)])

def readable (s : TraceSummary) : List String :=
  let skipped :=
    if (Binary64.zero false).lt s.skippedLines then
      ["  Skipped lines:    " ++ s.skippedLines.text]
    else []
  let counts := (recordOrder s.callsByProcedure.entries).map fun c =>
    "    " ++ c.1.toString ++ ": " ++ c.2.text
  let error := match s.marks.get? .error with
    | some e => if e = [] then [] else ["  Error:            " ++ e.toString]
    | none => []
  let duration := match s.duration? with
    | some d => ["  Duration:         " ++ d.text ++ "ms"]
    | none => []
  ["Trace Summary",
    "  Run ID:           " ++ s.runId.toString,
    "  Total events:     " ++ toString s.totalEvents] ++
    skipped ++
    ["  Scopes entered:   " ++ toString s.scopesEntered,
      "  Procedure calls:  " ++ toString s.calls] ++
    counts ++
    ["  Max stack depth:  " ++ s.maxDepth.text] ++
    error ++ duration

end TraceSummary

end NestedPascal
