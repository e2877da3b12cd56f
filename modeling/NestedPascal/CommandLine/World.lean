import NestedPascal.CommandLine.FileTree
import NestedPascal.CommandLine.Host

/-!
# Worlds

A world is what commands find and change when they run without a machine: a tree of files, a clock,
and the outputs of the program as far as they are written under the names of files.  The program's own
outputs are no files, but they have places in the tree, and what is written there appears among what
the program prints.
-/

namespace NestedPascal

/-- An output of the program. -/
inductive OutputStream where
  | output
  | errors
deriving DecidableEq, Repr

structure World where
  files : FileTree
  /-- How often the clock was read. -/
  readings : Nat
  /-- What was written to the standard output as to a file. -/
  output : String
  /-- What was written to the error output as to a file. -/
  errors : String
  /-- Whether writing to an open file, or closing one, has failed. -/
  hasFailed : Bool

/-- What a program finds around it and does not change. -/
structure Surroundings where
  current : Place
  home : Place
  faultWords : Json.Fault → String
  input : List UInt8
  runId : String
  /-- What the clock shows when it is read once more. -/
  clock : Nat → Time.Instant
  /-- The places that are outputs of the program. -/
  streams : Register Place OutputStream
  /-- Why writing to the open file at a place, or closing it, fails, if it does. -/
  fault : Place → World → Option FileError

namespace World

/-- The world in which a command starts. -/
def ofFiles (files : FileTree) : World :=
  ⟨files, 0, "", "", false⟩

/-- What stands on the outputs when a reply has been printed. -/
def shown (w : World) (r : Reply) : Reply :=
  { r with output := w.output ++ r.output, errors := w.errors ++ r.errors }

end World

namespace Surroundings

/-- Writes a text to what is at a place: a file, or an output of the program. -/
def put (around : Surroundings) (place : Place) (text : String) (w : World) : World :=
  match around.streams.get? place with
  | none => { w with files := w.files.append place text }
  | some .output => { w with output := w.output ++ text }
  | some .errors => { w with errors := w.errors ++ text }

/-- Does something to what is open at a place, unless that fails. -/
def attempt (around : Surroundings) (place : Place) (act : World → World) :
    StateM World (Except FileError Unit) := do
  let w ← get
  match around.fault place w with
  | some e =>
    set { w with hasFailed := true }
    pure (.error e)
  | none =>
    set (act w)
    pure (.ok ())

/-- What is at a place, open for writing. -/
def openFile (around : Surroundings) (place : Place) : OpenFile (StateM World) where
  write text := around.attempt place (around.put place text)
  close := around.attempt place id

/-- Opens what is at a place; a file is made empty. -/
def create (around : Surroundings) (path : String) :
    StateM World (Except FileError (OpenFile (StateM World))) := do
  let w ← get
  match w.files.placeToWrite around.current path with
  | .error e => pure (.error e)
  | .ok place =>
    if (around.streams.get? place).isNone then
      set { w with files := w.files.create place }
    pure (.ok (around.openFile place))

def host (around : Surroundings) : Host (StateM World) where
  workingDirectory := FileTree.pathOf around.current
  homeDirectory := FileTree.pathOf around.home
  faultWords := around.faultWords
  isPresent path := do
    let w ← get
    pure (w.files.find around.current path).isOk
  read path := do
    let w ← get
    pure (w.files.read around.current path)
  readInput := pure around.input
  create := around.create
  clock := do
    let w ← get
    set { w with readings := w.readings + 1 }
    pure (around.clock w.readings)
  runId := pure around.runId

/-- Performs a command in a tree of files. -/
def perform (around : Surroundings) (t : FileTree) (c : Command) : Reply × World :=
  (around.host.perform c).run (.ofFiles t)

/-- The world that a command leaves. -/
def after (around : Surroundings) (t : FileTree) (c : Command) : World :=
  (around.perform t c).2

/-- What a command prints and how it exits, with what it wrote to its outputs as to files. -/
def outcome (around : Surroundings) (t : FileTree) (c : Command) : Reply :=
  (around.after t c).shown (around.perform t c).1

end Surroundings

end NestedPascal
