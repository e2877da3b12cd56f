import NestedPascal.Run.Frame

/-!
# The call stack

Frames lie on the stack from the bottom up.  The frame that runs the scope of a given level is found
by following links from the top: every link leads further down, to the frame of the enclosing scope.
-/

namespace NestedPascal

structure CallStack (frame : Type) where
  /-- Bottom first. -/
  frames : Array frame
deriving DecidableEq

namespace CallStack

variable {frame : Type}

def empty : CallStack frame := ⟨#[]⟩

instance : Inhabited (CallStack frame) := ⟨empty⟩

def depth (s : CallStack frame) : Nat :=
  s.frames.size

def push (s : CallStack frame) (f : frame) : CallStack frame :=
  ⟨s.frames.push f⟩

def pop (s : CallStack frame) : CallStack frame :=
  ⟨s.frames.pop⟩

def peek? (s : CallStack frame) : Option frame :=
  s.frames.back?

/-- What reports show of a stack of frames. -/
def report {link : Type} (s : CallStack (Frame link)) : CallStack FrameReport :=
  ⟨s.frames.map Frame.report⟩

def toJson (s : CallStack FrameReport) : Json :=
  .array (s.frames.toList.map FrameReport.toJson)

/-- The frames in blocks of lines, bottom first. -/
def readable (s : CallStack FrameReport) : String :=
  "\n\n".intercalate (s.frames.toList.map fun f => "\n".intercalate f.lines)

/-- The place of the frame of a level on the chain of links that starts at a place. -/
def holderFrom? (s : CallStack (Frame Nat)) (level place : Nat) : Option Nat :=
  match s.frames[place]? with
  | none => none
  | some f =>
    if level < f.level then
      match f.link with
      | some next => if next < place then s.holderFrom? level next else none
      | none => none
    else if f.level = level then some place
    else none
termination_by place

/-- The place of the frame that runs the scope of a level, as seen from the top. -/
def holder? (s : CallStack (Frame Nat)) (level : Nat) : Option Nat :=
  if s.depth = 0 then none else s.holderFrom? level (s.depth - 1)

/-- Sets a name in the frame at a place. -/
def set (s : CallStack (Frame Nat)) (place : Nat) (name : String) (value : Value) :
    CallStack (Frame Nat) :=
  ⟨s.frames.modify place (·.set name value)⟩

end CallStack

end NestedPascal
