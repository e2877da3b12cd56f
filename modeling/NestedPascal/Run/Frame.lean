import NestedPascal.Json.Basic
import NestedPascal.Register
import NestedPascal.Value

/-!
# Frames

A frame is one activation of the program or of a procedure.  Its nesting counts the activations up
to it, its level is the depth of the scope whose body it runs, and its link leads to the frame of
the enclosing scope.  Names appear in it when they are first assigned.  How a link finds a frame is
left open here; on the stack of a run it is a place counted from the bottom.
-/

namespace NestedPascal

inductive FrameRole where
  | program
  | procedure
deriving DecidableEq, Repr, Inhabited

def FrameRole.text : FrameRole → String
  | .program => "PROGRAM"
  | .procedure => "PROCEDURE"

structure Frame (link : Type) where
  name : String
  role : FrameRole
  nesting : Nat
  level : Nat
  link : Option link
  members : Register String Value := .empty
deriving DecidableEq, Inhabited

namespace Frame

variable {link : Type}

def set (f : Frame link) (name : String) (value : Value) : Frame link :=
  { f with members := f.members.set name value }

def get? (f : Frame link) (name : String) : Option Value :=
  f.members.get? name

end Frame

/-- What reports show of a frame.  They also come from outside, with any numbers. -/
structure FrameReport where
  name : String
  role : FrameRole
  nesting : Binary64
  level : Binary64
  members : Register String Value
deriving DecidableEq, Inhabited

def Frame.report {link : Type} (f : Frame link) : FrameReport :=
  ⟨f.name, f.role, .ofNat f.nesting, .ofNat f.level, f.members⟩

namespace FrameReport

def toJson (f : FrameReport) : Json :=
  .ofFields [
    ("name", some (.ofString f.name)),
    ("type", some (.ofString f.role.text)),
    ("nestingLevel", some (.number f.nesting)),
    ("scopeLevel", some (.number f.level)),
    ("members", some (.record (f.members.entries.map fun m => (Text.ofString m.1, m.2.toJson))))]

/-- The frame in lines: what it is, then its members. -/
def lines (f : FrameReport) : List String :=
  (f.role.text ++ " " ++ f.name ++ " [nesting " ++ f.nesting.text ++ ", scope " ++ f.level.text ++
      "]") ::
    f.members.entries.map fun m => "  " ++ m.1 ++ ": " ++ m.2.kind.text ++ " = " ++ m.2.text

end FrameReport

end NestedPascal
