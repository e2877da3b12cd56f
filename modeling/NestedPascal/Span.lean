import NestedPascal.Binary64.Basic

/-!
# Places in a source

Lines and columns count from one, columns in 16-bit code units.  A span ends just after its last
unit.
-/

namespace NestedPascal

structure Span where
  startLine : Nat
  startColumn : Nat
  endLine : Nat
  endColumn : Nat
deriving DecidableEq, Repr, Inhabited

/-- The span from the start of one to the end of another. -/
def Span.to (first last : Span) : Span :=
  ⟨first.startLine, first.startColumn, last.endLine, last.endColumn⟩

/-- The place in a file that a report points at.  Reports also come from outside, with any numbers. -/
structure Location where
  file : String
  startLine : Binary64
  startColumn : Binary64
  endLine : Binary64
  endColumn : Binary64
deriving DecidableEq, Inhabited

def Span.inFile (s : Span) (file : String) : Location :=
  ⟨file, .ofNat s.startLine, .ofNat s.startColumn, .ofNat s.endLine, .ofNat s.endColumn⟩

end NestedPascal
