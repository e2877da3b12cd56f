import NestedPascal.Text.Glyph

/-!
# Positions

Lines and columns count from one, offsets from zero, and columns and offsets in 16-bit code units.
-/

namespace NestedPascal

/-- A place in a source: an offset, and the line and column it falls on. -/
structure Position where
  offset : Nat
  line : Nat
  column : Nat
deriving DecidableEq, Repr

namespace Position

def start : Position := ⟨0, 1, 1⟩

/-- The place after a text.  A line ends with a line feed, a carriage return, or both together. -/
def advance : Position → List Char → Position
  | p, [] => p
  | p, '\r' :: '\n' :: rest => advance ⟨p.offset + 2, p.line + 1, 1⟩ rest
  | p, c :: rest =>
    if c = '\n' ∨ c = '\r' then advance ⟨p.offset + 1, p.line + 1, 1⟩ rest
    else advance ⟨p.offset + unitWidth c, p.line, p.column + unitWidth c⟩ rest

end Position

end NestedPascal
