import NestedPascal.Position
import NestedPascal.Token.Lexeme

/-!
# Segments

A source is cut, without gap or overlap, into segments.  Each is the longest lexeme at its place, or
a run of characters dropped because no lexeme starts at any of them.
-/

namespace NestedPascal

/-- What a segment is: a lexeme, or dropped input. -/
inductive SegmentKind where
  | lexeme (l : Lexeme)
  | dropped
deriving DecidableEq, Repr

structure Segment where
  kind : SegmentKind
  text : List Char
  place : Position
deriving DecidableEq, Repr

namespace Segment

/-- The run of characters at none of which a lexeme starts. -/
def droppedRun : List Char → List Char
  | [] => []
  | c :: rest => if (Lexeme.match? (c :: rest)).isSome then [] else c :: droppedRun rest

theorem droppedRun_prefix (cs : List Char) : droppedRun cs <+: cs := by
  induction cs with
  | nil => exact List.nil_prefix
  | cons c rest ih =>
    unfold droppedRun
    split
    · exact List.nil_prefix
    · exact List.cons_prefix_cons.2 ⟨rfl, ih⟩

/-- The first segment of a text that is not empty: its kind and its length. -/
def first (c : Char) (rest : List Char) : SegmentKind × Nat :=
  match Lexeme.match? (c :: rest) with
  | some (l, n) => (.lexeme l, n)
  | none => (.dropped, (droppedRun rest).length + 1)

theorem first_pos (c : Char) (rest : List Char) : 0 < (first c rest).2 := by
  unfold first
  split
  · rename_i h
    exact Lexeme.match?_pos h
  · omega

/-- Cuts a text that starts at a place. -/
def cut (place : Position) (cs : List Char) : List Segment :=
  match cs with
  | [] => []
  | c :: rest =>
    let text := (c :: rest).take (first c rest).2
    ⟨(first c rest).1, text, place⟩ ::
      cut (place.advance text) ((c :: rest).drop (first c rest).2)
termination_by cs.length
decreasing_by
  have := first_pos c rest
  simp only [List.length_drop, List.length_cons] at *
  omega

def ofSource (source : List Char) : List Segment :=
  cut .start source

end Segment

end NestedPascal
