import NestedPascal.Text.Glyph

/-!
# Suggestions

A word that is not known is compared with those that are.  Two words are as far apart as it takes
insertions, deletions, substitutions and swaps of neighbours, no place touched twice, to make one of
the other; lengths that differ by more than three count as nothing in common.  Suggested are the
nearest candidates, if they are near enough.
-/

namespace NestedPascal.Suggestion

/-- The greatest distance, and difference in length, that still counts as near. -/
def reach : Nat := 3

/-- One row of the table of distances between the beginnings of two words: from the row above and
the one above that, for a letter `b` that follows `previous`.  `seen` is the letter before the
first of `as`. -/
def nextRow (b : Nat) (previous : Option Nat) :
    (seen : Option Nat) → (as : List Nat) → (left : Nat) → (above : List Nat) →
      (swapped : List Nat) → List Nat
  | seen, a :: as, left, diagonal :: up :: above, swapped =>
    let cost := if a = b then 0 else 1
    let plain := min (min (left + 1) (up + 1)) (diagonal + cost)
    -- The cell two rows up and two columns back, if a swap ends here.
    let best := match swapped with
      | corner :: _ => if seen = some b ∧ previous = some a then min plain (corner + 1) else plain
      | [] => plain
    let swapped := if seen.isSome then swapped.drop 1 else swapped
    best :: nextRow b previous (some a) as best (up :: above) swapped
  | _, _, _, _, _ => []

/-- The rows of the table, the last two of which are given, for the letters that remain. -/
def lastRow (as : List Nat) : (previous : Option Nat) → (bs : List Nat) → (count : Nat) →
    (above twoAbove : List Nat) → List Nat
  | _, [], _, above, _ => above
  | previous, b :: bs, count, above, twoAbove =>
    let row := (count + 1) :: nextRow b previous none as (count + 1) above twoAbove
    lastRow as (some b) bs (count + 1) row above

/-- The distance between two words. -/
def distance (a b : List Nat) : Nat :=
  if reach < max a.length b.length - min a.length b.length then max a.length b.length
  else (lastRow a none b 0 (List.range (a.length + 1)) []).getLastD 0

/-- The candidates nearest to a word, and how far away they are; those found so far come first. -/
def nearest (word : List Nat) : Nat × List String → List String → Nat × List String
  | found, [] => found
  | (best, found), c :: rest =>
    let candidate := codeUnits c.toList
    let d := distance word candidate
    let length := max word.length candidate.length
    let next :=
      -- More than two fifths of the longer word must agree.
      if candidate.length ≤ 1 ∨ 5 * (length - d) ≤ 2 * length then (best, found)
      else if d < best then (d, [c])
      else if d = best then (best, found ++ [c])
      else (best, found)
    nearest word next rest

/-- The candidates to suggest for a word, in alphabetical order. -/
def similar (word : String) (candidates : List String) : List String :=
  (nearest (codeUnits word.toList) (reach, []) candidates.eraseDups).2.mergeSort

/-- The line that suggests candidates, written behind a lead such as two dashes. -/
def write (lead : String) (candidates : List String) : String :=
  match candidates.map (lead ++ ·) with
  | [] => ""
  | [one] => "\n(Did you mean " ++ one ++ "?)"
  | several => "\n(Did you mean one of " ++ ", ".intercalate several ++ "?)"

end NestedPascal.Suggestion
