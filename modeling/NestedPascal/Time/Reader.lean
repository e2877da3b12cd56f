import NestedPascal.Time.Loose
import NestedPascal.Time.Standard

/-!
# Reading a time

A text is first taken in the standard form; where that breaks off within the date, the rest is taken
in the loose form, and then the date need not stand in the standard order.
-/

namespace NestedPascal.Time

/-- Reads a point in time. -/
def read? (cs : List Char) : Option Int :=
  match Standard.read (Token.ofText cs) with
  | .complete f => f.instant? true
  | .loose date rest =>
    (Loose.read? { date := date } (!date.isEmpty) rest).bind fun f => f.instant? false
  | .refused => none

end NestedPascal.Time
