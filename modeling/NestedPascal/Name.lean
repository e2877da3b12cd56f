import NestedPascal.Text.Case.Lower

/-!
# Names

Case does not tell identifiers apart.  The canonical form of a name is in lower case; tables and frames
are keyed by it.  Names in a program are ASCII, where lower case goes letter by letter.
-/

namespace NestedPascal

/-- The lower case of ASCII characters. -/
def canonicalChars (cs : List Char) : List Char :=
  cs.map Char.toLower

def canonicalName (name : String) : String :=
  String.ofList (lowerCase name.toList)

theorem canonicalName_ofList {cs : List Char} (h : ∀ c ∈ cs, c.toNat < 0x80) :
    canonicalName (String.ofList cs) = String.ofList (canonicalChars cs) := by
  simp [canonicalName, canonicalChars, lowerCase_of_ascii h]

end NestedPascal
