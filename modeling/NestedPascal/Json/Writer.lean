import NestedPascal.Decimal.Layout
import NestedPascal.Json.Basic

/-!
# Writing JSON

A value has a compact text, and a laid-out one that puts each item and member on a line of its own,
two blanks deeper than what encloses it.  In strings only the quote, the backslash, control
characters and unpaired surrogates are escaped.  A number that is not finite is written as null.
-/

namespace NestedPascal.Json

/-- The text of a glyph inside a quoted string. -/
def escape : Glyph → String
  | .char '"' => "\\\""
  | .char '\\' => "\\\\"
  | .char '\x08' => "\\b"
  | .char '\t' => "\\t"
  | .char '\n' => "\\n"
  | .char '\x0c' => "\\f"
  | .char '\r' => "\\r"
  | .char c => if c.toNat < 0x20 then "\\u" ++ hexDigits 4 c.toNat else c.toString
  | .unpaired unit => "\\u" ++ hexDigits 4 unit

def quote (t : Text) : String :=
  t.foldl (fun s g => s ++ escape g) "\"" ++ "\""

def writeNumber (x : Binary64) : String :=
  if x.isFinite then x.text else "null"

mutual

def compact : Json → String
  | .null => "null"
  | .bool b => if b then "true" else "false"
  | .number x => writeNumber x
  | .string t => quote t
  | .array items => "[" ++ ",".intercalate (compactItems items) ++ "]"
  | .object members => "\x7b" ++ ",".intercalate (compactMembers members) ++ "\x7d"

def compactItems : List Json → List String
  | [] => []
  | v :: rest => compact v :: compactItems rest

def compactMembers : List (Text × Json) → List String
  | [] => []
  | (name, v) :: rest => (quote name ++ ":" ++ compact v) :: compactMembers rest

end

/-- Puts brackets around lines, each indented to a depth. -/
def enclose (opening closing : String) (depth : Nat) (lines : List String) : String :=
  if lines.isEmpty then opening ++ closing
  else
    let indent := String.ofList (List.replicate (2 * depth) ' ')
    opening ++ "\n" ++ ",\n".intercalate (lines.map fun l => indent ++ "  " ++ l) ++ "\n" ++
      indent ++ closing

mutual

def laidOut (depth : Nat) : Json → String
  | .null => "null"
  | .bool b => if b then "true" else "false"
  | .number x => writeNumber x
  | .string t => quote t
  | .array items => enclose "[" "]" depth (laidOutItems (depth + 1) items)
  | .object members => enclose "\x7b" "\x7d" depth (laidOutMembers (depth + 1) members)

def laidOutItems (depth : Nat) : List Json → List String
  | [] => []
  | v :: rest => laidOut depth v :: laidOutItems depth rest

def laidOutMembers (depth : Nat) : List (Text × Json) → List String
  | [] => []
  | (name, v) :: rest => (quote name ++ ": " ++ laidOut depth v) :: laidOutMembers depth rest

end

def pretty (v : Json) : String :=
  v.laidOut 0

end NestedPascal.Json
