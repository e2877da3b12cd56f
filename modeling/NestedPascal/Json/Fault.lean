import NestedPascal.Position
import NestedPascal.Text.Digits

/-!
# Faults in JSON

A text that is no JSON value is at fault at one place: the first where no value could go on as the
text does.  What was read up to there and what is left together are the text, so a fault can tell
where it is, and show what is around it.
-/

namespace NestedPascal.Json

/-- What is wrong at the place of a fault.  The causes named for a part say that it is missing. -/
inductive FaultCause where
  | endOfText
  | unexpectedCharacter
  | unexpectedNumber
  | unexpectedString
  | memberOrBrace
  | memberName
  | colon
  | commaOrBrace
  | commaOrBracket
  | endOfValue
  | digitAfterSign
  | digitAfterPoint
  | digitOfExponent
  | closingQuote
  | controlCharacter
  | badEscape
  | badUnicodeEscape
deriving DecidableEq, Repr

/-- Where a reader stopped: at the front of the text that is left. -/
structure Stop where
  cause : FaultCause
  rest : List Char
deriving DecidableEq, Repr

/-- The stop at something that starts no value, or goes on with no word. -/
def Stop.unexpected (rest : List Char) : Stop :=
  match rest with
  | [] => ⟨.endOfText, []⟩
  | '"' :: _ => ⟨.unexpectedString, rest⟩
  | c :: _ => ⟨if isDigit c ∨ c = '-' then .unexpectedNumber else .unexpectedCharacter, rest⟩

structure Fault where
  cause : FaultCause
  /-- The text before the fault. -/
  before : List Char
  /-- The text from the fault on. -/
  rest : List Char
deriving DecidableEq, Repr

namespace Fault

def source (f : Fault) : List Char :=
  f.before ++ f.rest

def position (f : Fault) : Position :=
  Position.start.advance f.before

/-- How many code units are shown on either side of a character that does not fit. -/
def margin : Nat := 10

/-- The text around the fault, quoted, with dots where it is cut.  A short text is shown whole. -/
def excerpt (f : Fault) : String :=
  let units := codeUnits f.source
  let here := unitLength f.before
  let quoted := fun us => "\"" ++ (Text.ofUnits us).toString ++ "\""
  if units.length ≤ 2 * margin then quoted units
  else
    let first := here - margin
    (if margin ≤ here then "..." else "") ++
      quoted ((units.drop first).take (here + margin - first)) ++
      (if here + margin < units.length then "..." else "")

/-- Texts that stand for the absence of a value.  They are not taken apart. -/
def absences : List String :=
  ["NaN", "Infinity", "undefined", "[object Object]"]

/-- The message about a character that does not fit. -/
def characterMessage (f : Fault) : String :=
  let whole := String.ofList f.source
  if whole ∈ absences then "\"" ++ whole ++ "\" is not valid JSON"
  else
    let shown := f.rest.head?.map fun c => (Glyph.firstUnit c).shown
    "Unexpected token '" ++ String.ofList shown.toList ++ "', " ++ f.excerpt ++ " is not valid JSON"

/-- A message with the place of the fault. -/
def placed (f : Fault) (message : String) : String :=
  let p := f.position
  message ++ " at position " ++ toString p.offset ++ " (line " ++ toString p.line ++ " column " ++
    toString p.column ++ ")"

def message (f : Fault) : String :=
  match f.cause with
  | .endOfText => "Unexpected end of JSON input"
  | .unexpectedCharacter => f.characterMessage
  | .unexpectedNumber => f.placed "Unexpected number in JSON"
  | .unexpectedString => f.placed "Unexpected string in JSON"
  | .memberOrBrace => f.placed "Expected property name or '\x7d' in JSON"
  | .memberName => f.placed "Expected double-quoted property name in JSON"
  | .colon => f.placed "Expected ':' after property name in JSON"
  | .commaOrBrace => f.placed "Expected ',' or '\x7d' after property value in JSON"
  | .commaOrBracket => f.placed "Expected ',' or ']' after array element in JSON"
  | .endOfValue => f.placed "Unexpected non-whitespace character after JSON"
  | .digitAfterSign => f.placed "No number after minus sign in JSON"
  | .digitAfterPoint => f.placed "Unterminated fractional number in JSON"
  | .digitOfExponent => f.placed "Exponent part is missing a number in JSON"
  | .closingQuote => f.placed "Unterminated string in JSON"
  | .controlCharacter => f.placed "Bad control character in string literal in JSON"
  | .badEscape => f.placed "Bad escaped character in JSON"
  | .badUnicodeEscape => f.placed "Bad Unicode escape in JSON"

end Fault

end NestedPascal.Json
