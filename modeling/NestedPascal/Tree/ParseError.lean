import NestedPascal.Token.Basic

/-!
# Parse errors

Parsing stops at the first token that no program can have there, or at the end of the input if more
must follow.  The error names that token; what was expected in its place is told on request.
-/

namespace NestedPascal

/-- What must come next where parsing stopped. -/
inductive Expected where
  | token (kind : TokenKind)
  | factor
  | typeName
  /-- At least one declaration after the word that opens a variable section. -/
  | declaration
  | endOfInput
deriving DecidableEq, Repr

structure ParseError where
  expected : Expected
  /-- The offending token, none at the end of the input. -/
  found : Option Token
deriving DecidableEq, Repr

namespace ParseError

def foundImage (e : ParseError) : String :=
  match e.found with
  | some t => t.image
  | none => ""

def message (e : ParseError) : String :=
  match e.found with
  | some t => "Unexpected token '" ++ t.image ++ "'."
  | none => "Unexpected end of input."

private def alternatives (names : List String) : String :=
  let numbered := (names.zipIdx 1).map fun (name, i) => "\n  " ++ toString i ++ ". [" ++ name ++ "]"
  "Expecting: one of these possible Token sequences:" ++ String.join numbered

/-- The message that also tells what was expected. -/
def detailedMessage (e : ParseError) : String :=
  match e.expected with
  | .token kind =>
    "Expecting token of type --> " ++ kind.name ++ " <-- but found --> '" ++ e.foundImage ++ "' <--"
  | .factor =>
    alternatives ["AdditiveOperator", "IntegerConst", "RealConst", "LParen", "Ident"] ++
      "\nbut found: '" ++ e.foundImage ++ "'"
  | .typeName => alternatives ["Integer", "Real"] ++ "\nbut found: '" ++ e.foundImage ++ "'"
  | .declaration =>
    "Expecting: expecting at least one iteration which starts with one of these possible Token " ++
      "sequences::\n  <[Ident]>\nbut found: '" ++ e.foundImage ++ "'"
  | .endOfInput => "Redundant input, expecting EOF but found: " ++ e.foundImage

end ParseError

end NestedPascal
