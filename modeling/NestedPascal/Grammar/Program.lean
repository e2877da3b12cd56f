import NestedPascal.Grammar.Block

/-!
# Parsing programs

A source is a program if it lexes without errors, its tokens are a program and nothing else, and no
integer numeral in it exceeds the largest INTEGER.  Otherwise there is no tree and at least one
diagnostic: all lexical errors, or the first parse error, or the first numeral out of range.
-/

namespace NestedPascal

namespace Parse

def program (file : String) (ts : List Token) : Parse Program ts := do
  let opening ← token (.keyword .program) ts
  let name ← token .identifier opening.rest
  let semicolon ← token (.mark .semicolon) name.rest
  let block ← block semicolon.rest
  let dot ← token (.mark .dot) block.rest
  .ok ⟨⟨file, opening.last.to dot.last, name.tree.image, block.tree⟩, dot.last, dot.rest, by
    have := opening.shorter
    have := name.shorter
    have := semicolon.shorter
    have := block.shorter
    have := dot.shorter
    omega⟩

end Parse

/-- The program that a list of tokens is. -/
def Program.ofTokens (file : String) (ts : List Token) : Except ParseError Program := do
  let parsed ← Parse.program file ts
  if parsed.rest.isEmpty then .ok parsed.tree else Parse.fail .endOfInput parsed.rest

/-- Whether a token is an integer numeral that denotes no INTEGER. -/
def Token.outOfRange (t : Token) : Bool :=
  t.kind == .integerNumber && integerMax < decimalValue t.image.toList

/-- The diagnostic of a parse error.  At the end of the input it points at the last token. -/
def ParseError.diagnostic (file : String) (detailed : Bool) (ts : List Token) (e : ParseError) :
    Diagnostic where
  code := ErrorCode.parse.text
  message := if detailed then e.detailedMessage else e.message
  location :=
    let span := match e.found.or ts.getLast? with
      | some t => t.span
      | none => ⟨1, 1, 1, 2⟩
    some (span.inFile file)
  hint := some (.text "Check syntax near this location.")

def Token.rangeDiagnostic (file : String) (t : Token) : Diagnostic where
  code := ErrorCode.parse.text
  message := "Integer literal '" ++ t.image ++ "' is out of range."
  location := some (t.span.inFile file)

/-- The program of a source, or the diagnostics that tell why it has none. -/
def Program.parse (source : List Char) (file : String) (detailed : Bool) :
    Except (List Diagnostic) Program :=
  let errors := lexicalErrors source
  if errors.isEmpty then
    let ts := tokensOf source
    match Program.ofTokens file ts with
    | .error e => .error [e.diagnostic file detailed ts]
    | .ok program =>
      match ts.find? Token.outOfRange with
      | some t => .error [t.rangeDiagnostic file]
      | none => .ok program
  else
    .error (errors.map (LexicalError.diagnostic file))

end NestedPascal
