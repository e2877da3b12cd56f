import NestedPascal.Diagnostic
import NestedPascal.Token.Segment

/-!
# Tokens

The tokens of a source are the segments that are neither blank, comment nor dropped.  Each dropped
run is one lexical error, named after its first code unit.  A source with an error has no tokens to
speak of: every error is reported and nothing is parsed.
-/

namespace NestedPascal

structure Token where
  kind : TokenKind
  image : String
  offset : Nat
  span : Span
deriving DecidableEq, Repr

/-- A run of input that no lexeme starts in. -/
structure LexicalError where
  first : Glyph
  place : Position
  /-- The length of the run in code units. -/
  count : Nat
deriving DecidableEq, Repr

namespace Segment

/-- The span of a segment that stays on one line. -/
def span (s : Segment) : Span :=
  ⟨s.place.line, s.place.column, s.place.line, s.place.column + unitLength s.text⟩

def token? (s : Segment) : Option Token :=
  match s.kind with
  | .lexeme (.token kind) => some ⟨kind, String.ofList s.text, s.place.offset, s.span⟩
  | _ => none

def error? (s : Segment) : Option LexicalError :=
  match s.kind, s.text with
  | .dropped, c :: _ => some ⟨.firstUnit c, s.place, unitLength s.text⟩
  | _, _ => none

end Segment

namespace LexicalError

def message (e : LexicalError) : Text :=
  Text.ofString "unexpected character: ->" ++ e.first ::
    Text.ofString ("<- at offset: " ++ toString e.place.offset ++ ", skipped " ++
      toString e.count ++ " characters.")

def span (e : LexicalError) : Span :=
  ⟨e.place.line, e.place.column, e.place.line, e.place.column + e.count⟩

def diagnostic (file : String) (e : LexicalError) : Diagnostic where
  code := ErrorCode.lexical.text
  message := e.message
  location := some (e.span.inFile file)
  hint := some (.text "Check for characters outside the language or an unclosed '\x7b' comment.")

end LexicalError

def tokensOf (source : List Char) : List Token :=
  (Segment.ofSource source).filterMap Segment.token?

def lexicalErrors (source : List Char) : List LexicalError :=
  (Segment.ofSource source).filterMap Segment.error?

end NestedPascal
