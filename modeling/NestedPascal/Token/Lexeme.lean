import NestedPascal.Name
import NestedPascal.Text.Blank
import NestedPascal.Text.Digits

/-!
# Lexemes

The classes of text that a source is made of: tokens, and the blanks and comments between them.
Each class knows how long its longest member at the front of a text is.  At every place the first
class in the list wins that has a member there, a keyword giving way to an identifier that is longer.
-/

namespace NestedPascal

inductive Keyword where
  | program
  | var
  | procedure
  | blockBegin
  | blockEnd
  | div
  | integer
  | real
deriving DecidableEq, Repr

namespace Keyword

def all : List Keyword :=
  [program, var, procedure, blockBegin, blockEnd, div, integer, real]

/-- The name of the token class. -/
def name : Keyword → String
  | program => "Program"
  | var => "Var"
  | procedure => "Procedure"
  | blockBegin => "Begin"
  | blockEnd => "End"
  | div => "Div"
  | integer => "Integer"
  | real => "Real"

/-- The keyword in lower case. -/
def spelling : Keyword → List Char
  | program => ['p', 'r', 'o', 'g', 'r', 'a', 'm']
  | var => ['v', 'a', 'r']
  | procedure => ['p', 'r', 'o', 'c', 'e', 'd', 'u', 'r', 'e']
  | blockBegin => ['b', 'e', 'g', 'i', 'n']
  | blockEnd => ['e', 'n', 'd']
  | div => ['d', 'i', 'v']
  | integer => ['i', 'n', 't', 'e', 'g', 'e', 'r']
  | real => ['r', 'e', 'a', 'l']

end Keyword

inductive Mark where
  | assign
  | colon
  | semicolon
  | comma
  | dot
  | leftParen
  | rightParen
  | plus
  | minus
  | star
  | slash
deriving DecidableEq, Repr

namespace Mark

def all : List Mark :=
  [assign, colon, semicolon, comma, dot, leftParen, rightParen, plus, minus, star, slash]

/-- The name of the token class. -/
def name : Mark → String
  | assign => "Assign"
  | colon => "Colon"
  | semicolon => "Semi"
  | comma => "Comma"
  | dot => "Dot"
  | leftParen => "LParen"
  | rightParen => "RParen"
  | plus => "Plus"
  | minus => "Minus"
  | star => "Star"
  | slash => "Slash"

def spelling : Mark → List Char
  | assign => [':', '=']
  | colon => [':']
  | semicolon => [';']
  | comma => [',']
  | dot => ['.']
  | leftParen => ['(']
  | rightParen => [')']
  | plus => ['+']
  | minus => ['-']
  | star => ['*']
  | slash => ['/']

end Mark

inductive TokenKind where
  | keyword (k : Keyword)
  | identifier
  | realNumber
  | integerNumber
  | mark (m : Mark)
deriving DecidableEq, Repr

def TokenKind.name : TokenKind → String
  | .keyword k => k.name
  | .identifier => "Ident"
  | .realNumber => "RealConst"
  | .integerNumber => "IntegerConst"
  | .mark m => m.name

inductive Lexeme where
  | blank
  | comment
  | token (kind : TokenKind)
deriving DecidableEq, Repr

def isLetter (c : Char) : Bool :=
  ('a' ≤ c && c ≤ 'z') || ('A' ≤ c && c ≤ 'Z') || c == '_'

def isLetterOrDigit (c : Char) : Bool :=
  isLetter c || isDigit c

namespace Lexeme

/-- All classes, in order of preference. -/
def all : List Lexeme :=
  [blank, comment] ++ Keyword.all.map (fun k => token (.keyword k)) ++
    [token .identifier, token .realNumber, token .integerNumber] ++
    Mark.all.map (fun m => token (.mark m))

/-- The length of an identifier at the front of a text. -/
def identifierLength (cs : List Char) : Nat :=
  match cs with
  | c :: rest => if isLetter c then (rest.takeWhile isLetterOrDigit).length + 1 else 0
  | [] => 0

/-- The length of a comment at the front of a text: braces around anything but a closing brace. -/
def commentLength (cs : List Char) : Nat :=
  match cs with
  | '\x7b' :: rest =>
    let inside := rest.takeWhile (· != '\x7d')
    if inside.length < rest.length then inside.length + 2 else 0
  | _ => 0

/-- The length of a real number at the front of a text: digits on both sides of a point. -/
def realLength (cs : List Char) : Nat :=
  let (whole, rest) := spanDigits cs
  match rest with
  | '.' :: rest =>
    let (fraction, _) := spanDigits rest
    if whole.isEmpty ∨ fraction.isEmpty then 0 else whole.length + 1 + fraction.length
  | _ => 0

/-- The length of the longest member of a class at the front of a text, zero if there is none. -/
def longest (l : Lexeme) (cs : List Char) : Nat :=
  match l with
  | blank => (cs.takeWhile isBlank).length
  | comment => commentLength cs
  | token (.keyword k) =>
    if k.spelling.isPrefixOf (canonicalChars (cs.take k.spelling.length)) then k.spelling.length
    else 0
  | token .identifier => identifierLength cs
  | token .realNumber => realLength cs
  | token .integerNumber => (spanDigits cs).1.length
  | token (.mark m) => if m.spelling.isPrefixOf cs then m.spelling.length else 0

/-- The class that takes over where it has a longer member: a word is no keyword if an identifier goes
on after it. -/
def longerAlternative? : Lexeme → Option Lexeme
  | token (.keyword _) => some (token .identifier)
  | _ => none

/-- A class with its longest member at the front of a text, or the class that takes over from it. -/
def orLonger (l : Lexeme) (cs : List Char) : Lexeme × Nat :=
  match l.longerAlternative? with
  | some other =>
    if l.longest cs < other.longest cs then (other, other.longest cs) else (l, l.longest cs)
  | none => (l, l.longest cs)

/-- The class and length of the lexeme at the front of a text, if there is one. -/
def match? (cs : List Char) : Option (Lexeme × Nat) :=
  (all.find? fun l => 0 < l.longest cs).map fun l => l.orLonger cs

theorem longest_le_orLonger (l : Lexeme) (cs : List Char) : l.longest cs ≤ (l.orLonger cs).2 := by
  unfold orLonger
  split
  · split
    · omega
    · exact Nat.le_refl _
  · exact Nat.le_refl _

theorem match?_pos {cs : List Char} {l : Lexeme} {n : Nat} (h : match? cs = some (l, n)) :
    0 < n := by
  obtain ⟨found, hfound, heq⟩ := Option.map_eq_some_iff.mp h
  have hpositive : 0 < found.longest cs := by simpa using List.find?_some hfound
  have hle := longest_le_orLonger found cs
  rw [heq] at hle
  exact Nat.lt_of_lt_of_le hpositive hle

end Lexeme

end NestedPascal
