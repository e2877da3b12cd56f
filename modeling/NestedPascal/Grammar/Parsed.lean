import NestedPascal.Tree.Basic
import NestedPascal.Tree.ParseError

/-!
# What a parse yields

A phrase is parsed off the front of a list of tokens.  Parsing it takes at least one token, so less
is left than there was; the span of the last token taken tells where the phrase ends, which need not
be where its tree ends, for a tree does not cover the parentheses around it.
-/

namespace NestedPascal

structure Parsed (α : Type) (bound : Nat) where
  tree : α
  last : Span
  rest : List Token
  shorter : rest.length < bound

abbrev Parse (α : Type) (ts : List Token) :=
  Except ParseError (Parsed α ts.length)

namespace Parse

/-- The error at the first of the given tokens. -/
def fail {α : Type} (expected : Expected) (ts : List Token) : Except ParseError α :=
  .error ⟨expected, ts.head?⟩

theorem rest_shorter (t : Token) (rest : List Token) : rest.length < (t :: rest).length :=
  Nat.lt_succ_self _

theorem all_shorter (t : Token) (rest : List Token) : (t :: rest).length < (t :: rest).length + 1 :=
  Nat.lt_succ_self _

theorem nil_shorter : ([] : List Token).length < ([] : List Token).length + 1 :=
  Nat.lt_succ_self _

/-- A token of a fixed class. -/
def token (kind : TokenKind) (ts : List Token) : Parse Token ts :=
  match ts with
  | t :: rest =>
    if t.kind = kind then .ok ⟨t, t.span, rest, rest_shorter t rest⟩
    else fail (.token kind) (t :: rest)
  | [] => fail (.token kind) []

end Parse

end NestedPascal
