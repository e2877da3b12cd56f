import NestedPascal.Grammar.Parsed

/-!
# Parsing expressions

A sum is a chain of products joined by + and -, a product a chain of factors joined by *, DIV and /;
both chains lean to the left.  A factor is a signed factor, a number, a name, or a sum in
parentheses.
-/

namespace NestedPascal.Parse

def additive? : TokenKind → Option BinaryOperator
  | .mark .plus => some .add
  | .mark .minus => some .sub
  | _ => none

def multiplicative? : TokenKind → Option BinaryOperator
  | .mark .star => some .mul
  | .mark .slash => some .realDiv
  | .keyword .div => some .intDiv
  | _ => none

def sign? : TokenKind → Option Sign
  | .mark .plus => some .plus
  | .mark .minus => some .minus
  | _ => none

/-- Whether a token of the class can open an expression. -/
def opensExpr : TokenKind → Bool
  | .mark .plus | .mark .minus | .mark .leftParen => true
  | .integerNumber | .realNumber | .identifier => true
  | _ => false

/-- The value of an integer numeral. -/
def integerLiteral (image : String) : Value :=
  .ofInt (decimalValue image.toList)

/-- The value of a real numeral: the nearest binary64 number, which may be infinite. -/
def realLiteral (image : String) : Value :=
  let (whole, rest) := spanDigits image.toList
  ⟨.real, (Decimal.ofParts false whole (rest.drop 1) 0).toBinary64⟩

/-- Joins two operands into one tree that spans both. -/
def joined (op : BinaryOperator) (left right : Expr) : Expr :=
  .binary (left.span.to right.span) op left right

mutual

def factor (ts : List Token) : Parse Expr ts :=
  match ts with
  | [] => fail .factor []
  | t :: rest =>
    match sign? t.kind with
    | some sign => do
      let operand ← factor rest
      .ok ⟨.unary (t.span.to operand.last) sign operand.tree, operand.last, operand.rest, by
        have := operand.shorter
        simp only [List.length_cons]
        omega⟩
    | none =>
      match t.kind with
      | .integerNumber => .ok ⟨.literal t.span (integerLiteral t.image), t.span, rest, rest_shorter t rest⟩
      | .realNumber => .ok ⟨.literal t.span (realLiteral t.image), t.span, rest, rest_shorter t rest⟩
      | .identifier => .ok ⟨.variable ⟨t.span, t.image, none⟩, t.span, rest, rest_shorter t rest⟩
      | .mark .leftParen => do
        let inner ← sum rest
        let close ← token (.mark .rightParen) inner.rest
        .ok ⟨inner.tree, close.last, close.rest, by
          have := inner.shorter
          have := close.shorter
          simp only [List.length_cons]
          omega⟩
      | _ => fail .factor (t :: rest)
termination_by 3 * ts.length
decreasing_by all_goals simp only [List.length_cons]; omega

def product (ts : List Token) : Parse Expr ts := do
  let first ← factor ts
  let chain ← productTail first.tree first.last first.rest
  .ok ⟨chain.tree, chain.last, chain.rest, by
    have := first.shorter
    have := chain.shorter
    omega⟩
termination_by 3 * ts.length + 1
decreasing_by
  · omega
  · have := first.shorter
    omega

/-- The rest of a chain of factors whose beginning is already a tree. -/
def productTail (left : Expr) (last : Span) (ts : List Token) :
    Except ParseError (Parsed Expr (ts.length + 1)) :=
  match ts with
  | [] => .ok ⟨left, last, [], nil_shorter⟩
  | t :: rest =>
    match multiplicative? t.kind with
    | some op => do
      let right ← factor rest
      let chain ← productTail (joined op left right.tree) right.last right.rest
      .ok ⟨chain.tree, chain.last, chain.rest, by
        have := right.shorter
        have := chain.shorter
        simp only [List.length_cons]
        omega⟩
    | none => .ok ⟨left, last, t :: rest, all_shorter t rest⟩
termination_by 3 * ts.length
decreasing_by
  · simp only [List.length_cons]
    omega
  · have := right.shorter
    simp only [List.length_cons]
    omega

def sum (ts : List Token) : Parse Expr ts := do
  let first ← product ts
  let chain ← sumTail first.tree first.last first.rest
  .ok ⟨chain.tree, chain.last, chain.rest, by
    have := first.shorter
    have := chain.shorter
    omega⟩
termination_by 3 * ts.length + 2
decreasing_by
  · omega
  · have := first.shorter
    omega

/-- The rest of a chain of products whose beginning is already a tree. -/
def sumTail (left : Expr) (last : Span) (ts : List Token) :
    Except ParseError (Parsed Expr (ts.length + 1)) :=
  match ts with
  | [] => .ok ⟨left, last, [], nil_shorter⟩
  | t :: rest =>
    match additive? t.kind with
    | some op => do
      let right ← product rest
      let chain ← sumTail (joined op left right.tree) right.last right.rest
      .ok ⟨chain.tree, chain.last, chain.rest, by
        have := right.shorter
        have := chain.shorter
        simp only [List.length_cons]
        omega⟩
    | none => .ok ⟨left, last, t :: rest, all_shorter t rest⟩
termination_by 3 * ts.length
decreasing_by
  · simp only [List.length_cons]
    omega
  · have := right.shorter
    simp only [List.length_cons]
    omega

end

end NestedPascal.Parse
