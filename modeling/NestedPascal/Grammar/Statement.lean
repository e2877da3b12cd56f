import NestedPascal.Grammar.Expression

/-!
# Parsing statements

Statements between BEGIN and END are separated by semicolons, and any of them may be empty.  A
statement that opens with a name is an assignment, a call with arguments in parentheses, or a bare
call.
-/

namespace NestedPascal.Parse

/-- The arguments of a call after the first, and the parenthesis that closes them. -/
def moreArguments (ts : List Token) : Parse (List Expr) ts :=
  match ts with
  | [] => fail (.token (.mark .rightParen)) []
  | t :: rest =>
    if t.kind = .mark .comma then do
      let arg ← sum rest
      let more ← moreArguments arg.rest
      .ok ⟨arg.tree :: more.tree, more.last, more.rest,
        Nat.lt_trans more.shorter (Nat.lt_trans arg.shorter (rest_shorter t rest))⟩
    else if t.kind = .mark .rightParen then .ok ⟨[], t.span, rest, rest_shorter t rest⟩
    else fail (.token (.mark .rightParen)) (t :: rest)
termination_by ts.length
decreasing_by
  have := arg.shorter
  simp only [List.length_cons]
  omega

/-- The arguments of a call after its opening parenthesis, and the closing one. -/
def arguments (ts : List Token) : Parse (List Expr) ts :=
  match ts with
  | [] => fail (.token (.mark .rightParen)) []
  | t :: rest =>
    if opensExpr t.kind then do
      let arg ← sum (t :: rest)
      let more ← moreArguments arg.rest
      .ok ⟨arg.tree :: more.tree, more.last, more.rest, by
        have := arg.shorter
        have := more.shorter
        omega⟩
    else if t.kind = .mark .rightParen then .ok ⟨[], t.span, rest, rest_shorter t rest⟩
    else fail (.token (.mark .rightParen)) (t :: rest)

/-- The rest of a statement that opens with a name. -/
def afterName (name : Token) (ts : List Token) :
    Except ParseError (Parsed Statement (ts.length + 1)) :=
  let bare := .call ⟨name.span, name.image, [], none⟩
  match ts with
  | [] => .ok ⟨bare, name.span, [], nil_shorter⟩
  | t :: rest =>
    if t.kind = .mark .assign then do
      let value ← sum rest
      .ok ⟨.assignment (name.span.to value.last) ⟨name.span, name.image, none⟩ value.tree,
        value.last, value.rest, by
          have := value.shorter
          simp only [List.length_cons]
          omega⟩
    else if t.kind = .mark .leftParen then do
      let args ← arguments rest
      .ok ⟨.call ⟨name.span.to args.last, name.image, args.tree, none⟩, args.last, args.rest, by
        have := args.shorter
        simp only [List.length_cons]
        omega⟩
    else .ok ⟨bare, name.span, t :: rest, all_shorter t rest⟩

mutual

/-- The statements after BEGIN or a semicolon, and the END after them. -/
def statements (ts : List Token) : Parse (List Statement) ts :=
  match ts with
  | [] => fail (.token (.keyword .blockEnd)) []
  | t :: rest =>
    match t.kind with
    | .identifier => do
      let first ← afterName t rest
      let more ← moreStatements first.rest
      .ok ⟨first.tree :: more.tree, more.last, more.rest, by
        have := first.shorter
        have := more.shorter
        simp only [List.length_cons]
        omega⟩
    | .keyword .blockBegin => do
      let inner ← statements rest
      let more ← moreStatements inner.rest
      .ok ⟨.compound (t.span.to inner.last) inner.tree :: more.tree, more.last, more.rest, by
        have := inner.shorter
        have := more.shorter
        simp only [List.length_cons]
        omega⟩
    | _ => moreStatements (t :: rest)
termination_by 2 * ts.length + 1
decreasing_by
  · have := first.shorter
    simp only [List.length_cons]
    omega
  · simp only [List.length_cons]
    omega
  · have := inner.shorter
    simp only [List.length_cons]
    omega
  · omega

/-- The statements that follow a complete one, each after a semicolon, and the END. -/
def moreStatements (ts : List Token) : Parse (List Statement) ts :=
  match ts with
  | [] => fail (.token (.keyword .blockEnd)) []
  | t :: rest =>
    match t.kind with
    | .mark .semicolon => do
      let more ← statements rest
      .ok ⟨more.tree, more.last, more.rest, by
        have := more.shorter
        simp only [List.length_cons]
        omega⟩
    | .keyword .blockEnd => .ok ⟨[], t.span, rest, rest_shorter t rest⟩
    | _ => fail (.token (.keyword .blockEnd)) (t :: rest)
termination_by 2 * ts.length
decreasing_by
  simp only [List.length_cons]
  omega

end

/-- A compound statement: its span and its statements. -/
def compound (ts : List Token) : Parse (Span × List Statement) ts := do
  let opening ← token (.keyword .blockBegin) ts
  let inner ← statements opening.rest
  .ok ⟨(opening.last.to inner.last, inner.tree), inner.last, inner.rest, by
    have := opening.shorter
    have := inner.shorter
    omega⟩

end NestedPascal.Parse
