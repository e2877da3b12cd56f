import NestedPascal.Grammar.Parsed

/-!
# Parsing declared names

Several names may share one type; each of them becomes a declared name of its own.
-/

namespace NestedPascal.Parse

/-- A type name: one of the two keywords. -/
def typeName (ts : List Token) : Parse TypeName ts :=
  match ts with
  | [] => fail .typeName []
  | t :: rest =>
    if t.kind = .keyword .integer ∨ t.kind = .keyword .real then
      .ok ⟨⟨t.span, t.image⟩, t.span, rest, rest_shorter t rest⟩
    else
      fail .typeName (t :: rest)

/-- The names after the first one, each after a comma, and the colon that ends them. -/
def moreNames (ts : List Token) : Parse (List Token) ts :=
  match ts with
  | [] => fail (.token (.mark .colon)) []
  | t :: rest =>
    if t.kind = .mark .comma then do
      let name ← token .identifier rest
      let more ← moreNames name.rest
      .ok ⟨name.tree :: more.tree, more.last, more.rest, by
        have := name.shorter
        have := more.shorter
        simp only [List.length_cons]
        omega⟩
    else if t.kind = .mark .colon then .ok ⟨[], t.span, rest, rest_shorter t rest⟩
    else fail (.token (.mark .colon)) (t :: rest)
termination_by ts.length
decreasing_by
  have := name.shorter
  simp only [List.length_cons]
  omega

/-- Names, a colon and a type. -/
def typedNames (ts : List Token) : Parse (List TypedName) ts := do
  let first ← token .identifier ts
  let more ← moreNames first.rest
  let type ← typeName more.rest
  .ok ⟨(first.tree :: more.tree).map fun t => ⟨t.span, t.image, type.tree⟩, type.last, type.rest, by
    have := first.shorter
    have := more.shorter
    have := type.shorter
    omega⟩

/-- Groups of typed names with a semicolon after each, as long as names follow. -/
def moreGroups (ts : List Token) (last : Span) :
    Except ParseError (Parsed (List TypedName) (ts.length + 1)) :=
  match ts with
  | [] => .ok ⟨[], last, [], nil_shorter⟩
  | t :: rest =>
    if t.kind = .identifier then do
      let group ← typedNames (t :: rest)
      let close ← token (.mark .semicolon) group.rest
      let more ← moreGroups close.rest close.last
      .ok ⟨group.tree ++ more.tree, more.last, more.rest, by
        have := group.shorter
        have := close.shorter
        have := more.shorter
        omega⟩
    else .ok ⟨[], last, t :: rest, all_shorter t rest⟩
termination_by ts.length
decreasing_by
  have := group.shorter
  have := close.shorter
  omega

/-- The groups after VAR, at least one. -/
def variableSection (ts : List Token) : Parse (List TypedName) ts :=
  match ts with
  | [] => fail .declaration []
  | t :: rest =>
    if t.kind = .identifier then do
      let group ← typedNames (t :: rest)
      let close ← token (.mark .semicolon) group.rest
      let more ← moreGroups close.rest close.last
      .ok ⟨group.tree ++ more.tree, more.last, more.rest, by
        have := group.shorter
        have := close.shorter
        have := more.shorter
        omega⟩
    else
      fail .declaration (t :: rest)

/-- The groups of parameters after a complete one, each after a semicolon, and the closing
parenthesis. -/
def moreParams (ts : List Token) : Parse (List TypedName) ts :=
  match ts with
  | [] => fail (.token (.mark .rightParen)) []
  | t :: rest =>
    if t.kind = .mark .semicolon then do
      let group ← typedNames rest
      let more ← moreParams group.rest
      .ok ⟨group.tree ++ more.tree, more.last, more.rest, by
        have := group.shorter
        have := more.shorter
        simp only [List.length_cons]
        omega⟩
    else if t.kind = .mark .rightParen then .ok ⟨[], t.span, rest, rest_shorter t rest⟩
    else fail (.token (.mark .rightParen)) (t :: rest)
termination_by ts.length
decreasing_by
  have := group.shorter
  simp only [List.length_cons]
  omega

/-- The parameters of a procedure, if a parenthesis opens them, and the semicolon after the header. -/
def header (ts : List Token) : Parse (List TypedName) ts :=
  match ts with
  | [] => fail (.token (.mark .semicolon)) []
  | t :: rest =>
    if t.kind = .mark .leftParen then do
      let group ← typedNames rest
      let more ← moreParams group.rest
      let close ← token (.mark .semicolon) more.rest
      .ok ⟨group.tree ++ more.tree, close.last, close.rest, by
        have := group.shorter
        have := more.shorter
        have := close.shorter
        simp only [List.length_cons]
        omega⟩
    else if t.kind = .mark .semicolon then .ok ⟨[], t.span, rest, rest_shorter t rest⟩
    else fail (.token (.mark .semicolon)) (t :: rest)

end NestedPascal.Parse
