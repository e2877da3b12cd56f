import NestedPascal.Grammar.Declaration
import NestedPascal.Grammar.Statement

/-!
# Parsing blocks

A block is a run of variable sections and procedures followed by a compound statement.
-/

namespace NestedPascal.Parse

/-- The declarations of a block and its compound statement. -/
structure BlockParts where
  declarations : List Declaration
  bodySpan : Span
  body : List Statement

/-- The block that starts at the first of the given tokens. -/
def BlockParts.block (parts : BlockParts) (ts : List Token) (last : Span) : Block :=
  let first := match ts with
    | t :: _ => t.span
    | [] => last
  .mk (first.to last) parts.declarations parts.bodySpan parts.body

mutual

/-- The declarations and the body of a block. -/
def blockParts (ts : List Token) : Parse BlockParts ts :=
  match ts with
  | [] => fail (.token (.keyword .blockBegin)) []
  | t :: rest =>
    match t.kind with
    | .keyword .var => do
      let names ← variableSection rest
      let more ← blockParts names.rest
      .ok ⟨⟨names.tree.map .variable ++ more.tree.declarations, more.tree.bodySpan, more.tree.body⟩,
        more.last, more.rest, by
          have := names.shorter
          have := more.shorter
          simp only [List.length_cons]
          omega⟩
    | .keyword .procedure => do
      let declaration ← procedure t.span rest
      let more ← blockParts declaration.rest
      .ok ⟨⟨declaration.tree :: more.tree.declarations, more.tree.bodySpan, more.tree.body⟩,
        more.last, more.rest, by
          have := declaration.shorter
          have := more.shorter
          simp only [List.length_cons]
          omega⟩
    | _ => do
      let body ← compound (t :: rest)
      .ok ⟨⟨[], body.tree.1, body.tree.2⟩, body.last, body.rest, body.shorter⟩
termination_by 2 * ts.length
decreasing_by
  · have := names.shorter
    simp only [List.length_cons]
    omega
  · simp only [List.length_cons]
    omega
  · have := declaration.shorter
    simp only [List.length_cons]
    omega

/-- A procedure after the word that opens it. -/
def procedure (opening : Span) (ts : List Token) : Parse Declaration ts := do
  let name ← token .identifier ts
  let params ← header name.rest
  let parts ← blockParts params.rest
  let close ← token (.mark .semicolon) parts.rest
  .ok ⟨.procedure (opening.to close.last) name.tree.image params.tree
      (parts.tree.block params.rest parts.last),
    close.last, close.rest, by
      have := name.shorter
      have := params.shorter
      have := parts.shorter
      have := close.shorter
      omega⟩
termination_by 2 * ts.length + 1
decreasing_by
  have := name.shorter
  have := params.shorter
  omega

end

def block (ts : List Token) : Parse Block ts := do
  let parts ← blockParts ts
  .ok ⟨parts.tree.block ts parts.last, parts.last, parts.rest, parts.shorter⟩

end NestedPascal.Parse
