import NestedPascal.Proofs.Text.Spans
import NestedPascal.Tree.Basic

/-!
# Nested trees

A tree is nested if no node of it is empty and each node holds its children in the order of the
source.  An operation begins and ends with its operands, and the type of a declared name stands
after it, within the block or the procedure that declares it.
-/

namespace NestedPascal

inductive Expr.Nested : Expr → Prop where
  | literal {span : Span} {value : Value} : span.Nonempty → Nested (.literal span value)
  | variable {ref : VariableRef} : ref.span.Nonempty → Nested (.variable ref)
  | unary {span : Span} {sign : Sign} {operand : Expr} :
    span.Nonempty → span.Holds [operand.span] → operand.Nested → Nested (.unary span sign operand)
  | binary {span : Span} {op : BinaryOperator} {left right : Expr} :
    span.Nonempty → span.first = left.span.first → span.stop = right.span.stop →
    span.Holds [left.span, right.span] → left.Nested → right.Nested →
    Nested (.binary span op left right)

def Statement.span : Statement → Span
  | .compound span _ => span
  | .assignment span _ _ => span
  | .call c => c.span

inductive Statement.Nested : Statement → Prop where
  | compound {span : Span} {children : List Statement} :
    span.Nonempty → span.Holds (children.map Statement.span) → (∀ s ∈ children, s.Nested) →
    Nested (.compound span children)
  | assignment {span : Span} {target : VariableRef} {value : Expr} :
    span.Nonempty → span.Holds [target.span, value.span] → value.Nested →
    Nested (.assignment span target value)
  | call {c : Call} :
    c.span.Nonempty → c.span.Holds (c.args.map Expr.span) → (∀ arg ∈ c.args, arg.Nested) →
    Nested (.call c)

/-- A declared name and its type, in what declares it. -/
structure TypedName.NestedIn (outer : Span) (v : TypedName) : Prop where
  nonempty : v.span.Nonempty
  type_nonempty : v.type.span.Nonempty
  type_after : v.span.Before v.type.span
  type_within : v.type.span.Within outer

def Declaration.span : Declaration → Span
  | .variable v => v.span
  | .procedure span _ _ _ => span

mutual

inductive Block.Nested : Block → Prop where
  | mk {span : Span} {declarations : List Declaration} {bodySpan : Span} {body : List Statement} :
    span.Nonempty → span.Holds (declarations.map Declaration.span ++ [bodySpan]) →
    (∀ d ∈ declarations, d.NestedIn span) → bodySpan.Holds (body.map Statement.span) →
    (∀ s ∈ body, s.Nested) → Block.Nested (.mk span declarations bodySpan body)

/-- A declaration of a block with the span. -/
inductive Declaration.NestedIn : Span → Declaration → Prop where
  | variable {outer : Span} {v : TypedName} :
    v.NestedIn outer → Declaration.NestedIn outer (.variable v)
  | procedure {outer span : Span} {name : String} {params : List TypedName} {block : Block} :
    span.Nonempty → span.Holds (params.map TypedName.span ++ [block.span]) →
    (∀ param ∈ params, param.NestedIn span) → block.Nested →
    Declaration.NestedIn outer (.procedure span name params block)

end

structure Program.Nested (p : Program) : Prop where
  nonempty : p.span.Nonempty
  holds : p.span.Holds [p.block.span]
  block : p.block.Nested

end NestedPascal
