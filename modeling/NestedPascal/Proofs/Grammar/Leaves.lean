import NestedPascal.Proofs.Grammar.Language

/-!
# Leaves of parsed trees

Literals, references, declared names and their types are written as one token each, and the tree of
a source that parses gives them the spans of these tokens.
-/

namespace NestedPascal

/-! ## Leaves -/

/-- The spans of the literals and references in an expression. -/
def Expr.leaves : Expr → List Span
  | .literal span _ => [span]
  | .variable ref => [ref.span]
  | .unary _ _ operand => operand.leaves
  | .binary _ _ left right => left.leaves ++ right.leaves

mutual

def Statement.leaves : Statement → List Span
  | .compound _ children => statementLeaves children
  | .assignment _ target value => target.span :: value.leaves
  | .call c => c.args.flatMap Expr.leaves

def statementLeaves : List Statement → List Span
  | [] => []
  | s :: rest => s.leaves ++ statementLeaves rest

end

/-- The spans of a declared name and of its type. -/
def TypedName.leaves (v : TypedName) : List Span :=
  [v.span, v.type.span]

mutual

def Block.leaves : Block → List Span
  | .mk _ declarations _ body => declarationLeaves declarations ++ statementLeaves body

def declarationLeaves : List Declaration → List Span
  | [] => []
  | .variable v :: rest => v.leaves ++ declarationLeaves rest
  | .procedure _ _ params block :: rest =>
    params.flatMap TypedName.leaves ++ block.leaves ++ declarationLeaves rest

end

theorem declarationLeaves_variables (names : List TypedName) (more : List Declaration) :
    declarationLeaves (names.map .variable ++ more) =
      names.flatMap TypedName.leaves ++ declarationLeaves more := by
  induction names with
  | nil => rfl
  | cons v names ih =>
      rw [List.map_cons, List.cons_append, declarationLeaves, ih, List.flatMap_cons,
        List.append_assoc]

/-! ## Spans of tokens -/

/-- Each of the spans is that of one of the tokens. -/
def SpansOf (ts : List Token) (spans : List Span) : Prop :=
  ∀ s ∈ spans, ∃ t ∈ ts, s = t.span

namespace SpansOf

variable {ts us : List Token} {spans more : List Span} {t : Token}

theorem nil : SpansOf ts [] :=
  fun _ hs => absurd hs List.not_mem_nil

theorem token : SpansOf [t] [t.span] :=
  List.forall_mem_singleton.mpr ⟨t, List.mem_singleton_self t, rfl⟩

theorem mono (h : SpansOf ts spans) (hsub : ts ⊆ us) : SpansOf us spans := by
  intro s hs
  obtain ⟨t, ht, heq⟩ := h s hs
  exact ⟨t, hsub ht, heq⟩

theorem after (h : SpansOf ts spans) : SpansOf (t :: ts) spans :=
  h.mono (List.subset_cons_self t ts)

theorem before (h : SpansOf ts spans) : SpansOf (ts ++ us) spans :=
  h.mono (List.subset_append_left ts us)

theorem both (h : SpansOf ts spans) (hmore : SpansOf ts more) : SpansOf ts (spans ++ more) := by
  intro s hs
  rcases List.mem_append.mp hs with hs | hs
  · exact h s hs
  · exact hmore s hs

theorem append (h : SpansOf ts spans) (hmore : SpansOf us more) :
    SpansOf (ts ++ us) (spans ++ more) :=
  h.before.both (hmore.mono (List.subset_append_right ts us))

theorem flatMap {δ : Type} {tokens : δ → List Token} {leaves : δ → List Span}
    (h : ∀ d, SpansOf (tokens d) (leaves d)) (items : List δ) :
    SpansOf (items.flatMap tokens) (items.flatMap leaves) := by
  intro s hs
  obtain ⟨d, hd, hs⟩ := List.mem_flatMap.mp hs
  obtain ⟨t, ht, heq⟩ := h d s hs
  exact ⟨t, List.mem_flatMap.mpr ⟨d, hd, ht⟩, heq⟩

theorem separated {δ : Type} {separator : TokenKind} {tokens : δ → List Token}
    {leaves : δ → List Span} (h : ∀ d, SpansOf (tokens d) (leaves d))
    (d : Grammar.Separated δ separator) :
    SpansOf (d.tokens tokens) (d.items.flatMap leaves) := by
  have hafter (item : Terminal separator × δ) :
      SpansOf (item.1.token :: tokens item.2) (leaves item.2) := (h item.2).after
  rw [Grammar.Separated.items, List.flatMap_cons, List.flatMap_map]
  exact (h d.first).append (flatMap hafter d.more)

end SpansOf

namespace Grammar

/-! ## Expressions -/

mutual

theorem Factor.tree_leaves : (d : Factor) → SpansOf d.tokens d.tree.leaves
  | .signed _ operand => operand.tree_leaves.after
  | .integer _ => .token
  | .real _ => .token
  | .name _ => .token
  | .parenthesized _ inner _ => inner.tree_leaves.before.after

theorem Product.tree_leaves : (d : Product) → SpansOf d.tokens d.tree.leaves
  | .mk first more => more.treeFrom_leaves first.tree_leaves

theorem Factors.treeFrom_leaves {left : Expr} {ts : List Token} (h : SpansOf ts left.leaves) :
    (d : Factors) → SpansOf (ts ++ d.tokens) (d.treeFrom left).leaves
  | .none => h.before
  | .next op factor more => by
    have hjoined : SpansOf (ts ++ op.token :: factor.tokens)
        (Parse.joined op.meaning left factor.tree).leaves := h.append factor.tree_leaves.after
    have hall := more.treeFrom_leaves hjoined
    rwa [List.append_assoc] at hall

theorem Sum.tree_leaves : (d : Sum) → SpansOf d.tokens d.tree.leaves
  | .mk first more => more.treeFrom_leaves first.tree_leaves

theorem Products.treeFrom_leaves {left : Expr} {ts : List Token} (h : SpansOf ts left.leaves) :
    (d : Products) → SpansOf (ts ++ d.tokens) (d.treeFrom left).leaves
  | .none => h.before
  | .next op product more => by
    have hjoined : SpansOf (ts ++ op.token :: product.tokens)
        (Parse.joined op.meaning left product.tree).leaves := h.append product.tree_leaves.after
    have hall := more.treeFrom_leaves hjoined
    rwa [List.append_assoc] at hall

end

/-! ## Statements -/

theorem Arguments.trees_leaves (d : Arguments) :
    SpansOf d.tokens (d.trees.flatMap Expr.leaves) := by
  obtain ⟨phrase, closing⟩ := d
  cases phrase with
  | none => exact .nil
  | some args =>
      have hargs := SpansOf.separated Sum.tree_leaves args
      rw [Arguments.trees, Option.elim_some, List.flatMap_map]
      exact hargs.before

theorem AfterName.tree_leaves (name : Token) (d : AfterName) :
    SpansOf (name :: d.tokens) (d.tree name).leaves := by
  cases d with
  | none => exact .nil
  | assigned assign value =>
      refine List.forall_mem_cons.mpr ⟨⟨name, List.mem_cons_self, rfl⟩, ?_⟩
      exact value.tree_leaves.after.after
  | applied opening args => exact args.trees_leaves.after.after

mutual

theorem Statement.tree_leaves : (d : Statement) → SpansOf d.tokens d.tree.leaves
  | .compound body => body.tree_leaves
  | .named name after => after.tree_leaves name.token

theorem Compound.tree_leaves : (d : Compound) → SpansOf d.tokens (statementLeaves d.tree)
  | .mk _ statements _ => statements.trees_leaves.before.after

theorem Statements.trees_leaves : (d : Statements) → SpansOf d.tokens (statementLeaves d.trees)
  | .empty more => more.trees_leaves
  | .statement first more => first.tree_leaves.append more.trees_leaves

theorem MoreStatements.trees_leaves : (d : MoreStatements) →
    SpansOf d.tokens (statementLeaves d.trees)
  | .none => .nil
  | .next _ statements => statements.trees_leaves.after

end

/-! ## Declared names -/

theorem TypedNames.tree_leaves (d : TypedNames) :
    SpansOf d.tokens (d.tree.flatMap TypedName.leaves) := by
  intro s hs
  obtain ⟨v, hv, hs⟩ := List.mem_flatMap.mp hs
  obtain ⟨name, hname, rfl⟩ := List.mem_map.mp hv
  rcases List.mem_pair.mp hs with rfl | rfl
  · have hone (name : Terminal .identifier) : SpansOf [name.token] [name.token.span] := .token
    have hnames := SpansOf.separated hone d.names
    exact hnames.before _ (List.mem_flatMap.mpr ⟨name, hname, List.mem_singleton_self _⟩)
  · exact ⟨d.type.token, by simp [tokens], rfl⟩

theorem Groups.tree_leaves (d : Groups) : SpansOf d.tokens (d.tree.flatMap TypedName.leaves) := by
  rw [tree, List.flatMap_assoc]
  exact SpansOf.flatMap (fun group => group.phrase.tree_leaves.before) (d.first :: d.more)

theorem Params.tree_leaves (d : Params) : SpansOf d.tokens (d.tree.flatMap TypedName.leaves) := by
  rw [tree, List.flatMap_assoc]
  exact (SpansOf.separated TypedNames.tree_leaves d.groups).before.after

theorem Header.tree_leaves (d : Header) : SpansOf d.tokens (d.tree.flatMap TypedName.leaves) := by
  obtain ⟨phrase, closing⟩ := d
  cases phrase with
  | none => exact .nil
  | some params => exact params.tree_leaves.before

/-! ## Blocks and programs -/

mutual

theorem Block.tree_leaves : (d : Block) → SpansOf d.tokens d.tree.leaves
  | .mk declarations body => declarations.trees_leaves.append body.tree_leaves

theorem Declarations.trees_leaves : (d : Declarations) →
    SpansOf d.tokens (declarationLeaves d.trees)
  | .none => .nil
  | .variables word groups more => by
    rw [Declarations.trees, declarationLeaves_variables]
    exact (groups.tree_leaves.append more.trees_leaves).after
  | .procedure first more => first.tree_leaves more.trees_leaves

/-- The leaves of a procedure and of what is declared after it. -/
theorem Procedure.tree_leaves {ts : List Token} {more : List Declaration} : (d : Procedure) →
    SpansOf ts (declarationLeaves more) →
    SpansOf (d.tokens ++ ts) (declarationLeaves (d.tree :: more))
  | .mk _ _ header block _, h =>
    (header.tree_leaves.append block.tree_leaves.before).after.after.append h

end

end Grammar

namespace Program

/-- The leaves of a program that is parsed are tokens of its source. -/
theorem leaves_of_parse {source : List Char} {file : String} {detailed : Bool} {p : Program}
    (hparse : parse source file detailed = .ok p) :
    SpansOf (tokensOf source) p.block.leaves := by
  obtain ⟨htokens, -⟩ := (parse_eq_ok_iff (lexes_of_parse hparse)).mp hparse
  obtain ⟨d, hd, rfl⟩ := ofTokens_eq_ok_iff.mp htokens
  rw [← hd]
  exact d.block.tree_leaves.before.after.after.after

end Program

end NestedPascal
