import NestedPascal.Proofs.Grammar.Language
import NestedPascal.Proofs.Scope.Literals

/-!
# Numerals and literals

The literals of a program are the numerals among the tokens of its source, each with the value of its
image.
-/

namespace NestedPascal

/-- The value of a literal that is written as the token. -/
def Token.literal? (t : Token) : Option Value :=
  match t.kind with
  | .integerNumber => some (Parse.integerLiteral t.image)
  | .realNumber => some (Parse.realLiteral t.image)
  | _ => none

theorem Token.literal?_eq_none {t : Token} (hinteger : t.kind ≠ .integerNumber)
    (hreal : t.kind ≠ .realNumber) : t.literal? = none := by
  unfold literal?
  split
  next h => exact absurd h hinteger
  next h => exact absurd h hreal
  next => rfl

/-- The values of the numerals among tokens. -/
def literalsOf (ts : List Token) : List Value :=
  ts.filterMap Token.literal?

@[simp] theorem literalsOf_nil : literalsOf [] = [] := rfl

@[simp] theorem literalsOf_append (ts us : List Token) :
    literalsOf (ts ++ us) = literalsOf ts ++ literalsOf us :=
  List.filterMap_append

namespace Grammar

open Parse

theorem literalsOf_terminal {kind : TokenKind} (t : Terminal kind) (ts : List Token)
    (hinteger : kind ≠ .integerNumber) (hreal : kind ≠ .realNumber) :
    literalsOf (t.token :: ts) = literalsOf ts := by
  have hnone : t.token.literal? = none := by
    apply Token.literal?_eq_none <;> rwa [t.kind_eq]
  rw [literalsOf, List.filterMap_cons_none hnone, literalsOf]

theorem literalsOf_meaningful {α : Type} {meaning? : TokenKind → Option α} (t : Meaningful meaning?)
    (ts : List Token) (hinteger : meaning? .integerNumber = none)
    (hreal : meaning? .realNumber = none) : literalsOf (t.token :: ts) = literalsOf ts := by
  have hne {kind : TokenKind} (h : meaning? kind = none) : t.token.kind ≠ kind := by
    intro hkind
    have hmeans := t.means
    rw [hkind, h] at hmeans
    contradiction
  have hnone := Token.literal?_eq_none (hne hinteger) (hne hreal)
  rw [literalsOf, List.filterMap_cons_none hnone, literalsOf]

theorem literalsOf_flatMap {δ : Type} (itemTokens : δ → List Token) (items : List δ) :
    literalsOf (items.flatMap itemTokens) = items.flatMap fun d => literalsOf (itemTokens d) := by
  induction items with
  | nil => rfl
  | cons d items ih => rw [List.flatMap_cons, List.flatMap_cons, literalsOf_append, ih]

theorem literalsOf_closed {δ : Type} {close : TokenKind} (itemTokens : δ → List Token)
    (d : Closed δ close) (hinteger : close ≠ .integerNumber) (hreal : close ≠ .realNumber) :
    literalsOf (d.tokens itemTokens) = literalsOf (itemTokens d.phrase) := by
  rw [Closed.tokens, literalsOf_append, literalsOf_terminal d.closing _ hinteger hreal,
    literalsOf_nil, List.append_nil]

theorem literalsOf_separated {δ : Type} {separator : TokenKind} (itemTokens : δ → List Token)
    (d : Separated δ separator) (hinteger : separator ≠ .integerNumber)
    (hreal : separator ≠ .realNumber) :
    literalsOf (d.tokens itemTokens) = d.items.flatMap fun item => literalsOf (itemTokens item) := by
  rw [Separated.tokens, tokensAfter, literalsOf_append, literalsOf_flatMap, Separated.items,
    List.flatMap_cons, List.flatMap_map]
  simp only [literalsOf_terminal _ _ hinteger hreal]

/-! ## Expressions -/

mutual

theorem Factor.tree_literals : (d : Factor) → d.tree.literals = literalsOf d.tokens
  | .signed sign operand => by
    rw [Factor.tokens, literalsOf_meaningful sign _ rfl rfl]
    exact operand.tree_literals
  | .integer numeral => by
    simp [Factor.tree, Expr.literals, Factor.tokens, literalsOf, Token.literal?, numeral.kind_eq]
  | .real numeral => by
    simp [Factor.tree, Expr.literals, Factor.tokens, literalsOf, Token.literal?, numeral.kind_eq]
  | .name name => by
    rw [Factor.tokens, literalsOf_terminal name _ (by simp) (by simp)]
    rfl
  | .parenthesized opening inner closing => by
    rw [Factor.tokens, literalsOf_terminal opening _ (by simp) (by simp), literalsOf_append,
      literalsOf_terminal closing _ (by simp) (by simp), literalsOf_nil, List.append_nil]
    exact inner.tree_literals

theorem Product.tree_literals : (d : Product) → d.tree.literals = literalsOf d.tokens
  | .mk first more => by
    rw [Product.tree, Product.tokens, more.treeFrom_literals, first.tree_literals, literalsOf_append]

theorem Factors.treeFrom_literals (left : Expr) :
    (d : Factors) → (d.treeFrom left).literals = left.literals ++ literalsOf d.tokens
  | .none => by simp [Factors.treeFrom, Factors.tokens]
  | .next op factor more => by
    rw [Factors.treeFrom, Factors.tokens, more.treeFrom_literals,
      literalsOf_meaningful op _ rfl rfl, literalsOf_append, ← List.append_assoc,
      ← factor.tree_literals]
    rfl

theorem Sum.tree_literals : (d : Sum) → d.tree.literals = literalsOf d.tokens
  | .mk first more => by
    rw [Sum.tree, Sum.tokens, more.treeFrom_literals, first.tree_literals, literalsOf_append]

theorem Products.treeFrom_literals (left : Expr) :
    (d : Products) → (d.treeFrom left).literals = left.literals ++ literalsOf d.tokens
  | .none => by simp [Products.treeFrom, Products.tokens]
  | .next op product more => by
    rw [Products.treeFrom, Products.tokens, more.treeFrom_literals,
      literalsOf_meaningful op _ rfl rfl, literalsOf_append, ← List.append_assoc,
      ← product.tree_literals]
    rfl

end

/-! ## Statements -/

theorem Arguments.trees_literals (d : Arguments) :
    d.trees.flatMap Expr.literals = literalsOf d.tokens := by
  rw [Arguments.tokens, literalsOf_closed _ _ (by simp) (by simp), Arguments.trees]
  cases d.phrase with
  | none => rfl
  | some args =>
      rw [Option.elim_some, Option.elim_some, literalsOf_separated _ _ (by simp) (by simp),
        List.flatMap_map]
      simp only [Sum.tree_literals]

theorem AfterName.tree_literals (name : Token) (d : AfterName) :
    (d.tree name).literals = literalsOf d.tokens := by
  cases d with
  | none => rfl
  | assigned assign value =>
      rw [AfterName.tokens, literalsOf_terminal assign _ (by simp) (by simp)]
      exact value.tree_literals
  | applied opening args =>
      rw [AfterName.tokens, literalsOf_terminal opening _ (by simp) (by simp)]
      exact args.trees_literals

mutual

theorem Statement.tree_literals : (d : Statement) → d.tree.literals = literalsOf d.tokens
  | .compound body => by
    rw [Statement.tree, Statement.tokens, Statement.literals]
    exact body.tree_literals
  | .named name after => by
    rw [Statement.tree, Statement.tokens, literalsOf_terminal name _ (by simp) (by simp)]
    exact after.tree_literals name.token

theorem Compound.tree_literals : (d : Compound) → statementLiterals d.tree = literalsOf d.tokens
  | .mk opening statements closing => by
    rw [Compound.tree, Compound.tokens, literalsOf_terminal opening _ (by simp) (by simp),
      literalsOf_append, literalsOf_terminal closing _ (by simp) (by simp), literalsOf_nil,
      List.append_nil]
    exact statements.trees_literals

theorem Statements.trees_literals : (d : Statements) →
    statementLiterals d.trees = literalsOf d.tokens
  | .empty more => by
    rw [Statements.trees, Statements.tokens]
    exact more.trees_literals
  | .statement first more => by
    rw [Statements.trees, Statements.tokens, statementLiterals, literalsOf_append,
      first.tree_literals, more.trees_literals]

theorem MoreStatements.trees_literals : (d : MoreStatements) →
    statementLiterals d.trees = literalsOf d.tokens
  | .none => rfl
  | .next semicolon statements => by
    rw [MoreStatements.trees, MoreStatements.tokens,
      literalsOf_terminal semicolon _ (by simp) (by simp)]
    exact statements.trees_literals

end

/-! ## Declarations -/

theorem TypedNames.literalsOf_tokens (d : TypedNames) : literalsOf d.tokens = [] := by
  have htype : d.type.token.literal? = none := by
    apply Token.literal?_eq_none <;> (rcases d.type.names with h | h <;> rw [h] <;> simp)
  have hname (name : Terminal .identifier) : literalsOf [name.token] = [] :=
    literalsOf_terminal name [] (by simp) (by simp)
  rw [TypedNames.tokens, literalsOf_append, literalsOf_separated _ _ (by simp) (by simp),
    literalsOf_terminal d.colon _ (by simp) (by simp)]
  have hwords : literalsOf [d.type.token] = [] := by
    rw [literalsOf, List.filterMap_cons_none htype, List.filterMap_nil]
  simp only [hname, hwords, List.append_nil, List.flatMap_eq_nil_iff, implies_true]

theorem Groups.literalsOf_tokens (d : Groups) : literalsOf d.tokens = [] := by
  have hgroup (group : Group) : literalsOf group.tokens = [] := by
    rw [Group.tokens, literalsOf_closed _ _ (by simp) (by simp)]
    exact group.phrase.literalsOf_tokens
  rw [Groups.tokens, literalsOf_flatMap]
  simp [hgroup]

theorem Header.literalsOf_tokens (d : Header) : literalsOf d.tokens = [] := by
  rw [Header.tokens, literalsOf_closed _ _ (by simp) (by simp)]
  cases d.phrase with
  | none => rfl
  | some params =>
      rw [Option.elim_some, Params.tokens, literalsOf_terminal params.opening _ (by simp) (by simp),
        literalsOf_append, literalsOf_separated _ _ (by simp) (by simp),
        literalsOf_terminal params.closing _ (by simp) (by simp)]
      simp [TypedNames.literalsOf_tokens]

/-! ## Blocks and programs -/

theorem declarationLiterals_variables (names : List TypedName) (more : List Declaration) :
    declarationLiterals (names.map .variable ++ more) = declarationLiterals more := by
  induction names with
  | nil => rfl
  | cons name names ih =>
      rw [List.map_cons, List.cons_append, declarationLiterals, Declaration.literals,
        List.nil_append, ih]

mutual

theorem Block.tree_literals : (d : Block) → d.tree.literals = literalsOf d.tokens
  | .mk declarations body => by
    rw [Block.tree, Block.tokens, Block.literals, literalsOf_append, declarations.trees_literals,
      body.tree_literals]

theorem Declarations.trees_literals : (d : Declarations) →
    declarationLiterals d.trees = literalsOf d.tokens
  | .none => rfl
  | .variables word groups more => by
    rw [Declarations.trees, Declarations.tokens, declarationLiterals_variables,
      literalsOf_terminal word _ (by simp) (by simp), literalsOf_append, groups.literalsOf_tokens,
      List.nil_append]
    exact more.trees_literals
  | .procedure first more => by
    rw [Declarations.trees, Declarations.tokens, declarationLiterals, literalsOf_append,
      first.tree_literals, more.trees_literals]

theorem Procedure.tree_literals : (d : Procedure) → d.tree.literals = literalsOf d.tokens
  | .mk word name header block closing => by
    rw [Procedure.tree, Procedure.tokens, Declaration.literals,
      literalsOf_terminal word _ (by simp) (by simp), literalsOf_terminal name _ (by simp) (by simp),
      literalsOf_append, header.literalsOf_tokens, literalsOf_append,
      literalsOf_terminal closing _ (by simp) (by simp), literalsOf_nil, List.append_nil,
      List.nil_append]
    exact block.tree_literals

end

theorem Program.tree_literals (file : String) (d : Program) :
    (d.tree file).block.literals = literalsOf d.tokens := by
  rw [Program.tree, Program.tokens, literalsOf_terminal d.word _ (by simp) (by simp),
    literalsOf_terminal d.name _ (by simp) (by simp),
    literalsOf_terminal d.semicolon _ (by simp) (by simp), literalsOf_append,
    literalsOf_terminal d.dot _ (by simp) (by simp), literalsOf_nil, List.append_nil]
  exact d.block.tree_literals

end Grammar

/-- The literals of a program are the numerals of its source, in their order. -/
theorem Program.literals_of_parse {source : List Char} {file : String} {detailed : Bool}
    {p : Program} (hparse : parse source file detailed = .ok p) :
    p.block.literals = literalsOf (tokensOf source) := by
  obtain ⟨htokens, -⟩ := (parse_eq_ok_iff (lexes_of_parse hparse)).mp hparse
  obtain ⟨d, hd, rfl⟩ := ofTokens_eq_ok_iff.mp htokens
  rw [d.tree_literals, hd]

end NestedPascal
