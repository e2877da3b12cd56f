import NestedPascal.Grammar.Expression
import NestedPascal.Proofs.Grammar.Phrase

/-!
# The grammar of expressions

Each rule of the grammar is a type whose members are the derivations by that rule.  An expression is
a sum of products of factors, each chain as long as operators of its own level follow.
-/

namespace NestedPascal

namespace Grammar

open Parse

mutual

/-- A signed factor, a number, a name or a sum in parentheses. -/
inductive Factor where
  | signed (sign : Meaningful sign?) (operand : Factor)
  | integer (numeral : Terminal .integerNumber)
  | real (numeral : Terminal .realNumber)
  | name (name : Terminal .identifier)
  | parenthesized (opening : Terminal (.mark .leftParen)) (inner : Sum)
      (closing : Terminal (.mark .rightParen))

/-- One factor and the operators and factors after it. -/
inductive Product where
  | mk (first : Factor) (more : Factors)

inductive Factors where
  | none
  | next (op : Meaningful multiplicative?) (factor : Factor) (more : Factors)

/-- One product and the operators and products after it. -/
inductive Sum where
  | mk (first : Product) (more : Products)

inductive Products where
  | none
  | next (op : Meaningful additive?) (product : Product) (more : Products)

end

mutual

@[grind =]
def Factor.tokens : Factor → List Token
  | .signed sign operand => sign.token :: operand.tokens
  | .integer numeral => [numeral.token]
  | .real numeral => [numeral.token]
  | .name name => [name.token]
  | .parenthesized opening inner closing => opening.token :: (inner.tokens ++ [closing.token])

def Product.tokens : Product → List Token
  | .mk first more => first.tokens ++ more.tokens

@[grind =]
def Factors.tokens : Factors → List Token
  | .none => []
  | .next op factor more => op.token :: (factor.tokens ++ more.tokens)

def Sum.tokens : Sum → List Token
  | .mk first more => first.tokens ++ more.tokens

@[grind =]
def Products.tokens : Products → List Token
  | .none => []
  | .next op product more => op.token :: (product.tokens ++ more.tokens)

end

mutual

def Factor.tree : Factor → Expr
  | .signed sign operand =>
    .unary (spanOver (sign.token :: operand.tokens)) sign.meaning operand.tree
  | .integer numeral => .literal numeral.token.span (integerLiteral numeral.token.image)
  | .real numeral => .literal numeral.token.span (realLiteral numeral.token.image)
  | .name name => .variable ⟨name.token.span, name.token.image, none⟩
  | .parenthesized _ inner _ => inner.tree

def Product.tree : Product → Expr
  | .mk first more => more.treeFrom first.tree

/-- The tree of a chain whose beginning is already a tree: each operator takes all before it as its
left operand. -/
def Factors.treeFrom (left : Expr) : Factors → Expr
  | .none => left
  | .next op factor more => more.treeFrom (joined op.meaning left factor.tree)

def Sum.tree : Sum → Expr
  | .mk first more => more.treeFrom first.tree

def Products.treeFrom (left : Expr) : Products → Expr
  | .none => left
  | .next op product more => more.treeFrom (joined op.meaning left product.tree)

end

theorem Factor.opening (d : Factor) : ∃ t ts, d.tokens = t :: ts ∧ opensExpr t.kind = true := by
  cases d with
  | signed sign operand =>
      refine ⟨_, _, rfl, ?_⟩
      have hmeans := sign.means
      unfold sign? at hmeans
      split at hmeans <;> simp_all [opensExpr]
  | integer numeral => exact ⟨_, _, rfl, by rw [numeral.kind_eq, opensExpr]⟩
  | real numeral => exact ⟨_, _, rfl, by rw [numeral.kind_eq, opensExpr]⟩
  | name name => exact ⟨_, _, rfl, by rw [name.kind_eq, opensExpr]⟩
  | parenthesized opening inner closing =>
      exact ⟨_, _, rfl, by rw [opening.kind_eq, opensExpr]⟩

theorem Sum.opening (d : Sum) : ∃ t ts, d.tokens = t :: ts ∧ opensExpr t.kind = true := by
  obtain ⟨⟨first, factors⟩, products⟩ := d
  obtain ⟨t, ts, htokens, hopens⟩ := first.opening
  exact ⟨t, _, by rw [tokens, Product.tokens, htokens]; rfl, hopens⟩

/-- Whether a product can be complete before a token of the class. -/
def EndsProduct (kind : TokenKind) : Prop :=
  multiplicative? kind = none

/-- Whether a sum can be complete before a token of the class. -/
def EndsSum (kind : TokenKind) : Prop :=
  multiplicative? kind = none ∧ additive? kind = none

theorem multiplicative?_of_additive? {kind : TokenKind} {op : BinaryOperator}
    (h : additive? kind = some op) : multiplicative? kind = none := by
  unfold additive? at h
  split at h <;> simp_all [multiplicative?]

/-- A product is complete before what can follow it in a sum. -/
theorem Products.endsProduct (d : Products) {rest : List Token} (hrest : HeadIs EndsSum rest) :
    HeadIs EndsProduct (d.tokens ++ rest) := by
  cases d with
  | none => exact hrest.mono fun _ h => h.1
  | next op product more =>
      rw [tokens, List.cons_append, headIs_cons]
      exact multiplicative?_of_additive? op.means

/-- A closing parenthesis completes the sum before it. -/
theorem endsSum_rightParen : EndsSum (.mark .rightParen) := ⟨rfl, rfl⟩

mutual

theorem Factor.unambiguous (d d' : Factor) {rest rest' : List Token}
    (h : d.tokens ++ rest = d'.tokens ++ rest') : d = d' ∧ rest = rest' := by
  -- The first token tells how the factor is made.
  cases d with
  | signed sign operand =>
      cases d' with
      | signed sign' operand' =>
          obtain ⟨rfl, hoperand⟩ := sign.unambiguous sign' h
          obtain ⟨rfl, hrest⟩ := operand.unambiguous operand' hoperand
          exact ⟨rfl, hrest⟩
      | _ => grind [sign?]
  | integer numeral =>
      cases d' with
      | integer numeral' =>
          obtain ⟨rfl, hrest⟩ := numeral.unambiguous numeral' h
          exact ⟨rfl, hrest⟩
      | _ => grind [sign?]
  | real numeral =>
      cases d' with
      | real numeral' =>
          obtain ⟨rfl, hrest⟩ := numeral.unambiguous numeral' h
          exact ⟨rfl, hrest⟩
      | _ => grind [sign?]
  | name name =>
      cases d' with
      | name name' =>
          obtain ⟨rfl, hrest⟩ := name.unambiguous name' h
          exact ⟨rfl, hrest⟩
      | _ => grind [sign?]
  | parenthesized opening inner closing =>
      cases d' with
      | parenthesized opening' inner' closing' =>
          simp only [Factor.tokens, List.cons_append, List.append_assoc, List.nil_append] at h
          obtain ⟨rfl, hinner⟩ := opening.unambiguous opening' h
          obtain ⟨rfl, hclosing⟩ := inner.unambiguous inner' hinner
            (closing.headIs endsSum_rightParen) (closing'.headIs endsSum_rightParen)
          obtain ⟨rfl, hrest⟩ := closing.unambiguous closing' hclosing
          exact ⟨rfl, hrest⟩
      | _ => grind [sign?]

theorem Product.unambiguous (d d' : Product) {rest rest' : List Token}
    (h : d.tokens ++ rest = d'.tokens ++ rest') (hrest : HeadIs EndsProduct rest)
    (hrest' : HeadIs EndsProduct rest') : d = d' ∧ rest = rest' := by
  cases d with
  | mk first more =>
      cases d' with
      | mk first' more' =>
          simp only [Product.tokens, List.append_assoc] at h
          obtain ⟨rfl, hmore⟩ := first.unambiguous first' h
          obtain ⟨rfl, hafter⟩ := more.unambiguous more' hmore hrest hrest'
          exact ⟨rfl, hafter⟩

theorem Factors.unambiguous (d d' : Factors) {rest rest' : List Token}
    (h : d.tokens ++ rest = d'.tokens ++ rest') (hrest : HeadIs EndsProduct rest)
    (hrest' : HeadIs EndsProduct rest') : d = d' ∧ rest = rest' := by
  cases d with
  | none =>
      cases d' with
      | none => exact ⟨rfl, h⟩
      | next op' factor' more' => grind [EndsProduct]
  | next op factor more =>
      cases d' with
      | none => grind [EndsProduct]
      | next op' factor' more' =>
          simp only [Factors.tokens, List.cons_append, List.append_assoc] at h
          obtain ⟨rfl, hfactor⟩ := op.unambiguous op' h
          obtain ⟨rfl, hmore⟩ := factor.unambiguous factor' hfactor
          obtain ⟨rfl, hafter⟩ := more.unambiguous more' hmore hrest hrest'
          exact ⟨rfl, hafter⟩

theorem Sum.unambiguous (d d' : Sum) {rest rest' : List Token}
    (h : d.tokens ++ rest = d'.tokens ++ rest') (hrest : HeadIs EndsSum rest)
    (hrest' : HeadIs EndsSum rest') : d = d' ∧ rest = rest' := by
  cases d with
  | mk first more =>
      cases d' with
      | mk first' more' =>
          simp only [Sum.tokens, List.append_assoc] at h
          obtain ⟨rfl, hmore⟩ := first.unambiguous first' h (more.endsProduct hrest)
            (more'.endsProduct hrest')
          obtain ⟨rfl, hafter⟩ := more.unambiguous more' hmore hrest hrest'
          exact ⟨rfl, hafter⟩

theorem Products.unambiguous (d d' : Products) {rest rest' : List Token}
    (h : d.tokens ++ rest = d'.tokens ++ rest') (hrest : HeadIs EndsSum rest)
    (hrest' : HeadIs EndsSum rest') : d = d' ∧ rest = rest' := by
  cases d with
  | none =>
      cases d' with
      | none => exact ⟨rfl, h⟩
      | next op' product' more' => grind [EndsSum]
  | next op product more =>
      cases d' with
      | none => grind [EndsSum]
      | next op' product' more' =>
          simp only [Products.tokens, List.cons_append, List.append_assoc] at h
          obtain ⟨rfl, hproduct⟩ := op.unambiguous op' h
          obtain ⟨rfl, hmore⟩ := product.unambiguous product' hproduct (more.endsProduct hrest)
            (more'.endsProduct hrest')
          obtain ⟨rfl, hafter⟩ := more.unambiguous more' hmore hrest hrest'
          exact ⟨rfl, hafter⟩

end

theorem sum_unambiguous : Unambiguous Sum.tokens EndsSum :=
  fun d d' _ _ => d.unambiguous d'

end Grammar

namespace Parse

open Grammar

mutual

theorem factor_reads (before : Span) (ts : List Token) :
    Reads Factor.tokens Factor.tree before ts (factor ts) := by
  rw [factor.eq_def]
  match ts with
  | [] => exact .fail
  | t :: rest =>
      simp only
      split
      next sign hsign =>
        apply (factor_reads t.span rest).bind
        intro operand left _ hrest
        exact .ok (.signed ⟨t, sign, hsign⟩ operand) (by simp [Factor.tokens, hrest]) rfl rfl
      next =>
        split
        next hkind => exact .ok (.integer ⟨t, hkind⟩) rfl rfl rfl
        next hkind => exact .ok (.real ⟨t, hkind⟩) rfl rfl rfl
        next hkind => exact .ok (.name ⟨t, hkind⟩) rfl rfl rfl
        next hkind =>
          apply (sum_reads t.span rest).bind
          intro inner left _ hrest
          apply (token_reads _ t.span left).bind
          intro closing left' _ hleft
          exact .ok (.parenthesized ⟨t, hkind⟩ inner closing)
            (by simp [Factor.tokens, hrest, hleft]) rfl (by simp [Factor.tokens])
        next => exact .fail
termination_by 3 * ts.length

theorem product_reads (before : Span) (ts : List Token) :
    Reads Product.tokens Product.tree before ts (product ts) := by
  rw [product.eq_def]
  apply (factor_reads before ts).bind
  intro first left _ hts
  apply (productTail_reads first.tree (endOf before first.tokens) left).bind
  intro more left' _ hleft
  exact .ok (.mk first more) (by simp [Product.tokens, hts, hleft]) rfl (by simp [Product.tokens])
termination_by 3 * ts.length + 1

theorem productTail_reads (tree : Expr) (last : Span) (ts : List Token) :
    Reads Factors.tokens (Factors.treeFrom tree) last ts (productTail tree last ts) := by
  rw [productTail.eq_def]
  match ts with
  | [] => exact .ok .none rfl rfl rfl
  | t :: rest =>
      simp only
      split
      next op hop =>
        apply (factor_reads t.span rest).bind
        intro right left _ hrest
        apply (productTail_reads (joined op tree right.tree) (endOf t.span right.tokens) left).bind
        intro more left' _ hleft
        exact .ok (.next ⟨t, op, hop⟩ right more) (by simp [Factors.tokens, hrest, hleft]) rfl
          (by simp [Factors.tokens])
      next => exact .ok .none rfl rfl rfl
termination_by 3 * ts.length

theorem sum_reads (before : Span) (ts : List Token) :
    Reads Sum.tokens Sum.tree before ts (sum ts) := by
  rw [sum.eq_def]
  apply (product_reads before ts).bind
  intro first left _ hts
  apply (sumTail_reads first.tree (endOf before first.tokens) left).bind
  intro more left' _ hleft
  exact .ok (.mk first more) (by simp [Sum.tokens, hts, hleft]) rfl (by simp [Sum.tokens])
termination_by 3 * ts.length + 2

theorem sumTail_reads (tree : Expr) (last : Span) (ts : List Token) :
    Reads Products.tokens (Products.treeFrom tree) last ts (sumTail tree last ts) := by
  rw [sumTail.eq_def]
  match ts with
  | [] => exact .ok .none rfl rfl rfl
  | t :: rest =>
      simp only
      split
      next op hop =>
        apply (product_reads t.span rest).bind
        intro right left _ hrest
        apply (sumTail_reads (joined op tree right.tree) (endOf t.span right.tokens) left).bind
        intro more left' _ hleft
        exact .ok (.next ⟨t, op, hop⟩ right more) (by simp [Products.tokens, hrest, hleft]) rfl
          (by simp [Products.tokens])
      next => exact .ok .none rfl rfl rfl
termination_by 3 * ts.length

end

mutual

theorem factor_gives (d : Factor) (before : Span) (rest : List Token) :
    Gives (factor (d.tokens ++ rest)) d.tree (endOf before d.tokens) rest := by
  match d with
  | .signed sign operand =>
      rw [Factor.tokens, List.cons_append, factor.eq_def]
      simp only [sign.means]
      exact (factor_gives operand sign.token.span rest).bind fun _ => .ok
  | .integer numeral =>
      rw [Factor.tokens, List.singleton_append, factor.eq_def]
      simp only [numeral.kind_eq, sign?]
      exact .ok
  | .real numeral =>
      rw [Factor.tokens, List.singleton_append, factor.eq_def]
      simp only [numeral.kind_eq, sign?]
      exact .ok
  | .name name =>
      rw [Factor.tokens, List.singleton_append, factor.eq_def]
      simp only [name.kind_eq, sign?]
      exact .ok
  | .parenthesized opening inner closing =>
      have hclosing : HeadIs EndsSum (closing.token :: rest) := by
        simp [closing.kind_eq, EndsSum, multiplicative?, additive?]
      rw [Factor.tokens, List.cons_append, List.append_assoc, List.singleton_append, factor.eq_def,
        endOf_cons, endOf_append]
      simp only [opening.kind_eq, sign?]
      apply (sum_gives inner opening.token.span _ hclosing).bind
      intro _
      exact (token_gives closing rest).bind fun _ => .ok

theorem product_gives (d : Product) (before : Span) (rest : List Token)
    (hrest : HeadIs EndsProduct rest) :
    Gives (product (d.tokens ++ rest)) d.tree (endOf before d.tokens) rest := by
  match d with
  | .mk first more =>
      rw [Product.tokens, List.append_assoc, product.eq_def, endOf_append]
      apply (factor_gives first before _).bind
      intro _
      exact (productTail_gives more first.tree _ rest hrest).bind fun _ => .ok

theorem productTail_gives (d : Factors) (tree : Expr) (last : Span) (rest : List Token)
    (hrest : HeadIs EndsProduct rest) :
    Gives (productTail tree last (d.tokens ++ rest)) (d.treeFrom tree) (endOf last d.tokens)
      rest := by
  match d, rest, hrest with
  | .none, [], _ =>
      rw [Factors.tokens, List.nil_append, productTail.eq_def]
      exact .ok
  | .none, t :: rest, hrest =>
      have hnone : multiplicative? t.kind = none := headIs_cons.mp hrest
      rw [Factors.tokens, List.nil_append, productTail.eq_def]
      simp only [hnone]
      exact .ok
  | .next op factor more, rest, hrest =>
      rw [Factors.tokens, List.cons_append, List.append_assoc, productTail.eq_def, endOf_cons,
        endOf_append]
      simp only [op.means]
      apply (factor_gives factor op.token.span _).bind
      intro _
      exact (productTail_gives more _ _ rest hrest).bind fun _ => .ok

theorem sum_gives (d : Sum) (before : Span) (rest : List Token) (hrest : HeadIs EndsSum rest) :
    Gives (sum (d.tokens ++ rest)) d.tree (endOf before d.tokens) rest := by
  match d with
  | .mk first more =>
      rw [Sum.tokens, List.append_assoc, sum.eq_def, endOf_append]
      apply (product_gives first before _ (more.endsProduct hrest)).bind
      intro _
      exact (sumTail_gives more first.tree _ rest hrest).bind fun _ => .ok

theorem sumTail_gives (d : Products) (tree : Expr) (last : Span) (rest : List Token)
    (hrest : HeadIs EndsSum rest) :
    Gives (sumTail tree last (d.tokens ++ rest)) (d.treeFrom tree) (endOf last d.tokens) rest := by
  match d, rest, hrest with
  | .none, [], _ =>
      rw [Products.tokens, List.nil_append, sumTail.eq_def]
      exact .ok
  | .none, t :: rest, hrest =>
      have hnone : additive? t.kind = none := (headIs_cons.mp hrest).2
      rw [Products.tokens, List.nil_append, sumTail.eq_def]
      simp only [hnone]
      exact .ok
  | .next op product more, rest, hrest =>
      rw [Products.tokens, List.cons_append, List.append_assoc, sumTail.eq_def, endOf_cons,
        endOf_append]
      simp only [op.means]
      apply (product_gives product op.token.span _ (more.endsProduct hrest)).bind
      intro _
      exact (sumTail_gives more _ _ rest hrest).bind fun _ => .ok

end

theorem sum_parses : Parses sum Sum.tokens Sum.tree EndsSum where
  reads := sum_reads
  gives := sum_gives

end Parse

end NestedPascal
