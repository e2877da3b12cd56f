import NestedPascal.Proofs.Grammar.Language
import NestedPascal.Proofs.Grammar.Prediction

/-!
# The parser goes by the next token

Every function of the parser is predictive.  Where one of several phrases in a row breaks off, the
others can still follow it, for there is a phrase of every kind.
-/

namespace NestedPascal

namespace Grammar

/-! ## A phrase of every kind -/

instance : Inhabited Factor := ⟨.name default⟩

instance : Inhabited Factors := ⟨.none⟩

instance : Inhabited Product := ⟨.mk default .none⟩

instance : Inhabited Products := ⟨.none⟩

instance : Inhabited Sum := ⟨.mk default .none⟩

instance : Inhabited TypeWord := ⟨⟨⟨.keyword .integer, "", 0, default⟩, .inl rfl⟩⟩

instance : Inhabited TypedNames := ⟨⟨default, default, default⟩⟩

instance : Inhabited Groups := ⟨⟨default, []⟩⟩

instance : Inhabited AfterName := ⟨.none⟩

instance : Inhabited MoreStatements := ⟨.none⟩

instance : Inhabited Statements := ⟨.empty .none⟩

instance : Inhabited Compound := ⟨.mk default default default⟩

instance : Inhabited Block := ⟨.mk .none default⟩

end Grammar

namespace Parse

open Grammar

/-! ## Expressions -/

/-- One step through a chain whose beginning is already a tree; the given function goes on after an
operand. -/
def chainTail (meaning? : TokenKind → Option BinaryOperator)
    (operand : (ts : List Token) → Parse Expr ts)
    (more : Expr → Span → (ts : List Token) → Except ParseError (Parsed Expr (ts.length + 1)))
    (left : Expr) (last : Span) (ts : List Token) :
    Except ParseError (Parsed Expr (ts.length + 1)) :=
  match ts with
  | [] => .ok ⟨left, last, [], nil_shorter⟩
  | t :: rest =>
    match meaning? t.kind with
    | some op => do
      let right ← operand rest
      let chain ← more (joined op left right.tree) right.last right.rest
      .ok ⟨chain.tree, chain.last, chain.rest,
        Nat.lt_trans chain.shorter (Nat.lt_succ_of_lt (Nat.succ_lt_succ right.shorter))⟩
    | none => .ok ⟨left, last, t :: rest, all_shorter t rest⟩

section

variable {δ κ : Type} {meaning? : TokenKind → Option BinaryOperator}
  {operand : (ts : List Token) → Parse Expr ts}
  {tail : Expr → Span → (ts : List Token) → Except ParseError (Parsed Expr (ts.length + 1))}

/-- What a chain leaves does not depend on the tree before it. -/
theorem chainTail_remaining
    (htail : ∀ left last ts, tail left last ts = chainTail meaning? operand tail left last ts)
    (left left' : Expr) (last last' : Span) (ts : List Token) :
    remaining (tail left last ts) = remaining (tail left' last' ts) := by
  rw [htail, htail left']
  cases ts with
  | nil => rfl
  | cons t rest =>
      simp only [chainTail]
      split
      next =>
        simp only [remaining_bind, remaining_ok]
        congr 1
        funext right
        have := right.shorter
        exact chainTail_remaining htail _ _ _ _ right.rest
      next => rfl
termination_by ts.length

theorem chainTail_predictive {operandTokens : δ → List Token} {tokens : κ → List Token}
    (htail : ∀ left last ts, tail left last ts = chainTail meaning? operand tail left last ts)
    (none : κ) (hnone : tokens none = []) (next : Meaningful meaning? → δ → κ → κ)
    (hnext : ∀ op d more, tokens (next op d more) = op.token :: (operandTokens d ++ tokens more))
    (left : Expr) (last : Span) (ts : List Token)
    (hoperand : ∀ us, us.length < ts.length →
      PredictiveAt operandTokens (fun us => remaining (operand us)) us) :
    PredictiveAt tokens (fun us => remaining (tail left last us)) ts := by
  cases ts with
  | nil =>
      apply ((PredictiveAt.nothing []).map (fun _ => none) (fun _ => hnone)).congr_nil
      rw [htail]
      rfl
  | cons t rest =>
      cases hop : meaning? t.kind with
      | some op =>
          have : Nonempty κ := ⟨none⟩
          have hmore := (hoperand rest (rest_shorter t rest)).bind fun us hus => by
            have hshorter := remaining_shorter hus
            exact chainTail_predictive htail none hnone next hnext left last us fun vs hvs =>
              hoperand vs (Nat.lt_trans hvs (Nat.lt_trans hshorter (rest_shorter t rest)))
          apply hmore.cons (fun d => next ⟨t, op, hop⟩ d.1 d.2) (fun d => hnext _ _ _)
          intro us
          rw [htail]
          simp only [chainTail, hop, remaining_bind, remaining_then, remaining_ok]
          congr 1
          funext right
          exact chainTail_remaining htail _ _ _ _ _
      | none =>
          apply ((PredictiveAt.nothing (t :: rest)).map (fun _ => none) (fun _ => hnone)).congr_cons
          intro us
          rw [htail]
          simp only [chainTail, hop, remaining_ok]
termination_by ts.length
decreasing_by
  subst ts
  exact Nat.lt_trans hshorter (rest_shorter t rest)

end

theorem productTail_eq (left : Expr) (last : Span) (ts : List Token) :
    productTail left last ts = chainTail multiplicative? factor productTail left last ts := by
  rw [productTail.eq_def]
  cases ts <;> rfl

theorem sumTail_eq (left : Expr) (last : Span) (ts : List Token) :
    sumTail left last ts = chainTail additive? product sumTail left last ts := by
  rw [sumTail.eq_def]
  cases ts <;> rfl

mutual

theorem factor_predictive (ts : List Token) :
    PredictiveAt Factor.tokens (fun us => remaining (factor us)) ts := by
  match ts with
  | [] =>
      apply (PredictiveAt.fail .factor []).congr_nil
      rw [factor.eq_def, remaining_fail]
  | t :: rest =>
      cases hsign : sign? t.kind with
      | some sign =>
          apply (factor_predictive rest).cons (.signed ⟨t, sign, hsign⟩) (fun _ => rfl)
          intro us
          rw [factor.eq_def]
          simp only [hsign, remaining_bind, remaining_ok]
          rfl
      | none =>
          by_cases hinteger : t.kind = .integerNumber
          · apply (PredictiveAt.nothing rest).cons (fun _ => .integer ⟨t, hinteger⟩) (fun _ => rfl)
            intro us
            rw [factor.eq_def]
            simp only [hinteger, sign?, remaining_ok]
          by_cases hreal : t.kind = .realNumber
          · apply (PredictiveAt.nothing rest).cons (fun _ => .real ⟨t, hreal⟩) (fun _ => rfl)
            intro us
            rw [factor.eq_def]
            simp only [hreal, sign?, remaining_ok]
          by_cases hname : t.kind = .identifier
          · apply (PredictiveAt.nothing rest).cons (fun _ => .name ⟨t, hname⟩) (fun _ => rfl)
            intro us
            rw [factor.eq_def]
            simp only [hname, sign?, remaining_ok]
          by_cases hopening : t.kind = .mark .leftParen
          · have hinner := (sum_predictive rest).bind fun left _ =>
              token_predictive (.mark .rightParen) left
            apply hinner.cons (fun d => .parenthesized ⟨t, hopening⟩ d.1 d.2) (fun _ => rfl)
            intro us
            rw [factor.eq_def]
            simp only [hopening, sign?, remaining_bind, remaining_ok, remaining_then]
            rfl
          · apply (PredictiveAt.fail .factor (t :: rest)).congr_cons
            intro us
            rw [factor.eq_def]
            simp only [hsign, remaining_fail]
termination_by 3 * ts.length

theorem product_predictive (ts : List Token) :
    PredictiveAt Product.tokens (fun us => remaining (product us)) ts := by
  have hchain := (factor_predictive ts).bind fun left hleft => by
    have := remaining_shorter hleft
    exact productTail_predictive (.literal default default) default left
  apply (hchain.map (fun d => .mk d.1 d.2) (fun _ => rfl)).congr
  intro us _
  rw [product.eq_def]
  simp only [remaining_bind, remaining_then, remaining_ok]
  congr 1
  funext first
  exact chainTail_remaining productTail_eq _ _ _ _ _
termination_by 3 * ts.length + 1

theorem productTail_predictive (left : Expr) (last : Span) (ts : List Token) :
    PredictiveAt Factors.tokens (fun us => remaining (productTail left last us)) ts :=
  chainTail_predictive productTail_eq .none rfl .next (fun _ _ _ => rfl) left last ts
    fun us _ => factor_predictive us
termination_by 3 * ts.length

theorem sum_predictive (ts : List Token) :
    PredictiveAt Sum.tokens (fun us => remaining (sum us)) ts := by
  have hchain := (product_predictive ts).bind fun left hleft => by
    have := remaining_shorter hleft
    exact sumTail_predictive (.literal default default) default left
  apply (hchain.map (fun d => .mk d.1 d.2) (fun _ => rfl)).congr
  intro us _
  rw [sum.eq_def]
  simp only [remaining_bind, remaining_then, remaining_ok]
  congr 1
  funext first
  exact chainTail_remaining sumTail_eq _ _ _ _ _
termination_by 3 * ts.length + 2

theorem sumTail_predictive (left : Expr) (last : Span) (ts : List Token) :
    PredictiveAt Products.tokens (fun us => remaining (sumTail left last us)) ts :=
  chainTail_predictive sumTail_eq .none rfl .next (fun _ _ _ => rfl) left last ts
    fun us _ => product_predictive us
termination_by 3 * ts.length

end

/-! ## Arguments and statements -/

theorem moreArguments_predictive (ts : List Token) :
    PredictiveAt
      (fun d : Closed (List (Terminal (.mark .comma) × Sum)) (.mark .rightParen) =>
        d.tokens (tokensAfter Sum.tokens))
      (fun us => remaining (moreArguments us)) ts :=
  closedItems_predictive moreArguments_eq sum_predictive ts

theorem arguments_predictive (ts : List Token) :
    PredictiveAt Arguments.tokens (fun us => remaining (arguments us)) ts := by
  cases ts with
  | nil => exact (PredictiveAt.fail (.token (.mark .rightParen)) []).congr_nil rfl
  | cons t rest =>
      by_cases hopens : opensExpr t.kind = true
      · have hargs := (sum_predictive (t :: rest)).bind fun left _ => moreArguments_predictive left
        apply (hargs.map (fun d => ⟨some ⟨d.1, d.2.phrase⟩, d.2.closing⟩) ?_).congr_cons
        · intro us
          rw [arguments, if_pos hopens]
          simp only [remaining_bind, remaining_ok, remaining_then]
          rfl
        · intro d
          simp [Closed.tokens, Separated.tokens]
      · by_cases hclose : t.kind = .mark .rightParen
        · apply (PredictiveAt.nothing rest).cons (fun _ => ⟨none, ⟨t, hclose⟩⟩) (fun _ => rfl)
          intro us
          rw [arguments, if_neg hopens, if_pos hclose, remaining_ok]
        · apply (PredictiveAt.fail (.token (.mark .rightParen)) (t :: rest)).congr_cons
          intro us
          rw [arguments, if_neg hopens, if_neg hclose, remaining_fail]

theorem afterName_predictive (name : Token) (ts : List Token) :
    PredictiveAt AfterName.tokens (fun us => remaining (afterName name us)) ts := by
  cases ts with
  | nil => exact ((PredictiveAt.nothing []).map (fun _ => .none) (fun _ => rfl)).congr_nil rfl
  | cons t rest =>
      by_cases hassign : t.kind = .mark .assign
      · apply (sum_predictive rest).cons (.assigned ⟨t, hassign⟩) (fun _ => rfl)
        intro us
        simp only [afterName, if_pos hassign, remaining_bind, remaining_ok]
        rfl
      · by_cases hopening : t.kind = .mark .leftParen
        · apply (arguments_predictive rest).cons (.applied ⟨t, hopening⟩) (fun _ => rfl)
          intro us
          simp only [afterName, if_neg hassign, if_pos hopening, remaining_bind, remaining_ok]
          rfl
        · apply ((PredictiveAt.nothing (t :: rest)).map (fun _ => .none) (fun _ => rfl)).congr_cons
          intro us
          simp only [afterName, if_neg hassign, if_neg hopening, remaining_ok]

mutual

theorem statements_predictive (ts : List Token) :
    PredictiveAt (fun d : Closed Statements (.keyword .blockEnd) => d.tokens Statements.tokens)
      (fun us => remaining (statements us)) ts := by
  match ts with
  | [] =>
      apply (PredictiveAt.fail (.token (.keyword .blockEnd)) []).congr_nil
      rw [statements.eq_def, remaining_fail]
  | t :: rest =>
      by_cases hname : t.kind = .identifier
      · have hmore := (afterName_predictive t rest).bind fun left hleft => by
          have := remaining_shorter hleft
          exact moreStatements_predictive left
        apply hmore.cons
          (fun d => ⟨.statement (.named ⟨t, hname⟩ d.1) d.2.phrase, d.2.closing⟩)
        · intro d
          simp [Closed.tokens, Statements.tokens, Statement.tokens]
        · intro us
          rw [statements.eq_def]
          simp only [hname, remaining_bind, remaining_ok, remaining_then]
          rfl
      by_cases hopening : t.kind = .keyword .blockBegin
      · have hmore := (statements_predictive rest).bind fun left hleft => by
          have := remaining_shorter hleft
          exact moreStatements_predictive left
        apply hmore.cons (fun d =>
          ⟨.statement (.compound (.mk ⟨t, hopening⟩ d.1.phrase d.1.closing)) d.2.phrase,
            d.2.closing⟩)
        · intro d
          simp [Closed.tokens, Statements.tokens, Statement.tokens, Compound.tokens]
        · intro us
          rw [statements.eq_def]
          simp only [hopening, remaining_bind, remaining_ok, remaining_then]
          rfl
      · have hmore := moreStatements_predictive (t :: rest)
        apply (hmore.map (fun d => ⟨.empty d.phrase, d.closing⟩) (fun _ => rfl)).congr_cons
        intro us
        rw [statements.eq_def]
        simp only
termination_by 2 * ts.length + 1

theorem moreStatements_predictive (ts : List Token) :
    PredictiveAt
      (fun d : Closed MoreStatements (.keyword .blockEnd) => d.tokens MoreStatements.tokens)
      (fun us => remaining (moreStatements us)) ts := by
  match ts with
  | [] =>
      apply (PredictiveAt.fail (.token (.keyword .blockEnd)) []).congr_nil
      rw [moreStatements.eq_def, remaining_fail]
  | t :: rest =>
      by_cases hsemicolon : t.kind = .mark .semicolon
      · apply (statements_predictive rest).cons
          (fun d => ⟨.next ⟨t, hsemicolon⟩ d.phrase, d.closing⟩) (fun _ => rfl)
        intro us
        rw [moreStatements.eq_def]
        simp only [hsemicolon, remaining_bind, remaining_ok]
        rfl
      by_cases hclosing : t.kind = .keyword .blockEnd
      · apply (PredictiveAt.nothing rest).cons (fun _ => ⟨.none, ⟨t, hclosing⟩⟩) (fun _ => rfl)
        intro us
        rw [moreStatements.eq_def]
        simp only [hclosing, remaining_ok]
      · apply (PredictiveAt.fail (.token (.keyword .blockEnd)) (t :: rest)).congr_cons
        intro us
        rw [moreStatements.eq_def]
        simp only [remaining_fail]
termination_by 2 * ts.length

end

theorem compound_predictive (ts : List Token) :
    PredictiveAt Compound.tokens (fun us => remaining (compound us)) ts := by
  have hphrase := (token_predictive (.keyword .blockBegin) ts).bind fun left _ =>
    statements_predictive left
  apply (hphrase.map (fun d => .mk d.1 d.2.phrase d.2.closing) (fun _ => rfl)).congr
  intro us _
  simp only [compound, remaining_bind, remaining_ok, remaining_then]
  rfl

/-! ## Declared names -/

theorem typeName_predictive (ts : List Token) :
    PredictiveAt (fun d : TypeWord => [d.token]) (fun us => remaining (typeName us)) ts := by
  cases ts with
  | nil => exact (PredictiveAt.fail .typeName []).congr_nil rfl
  | cons t rest =>
      by_cases hnames : t.kind = .keyword .integer ∨ t.kind = .keyword .real
      · apply (PredictiveAt.nothing rest).cons (fun _ => ⟨t, hnames⟩) (fun _ => rfl)
        intro us
        rw [typeName, if_pos hnames, remaining_ok]
      · apply (PredictiveAt.fail .typeName (t :: rest)).congr_cons
        intro us
        rw [typeName, if_neg hnames, remaining_fail]

theorem moreNames_predictive (ts : List Token) :
    PredictiveAt
      (fun d : Closed (List (Terminal (.mark .comma) × Terminal .identifier)) (.mark .colon) =>
        d.tokens (tokensAfter fun name => [name.token]))
      (fun us => remaining (moreNames us)) ts :=
  closedItems_predictive moreNames_eq (token_predictive .identifier) ts

theorem typedNames_predictive (ts : List Token) :
    PredictiveAt TypedNames.tokens (fun us => remaining (typedNames us)) ts := by
  have hphrase := (token_predictive .identifier ts).bind fun left _ =>
    (moreNames_predictive left).bind fun left' _ => typeName_predictive left'
  apply (hphrase.map (fun d => ⟨⟨d.1, d.2.1.phrase⟩, d.2.1.closing, d.2.2⟩) ?_).congr
  · intro us _
    simp only [typedNames, remaining_bind, remaining_ok, remaining_then]
    rfl
  · intro d
    simp [TypedNames.tokens, Separated.tokens, Closed.tokens]

theorem moreGroups_remaining (last last' : Span) (ts : List Token) :
    remaining (moreGroups ts last) = remaining (moreGroups ts last') := by
  rw [moreGroups.eq_def, moreGroups.eq_def]
  cases ts with
  | nil => rfl
  | cons t rest =>
      simp only
      split
      next => simp only [remaining_bind, remaining_ok]
      next => rfl

/-- A group of names, the semicolon after it and the groups that follow. -/
theorem groups_predictive (last : Span) (ts : List Token)
    (hmore : ∀ rest, rest.length < ts.length →
      PredictiveAt (fun groups : List Group => groups.flatMap Group.tokens)
        (fun us => remaining (moreGroups us last)) rest) :
    PredictiveAt Groups.tokens
      (fun us => remaining (typedNames us) >>= fun left =>
        remaining (token (.mark .semicolon) left) >>= fun left' =>
          remaining (moreGroups left' last)) ts := by
  have hphrase := (typedNames_predictive ts).bind fun left hleft =>
    (token_predictive (.mark .semicolon) left).bind fun left' hleft' =>
      hmore left' (Nat.lt_trans (remaining_shorter hleft') (remaining_shorter hleft))
  apply hphrase.map fun d => ⟨⟨d.1, d.2.1⟩, d.2.2⟩
  intro d
  simp [Groups.tokens, Group.tokens, Closed.tokens]

theorem moreGroups_predictive (last : Span) (ts : List Token) :
    PredictiveAt (fun groups : List Group => groups.flatMap Group.tokens)
      (fun us => remaining (moreGroups us last)) ts := by
  cases ts with
  | nil =>
      apply ((PredictiveAt.nothing []).map (fun _ => []) (fun _ => rfl)).congr_nil
      rw [moreGroups.eq_def, remaining_ok]
  | cons t rest =>
      by_cases hname : t.kind = .identifier
      · have hgroups := groups_predictive last (t :: rest) fun left hleft =>
          moreGroups_predictive last left
        apply (hgroups.map (fun d => d.first :: d.more) (fun _ => rfl)).congr_cons
        intro us
        rw [moreGroups.eq_def]
        simp only [if_pos hname, remaining_bind, remaining_ok, remaining_then]
        congr 1
        funext group
        congr 1
        funext close
        exact moreGroups_remaining _ _ _
      · apply ((PredictiveAt.nothing (t :: rest)).map (fun _ => []) (fun _ => rfl)).congr_cons
        intro us
        rw [moreGroups.eq_def]
        simp only [if_neg hname, remaining_ok]
termination_by ts.length
decreasing_by exact hleft

theorem variableSection_predictive (ts : List Token) :
    PredictiveAt Groups.tokens (fun us => remaining (variableSection us)) ts := by
  cases ts with
  | nil => exact (PredictiveAt.fail .declaration []).congr_nil rfl
  | cons t rest =>
      by_cases hname : t.kind = .identifier
      · have hgroups := groups_predictive default (t :: rest) fun left _ =>
          moreGroups_predictive default left
        apply hgroups.congr_cons
        intro us
        rw [variableSection, if_pos hname]
        simp only [remaining_bind, remaining_ok, remaining_then]
        congr 1
        funext group
        congr 1
        funext close
        exact moreGroups_remaining _ _ _
      · apply (PredictiveAt.fail .declaration (t :: rest)).congr_cons
        intro us
        rw [variableSection, if_neg hname, remaining_fail]

theorem moreParams_predictive (ts : List Token) :
    PredictiveAt
      (fun d : Closed (List (Terminal (.mark .semicolon) × TypedNames)) (.mark .rightParen) =>
        d.tokens (tokensAfter TypedNames.tokens))
      (fun us => remaining (moreParams us)) ts :=
  closedItems_predictive moreParams_eq typedNames_predictive ts

theorem header_predictive (ts : List Token) :
    PredictiveAt Header.tokens (fun us => remaining (header us)) ts := by
  cases ts with
  | nil => exact (PredictiveAt.fail (.token (.mark .semicolon)) []).congr_nil rfl
  | cons t rest =>
      by_cases hopening : t.kind = .mark .leftParen
      · have hparams := (typedNames_predictive rest).bind fun left _ =>
          (moreParams_predictive left).bind fun left' _ =>
            token_predictive (.mark .semicolon) left'
        apply hparams.cons (fun d =>
          ⟨some ⟨⟨t, hopening⟩, ⟨d.1, d.2.1.phrase⟩, d.2.1.closing⟩, d.2.2⟩)
        · intro d
          simp [Closed.tokens, Params.tokens, Separated.tokens]
        · intro us
          rw [header, if_pos hopening]
          simp only [remaining_bind, remaining_ok, remaining_then]
          rfl
      · by_cases hclose : t.kind = .mark .semicolon
        · apply (PredictiveAt.nothing rest).cons (fun _ => ⟨none, ⟨t, hclose⟩⟩) (fun _ => rfl)
          intro us
          rw [header, if_neg hopening, if_pos hclose, remaining_ok]
        · apply (PredictiveAt.fail (.token (.mark .semicolon)) (t :: rest)).congr_cons
          intro us
          rw [header, if_neg hopening, if_neg hclose, remaining_fail]

/-! ## Blocks and programs -/

/-- What follows the word that opens a procedure. -/
abbrev AfterWord :=
  Terminal .identifier × Header × Grammar.Block × Terminal (.mark .semicolon)

mutual

theorem blockParts_predictive (ts : List Token) :
    PredictiveAt Block.tokens (fun us => remaining (blockParts us)) ts := by
  match ts with
  | [] =>
      apply (PredictiveAt.fail (.token (.keyword .blockBegin)) []).congr_nil
      rw [blockParts.eq_def, remaining_fail]
  | t :: rest =>
      by_cases hvar : t.kind = .keyword .var
      · have hmore := (variableSection_predictive rest).bind fun left hleft => by
          have := remaining_shorter hleft
          exact blockParts_predictive left
        apply hmore.cons fun ⟨groups, .mk more body⟩ =>
          .mk (.variables ⟨t, hvar⟩ groups more) body
        · rintro ⟨groups, more, body⟩
          exact Block.tokens_variables
        · intro us
          rw [blockParts.eq_def]
          simp only [hvar, remaining_bind, remaining_ok, remaining_then]
          rfl
      by_cases hprocedure : t.kind = .keyword .procedure
      · have hmore := (procedure_predictive t.span rest).bind fun left hleft => by
          have := remaining_shorter hleft
          exact blockParts_predictive left
        apply hmore.cons fun ⟨⟨name, header, block, closing⟩, .mk more body⟩ =>
          .mk (.procedure (.mk ⟨t, hprocedure⟩ name header block closing) more) body
        · rintro ⟨⟨name, header, block, closing⟩, more, body⟩
          simp [Procedure.tokens]
        · intro us
          rw [blockParts.eq_def]
          simp only [hprocedure, remaining_bind, remaining_ok, remaining_then]
          rfl
      · apply ((compound_predictive (t :: rest)).map (.mk .none) (fun _ => rfl)).congr_cons
        intro us
        rw [blockParts.eq_def]
        simp only [remaining_bind, remaining_ok]
        rfl
termination_by 2 * ts.length

theorem procedure_predictive (opening : Span) (ts : List Token) :
    PredictiveAt
      (fun d : AfterWord =>
        [d.1.token] ++ (d.2.1.tokens ++ (d.2.2.1.tokens ++ [d.2.2.2.token])))
      (fun us => remaining (procedure opening us)) ts := by
  have hphrase := (token_predictive .identifier ts).bind fun left hleft =>
    (header_predictive left).bind fun left' hleft' => by
      have := remaining_shorter hleft
      have := remaining_shorter hleft'
      exact (blockParts_predictive left').bind fun left'' _ =>
        token_predictive (.mark .semicolon) left''
  apply hphrase.congr
  intro us _
  rw [procedure.eq_def]
  simp only [remaining_bind, remaining_ok, remaining_then]
  rfl
termination_by 2 * ts.length + 1

end

theorem block_predictive (ts : List Token) :
    PredictiveAt Block.tokens (fun us => remaining (block us)) ts := by
  apply (blockParts_predictive ts).congr
  intro us _
  simp only [block, remaining_bind, remaining_ok]
  rfl

theorem program_predictive (file : String) (ts : List Token) :
    PredictiveAt Grammar.Program.tokens (fun us => remaining (program file us)) ts := by
  have hphrase := (token_predictive (.keyword .program) ts).bind fun left _ =>
    (token_predictive .identifier left).bind fun left _ =>
      (token_predictive (.mark .semicolon) left).bind fun left _ =>
        (block_predictive left).bind fun left _ => token_predictive (.mark .dot) left
  apply (hphrase.map (fun d => ⟨d.1, d.2.1, d.2.2.1, d.2.2.2.1, d.2.2.2.2⟩) (fun _ => rfl)).congr
  intro us _
  simp only [program, remaining_bind, remaining_ok, remaining_then]
  rfl

end Parse

end NestedPascal
