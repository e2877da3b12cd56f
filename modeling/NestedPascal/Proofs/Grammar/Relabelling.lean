import NestedPascal.Grammar.Program
import NestedPascal.Proofs.Tree.Relabelling

/-!
# Parsing relabelled tokens

Parsing looks at the classes of tokens and reads numerals.  Labels it only copies, or joins the
first span of a phrase to its last.  So the parse of relabelled tokens takes the same course,
whether it comes to a tree or to an error.
-/

namespace NestedPascal

/-- Tokens that a relabelling has given other labels.  Their offsets, which are no labels of a tree,
can be any. -/
structure Relabelling.OfTokens (R : Relabelling) where
  token : Token → Token
  kind : ∀ t, (token t).kind = t.kind
  image : ∀ t, (token t).image = R.text t.image
  span : ∀ t, (token t).span = R.span t.span

attribute [simp] Relabelling.OfTokens.kind Relabelling.OfTokens.image Relabelling.OfTokens.span

/-- The tokens that keep their offsets. -/
def Relabelling.ofTokens (R : Relabelling) : R.OfTokens where
  token := Token.relabel R
  kind _ := rfl
  image _ := rfl
  span _ := rfl

def ParseError.mapFound (f : Token → Token) (e : ParseError) : ParseError :=
  { e with found := e.found.map f }

namespace Parse

section

variable {R : Relabelling} {τ : R.OfTokens} {α β : Type} {m n m' n' : Nat} {f : α → α} {g : β → β}

/-- What a parse comes to when its tokens are relabelled: the relabelled tree, or the error at the
relabelled token. -/
def Relabels (τ : R.OfTokens) (f : α → α) :
    Except ParseError (Parsed α m) → Except ParseError (Parsed α n) → Prop
  | .ok x, .ok y => R.KeepsNumerals x.rest ∧ y.tree = f x.tree ∧ y.last = R.span x.last ∧
      y.rest = x.rest.map τ.token
  | .error e, .error e' => e' = e.mapFound τ.token
  | _, _ => False

theorem Relabels.ok {tree tree' : α} {last : Span} {rest : List Token} {hm : rest.length < m}
    {hn : (rest.map τ.token).length < n} (hrest : R.KeepsNumerals rest)
    (htree : tree' = f tree) {last' : Span} (hlast : last' = R.span last) :
    Relabels τ f (.ok (⟨tree, last, rest, hm⟩ : Parsed α m))
      (.ok (⟨tree', last', rest.map τ.token, hn⟩ : Parsed α n)) :=
  ⟨hrest, htree, hlast, rfl⟩

theorem Relabels.fail (expected : Expected) (ts : List Token) :
    Relabels τ f (Parse.fail expected ts : Except ParseError (Parsed α m))
      (Parse.fail expected (ts.map τ.token) : Except ParseError (Parsed α n)) := by
  cases ts <;> rfl

theorem Relabels.bind {r : Except ParseError (Parsed α m)} {r' : Except ParseError (Parsed α m')}
    {next : Parsed α m → Except ParseError (Parsed β n)}
    {next' : Parsed α m' → Except ParseError (Parsed β n')} (hr : Relabels τ f r r')
    (hnext : ∀ (x : Parsed α m) (h : (x.rest.map τ.token).length < m'),
      R.KeepsNumerals x.rest → Relabels τ g (next x)
        (next' ⟨f x.tree, R.span x.last, x.rest.map τ.token, h⟩)) :
    Relabels τ g (r >>= next) (r' >>= next') := by
  cases r with
  | error e =>
      cases r' with
      | error e' => exact hr
      | ok y => contradiction
  | ok x =>
      cases r' with
      | error e' => contradiction
      | ok y =>
          obtain ⟨tree, last, rest, h⟩ := y
          obtain ⟨hrest, rfl, rfl, rfl⟩ := hr
          exact hnext x h hrest

end

variable {R : Relabelling} {τ : R.OfTokens}

theorem token_relabels (kind : TokenKind) (ts : List Token) (hts : R.KeepsNumerals ts) :
    Relabels τ τ.token (token kind ts) (token kind (ts.map τ.token)) := by
  cases ts with
  | nil => exact .fail _ []
  | cons t rest =>
      rw [List.map_cons, token, token, τ.kind]
      split
      next => exact .ok hts.tail rfl (τ.span t)
      next => exact .fail _ (t :: rest)

/-! ## Expressions -/

theorem joined_relabel (op : BinaryOperator) (left right : Expr) :
    joined op (left.relabel R) (right.relabel R) = (joined op left right).relabel R := by
  simp [joined, Expr.relabel]

mutual

theorem factor_relabels (ts : List Token) (hts : R.KeepsNumerals ts) :
    Relabels τ (·.relabel R) (factor ts) (factor (ts.map τ.token)) := by
  match ts, hts with
  | [], _ =>
      rw [List.map_nil, factor.eq_def]
      exact .fail _ []
  | t :: rest, hts =>
      rw [List.map_cons, factor.eq_def, factor.eq_def]
      simp only [τ.kind, τ.span, τ.image]
      split
      next sign hsign =>
        refine (factor_relabels rest hts.tail).bind fun operand _ hleft => ?_
        exact .ok hleft (by simp [Expr.relabel]) rfl
      next =>
        split
        next hkind =>
          rw [hts t List.mem_cons_self (.inl hkind)]
          exact .ok hts.tail rfl rfl
        next hkind =>
          rw [hts t List.mem_cons_self (.inr hkind)]
          exact .ok hts.tail rfl rfl
        next => exact .ok hts.tail rfl rfl
        next =>
          refine (sum_relabels rest hts.tail).bind fun inner _ hleft => ?_
          exact (token_relabels _ inner.rest hleft).bind fun close _ hleft => .ok hleft rfl rfl
        next => exact .fail _ (t :: rest)
termination_by 3 * ts.length

theorem product_relabels (ts : List Token) (hts : R.KeepsNumerals ts) :
    Relabels τ (·.relabel R) (product ts) (product (ts.map τ.token)) := by
  rw [product.eq_def, product.eq_def]
  refine (factor_relabels ts hts).bind fun first _ hleft => ?_
  have := first.shorter
  exact (productTail_relabels first.tree first.last first.rest hleft).bind
    fun chain _ hleft => .ok hleft rfl rfl
termination_by 3 * ts.length + 1

theorem productTail_relabels (left : Expr) (last : Span) (ts : List Token)
    (hts : R.KeepsNumerals ts) :
    Relabels τ (·.relabel R) (productTail left last ts)
      (productTail (left.relabel R) (R.span last) (ts.map τ.token)) := by
  match ts, hts with
  | [], hts =>
      rw [List.map_nil, productTail.eq_def, productTail.eq_def]
      exact .ok hts rfl rfl
  | t :: rest, hts =>
      rw [List.map_cons, productTail.eq_def, productTail.eq_def]
      simp only [τ.kind]
      split
      next op hop =>
        refine (factor_relabels rest hts.tail).bind fun right _ hleft => ?_
        have := right.shorter
        rw [joined_relabel]
        exact (productTail_relabels (joined op left right.tree) right.last right.rest hleft).bind
          fun chain _ hleft => .ok hleft rfl rfl
      next => exact .ok hts rfl rfl
termination_by 3 * ts.length

theorem sum_relabels (ts : List Token) (hts : R.KeepsNumerals ts) :
    Relabels τ (·.relabel R) (sum ts) (sum (ts.map τ.token)) := by
  rw [sum.eq_def, sum.eq_def]
  refine (product_relabels ts hts).bind fun first _ hleft => ?_
  have := first.shorter
  exact (sumTail_relabels first.tree first.last first.rest hleft).bind
    fun chain _ hleft => .ok hleft rfl rfl
termination_by 3 * ts.length + 2

theorem sumTail_relabels (left : Expr) (last : Span) (ts : List Token)
    (hts : R.KeepsNumerals ts) :
    Relabels τ (·.relabel R) (sumTail left last ts)
      (sumTail (left.relabel R) (R.span last) (ts.map τ.token)) := by
  match ts, hts with
  | [], hts =>
      rw [List.map_nil, sumTail.eq_def, sumTail.eq_def]
      exact .ok hts rfl rfl
  | t :: rest, hts =>
      rw [List.map_cons, sumTail.eq_def, sumTail.eq_def]
      simp only [τ.kind]
      split
      next op hop =>
        refine (product_relabels rest hts.tail).bind fun right _ hleft => ?_
        have := right.shorter
        rw [joined_relabel]
        exact (sumTail_relabels (joined op left right.tree) right.last right.rest hleft).bind
          fun chain _ hleft => .ok hleft rfl rfl
      next => exact .ok hts rfl rfl
termination_by 3 * ts.length

end

theorem moreArguments_relabels (ts : List Token) (hts : R.KeepsNumerals ts) :
    Relabels τ (List.map (·.relabel R)) (moreArguments ts)
      (moreArguments (ts.map τ.token)) := by
  match ts, hts with
  | [], _ =>
      rw [List.map_nil, moreArguments.eq_def]
      exact .fail _ []
  | t :: rest, hts =>
      rw [List.map_cons, moreArguments.eq_def, moreArguments.eq_def]
      simp only
      rw [τ.kind]
      split
      next =>
        refine (sum_relabels rest hts.tail).bind fun arg _ hleft => ?_
        have := arg.shorter
        exact (moreArguments_relabels arg.rest hleft).bind fun more _ hleft => .ok hleft rfl rfl
      next =>
        split
        next => exact .ok hts.tail rfl (τ.span t)
        next => exact .fail _ (t :: rest)
termination_by ts.length

theorem arguments_relabels (ts : List Token) (hts : R.KeepsNumerals ts) :
    Relabels τ (List.map (·.relabel R)) (arguments ts) (arguments (ts.map τ.token)) := by
  cases ts with
  | nil => exact .fail _ []
  | cons t rest =>
      rw [List.map_cons, arguments, arguments, τ.kind]
      split
      next =>
        refine (sum_relabels (t :: rest) hts).bind fun arg _ hleft => ?_
        exact (moreArguments_relabels arg.rest hleft).bind fun more _ hleft => .ok hleft rfl rfl
      next =>
        split
        next => exact .ok hts.tail rfl (τ.span t)
        next => exact .fail _ (t :: rest)

/-! ## Statements -/

theorem afterName_relabels (name : Token) (ts : List Token) (hts : R.KeepsNumerals ts) :
    Relabels τ (·.relabel R) (afterName name ts)
      (afterName (τ.token name) (ts.map τ.token)) := by
  cases ts with
  | nil => exact .ok hts (by simp [Statement.relabel, Call.relabel]) (τ.span name)
  | cons t rest =>
      rw [List.map_cons, afterName, afterName, τ.kind]
      split
      next =>
        refine (sum_relabels rest hts.tail).bind fun value _ hleft => ?_
        exact .ok hleft (by simp [Statement.relabel, VariableRef.relabel]) rfl
      next =>
        split
        next =>
          refine (arguments_relabels rest hts.tail).bind fun args _ hleft => ?_
          exact .ok hleft (by simp [Statement.relabel, Call.relabel]) rfl
        next => exact .ok hts (by simp [Statement.relabel, Call.relabel]) (τ.span name)

mutual

theorem statements_relabels (ts : List Token) (hts : R.KeepsNumerals ts) :
    Relabels τ (relabelStatements R) (statements ts) (statements (ts.map τ.token)) := by
  match ts, hts with
  | [], _ =>
      rw [List.map_nil, statements.eq_def]
      exact .fail _ []
  | t :: rest, hts =>
      rw [List.map_cons, statements.eq_def, statements.eq_def]
      simp only [τ.kind, τ.span]
      split
      next =>
        refine (afterName_relabels t rest hts.tail).bind fun first _ hleft => ?_
        have := first.shorter
        exact (moreStatements_relabels first.rest hleft).bind fun more _ hleft =>
          .ok hleft rfl rfl
      next =>
        refine (statements_relabels rest hts.tail).bind fun inner _ hleft => ?_
        have := inner.shorter
        refine (moreStatements_relabels inner.rest hleft).bind fun more _ hleft => ?_
        exact .ok hleft (by simp [relabelStatements, Statement.relabel]) rfl
      next => exact moreStatements_relabels (t :: rest) hts
termination_by 2 * ts.length + 1

theorem moreStatements_relabels (ts : List Token) (hts : R.KeepsNumerals ts) :
    Relabels τ (relabelStatements R) (moreStatements ts)
      (moreStatements (ts.map τ.token)) := by
  match ts, hts with
  | [], _ =>
      rw [List.map_nil, moreStatements.eq_def]
      exact .fail _ []
  | t :: rest, hts =>
      rw [List.map_cons, moreStatements.eq_def, moreStatements.eq_def]
      simp only [τ.kind]
      split
      next =>
        exact (statements_relabels rest hts.tail).bind fun more _ hleft => .ok hleft rfl rfl
      next => exact .ok hts.tail rfl (τ.span t)
      next => exact .fail _ (t :: rest)
termination_by 2 * ts.length

end

theorem compound_relabels (ts : List Token) (hts : R.KeepsNumerals ts) :
    Relabels τ (fun body => (R.span body.1, relabelStatements R body.2)) (compound ts)
      (compound (ts.map τ.token)) := by
  refine (token_relabels _ ts hts).bind fun opening _ hleft => ?_
  refine (statements_relabels opening.rest hleft).bind fun inner _ hleft => ?_
  exact .ok hleft (by simp) rfl

/-! ## Declarations -/

theorem typeName_relabels (ts : List Token) (hts : R.KeepsNumerals ts) :
    Relabels τ (·.relabel R) (typeName ts) (typeName (ts.map τ.token)) := by
  cases ts with
  | nil => exact .fail _ []
  | cons t rest =>
      rw [List.map_cons, typeName, typeName, τ.kind]
      split
      next => exact .ok hts.tail (by simp [TypeName.relabel]) (τ.span t)
      next => exact .fail _ (t :: rest)

theorem moreNames_relabels (ts : List Token) (hts : R.KeepsNumerals ts) :
    Relabels τ (List.map τ.token) (moreNames ts) (moreNames (ts.map τ.token)) := by
  match ts, hts with
  | [], _ =>
      rw [List.map_nil, moreNames.eq_def]
      exact .fail _ []
  | t :: rest, hts =>
      rw [List.map_cons, moreNames.eq_def, moreNames.eq_def]
      simp only
      rw [τ.kind]
      split
      next =>
        refine (token_relabels _ rest hts.tail).bind fun name _ hleft => ?_
        have := name.shorter
        exact (moreNames_relabels name.rest hleft).bind fun more _ hleft => .ok hleft rfl rfl
      next =>
        split
        next => exact .ok hts.tail rfl (τ.span t)
        next => exact .fail _ (t :: rest)
termination_by ts.length

theorem typedNames_relabels (ts : List Token) (hts : R.KeepsNumerals ts) :
    Relabels τ (List.map (·.relabel R)) (typedNames ts) (typedNames (ts.map τ.token)) := by
  refine (token_relabels _ ts hts).bind fun first _ hleft => ?_
  refine (moreNames_relabels first.rest hleft).bind fun more _ hleft => ?_
  refine (typeName_relabels more.rest hleft).bind fun type _ hleft => ?_
  exact .ok hleft (by simp [TypedName.relabel]) rfl

theorem moreGroups_relabels (ts : List Token) (last : Span) (hts : R.KeepsNumerals ts) :
    Relabels τ (List.map (·.relabel R)) (moreGroups ts last)
      (moreGroups (ts.map τ.token) (R.span last)) := by
  match ts, hts with
  | [], hts =>
      rw [List.map_nil, moreGroups.eq_def, moreGroups.eq_def]
      exact .ok hts rfl rfl
  | t :: rest, hts =>
      rw [List.map_cons, moreGroups.eq_def, moreGroups.eq_def]
      simp only
      rw [τ.kind]
      split
      next =>
        refine (typedNames_relabels (t :: rest) hts).bind fun group _ hleft => ?_
        refine (token_relabels _ group.rest hleft).bind fun close _ hleft => ?_
        have : close.rest.length < rest.length + 1 := Nat.lt_trans close.shorter group.shorter
        refine (moreGroups_relabels close.rest close.last hleft).bind fun more _ hleft => ?_
        exact .ok hleft (by simp) rfl
      next => exact .ok hts rfl rfl
termination_by ts.length

theorem variableSection_relabels (ts : List Token) (hts : R.KeepsNumerals ts) :
    Relabels τ (List.map (·.relabel R)) (variableSection ts)
      (variableSection (ts.map τ.token)) := by
  cases ts with
  | nil => exact .fail _ []
  | cons t rest =>
      rw [List.map_cons, variableSection, variableSection, τ.kind]
      split
      next =>
        refine (typedNames_relabels (t :: rest) hts).bind fun group _ hleft => ?_
        refine (token_relabels _ group.rest hleft).bind fun close _ hleft => ?_
        refine (moreGroups_relabels close.rest close.last hleft).bind fun more _ hleft => ?_
        exact .ok hleft (by simp) rfl
      next => exact .fail _ (t :: rest)

theorem moreParams_relabels (ts : List Token) (hts : R.KeepsNumerals ts) :
    Relabels τ (List.map (·.relabel R)) (moreParams ts) (moreParams (ts.map τ.token)) := by
  match ts, hts with
  | [], _ =>
      rw [List.map_nil, moreParams.eq_def]
      exact .fail _ []
  | t :: rest, hts =>
      rw [List.map_cons, moreParams.eq_def, moreParams.eq_def]
      simp only
      rw [τ.kind]
      split
      next =>
        refine (typedNames_relabels rest hts.tail).bind fun group _ hleft => ?_
        have := group.shorter
        refine (moreParams_relabels group.rest hleft).bind fun more _ hleft => ?_
        exact .ok hleft (by simp) rfl
      next =>
        split
        next => exact .ok hts.tail rfl (τ.span t)
        next => exact .fail _ (t :: rest)
termination_by ts.length

theorem header_relabels (ts : List Token) (hts : R.KeepsNumerals ts) :
    Relabels τ (List.map (·.relabel R)) (header ts) (header (ts.map τ.token)) := by
  cases ts with
  | nil => exact .fail _ []
  | cons t rest =>
      rw [List.map_cons, header, header, τ.kind]
      split
      next =>
        refine (typedNames_relabels rest hts.tail).bind fun group _ hleft => ?_
        refine (moreParams_relabels group.rest hleft).bind fun more _ hleft => ?_
        refine (token_relabels _ more.rest hleft).bind fun close _ hleft => ?_
        exact .ok hleft (by simp) rfl
      next =>
        split
        next => exact .ok hts.tail rfl (τ.span t)
        next => exact .fail _ (t :: rest)

/-! ## Blocks and programs -/

def BlockParts.relabel (R : Relabelling) (parts : BlockParts) : BlockParts :=
  ⟨relabelDeclarations R parts.declarations, R.span parts.bodySpan, relabelStatements R parts.body⟩

theorem BlockParts.block_relabel (parts : BlockParts) (ts : List Token) (last : Span) :
    (parts.relabel R).block (ts.map τ.token) (R.span last) =
      (parts.block ts last).relabel R := by
  cases ts <;> simp [BlockParts.block, BlockParts.relabel, Block.relabel]

mutual

theorem blockParts_relabels (ts : List Token) (hts : R.KeepsNumerals ts) :
    Relabels τ (·.relabel R) (blockParts ts) (blockParts (ts.map τ.token)) := by
  match ts, hts with
  | [], _ =>
      rw [List.map_nil, blockParts.eq_def]
      exact .fail _ []
  | t :: rest, hts =>
      rw [List.map_cons, blockParts.eq_def, blockParts.eq_def]
      simp only [τ.kind, τ.span]
      split
      next =>
        refine (variableSection_relabels rest hts.tail).bind fun names _ hleft => ?_
        have := names.shorter
        refine (blockParts_relabels names.rest hleft).bind fun more _ hleft => .ok hleft ?_ rfl
        simp [BlockParts.relabel, relabelDeclarations_eq_map, Declaration.relabel]
      next =>
        refine (procedure_relabels t.span rest hts.tail).bind fun declaration _ hleft => ?_
        have := declaration.shorter
        refine (blockParts_relabels declaration.rest hleft).bind
          fun more _ hleft => .ok hleft ?_ rfl
        simp only [BlockParts.relabel, relabelDeclarations]
      next =>
        refine (compound_relabels (t :: rest) hts).bind fun body _ hleft => ?_
        exact .ok hleft rfl rfl
termination_by 2 * ts.length

theorem procedure_relabels (opening : Span) (ts : List Token) (hts : R.KeepsNumerals ts) :
    Relabels τ (·.relabel R) (procedure opening ts)
      (procedure (R.span opening) (ts.map τ.token)) := by
  rw [procedure.eq_def, procedure.eq_def]
  refine (token_relabels _ ts hts).bind fun name _ hleft => ?_
  refine (header_relabels name.rest hleft).bind fun params _ hleft => ?_
  have : params.rest.length < ts.length := Nat.lt_trans params.shorter name.shorter
  refine (blockParts_relabels params.rest hleft).bind fun parts _ hleft => ?_
  refine (token_relabels _ parts.rest hleft).bind fun close _ hleft => .ok hleft ?_ rfl
  simp only [BlockParts.block_relabel, Declaration.relabel, R.span_to, τ.image]
termination_by 2 * ts.length + 1

end

theorem block_relabels (ts : List Token) (hts : R.KeepsNumerals ts) :
    Relabels τ (·.relabel R) (block ts) (block (ts.map τ.token)) := by
  refine (blockParts_relabels ts hts).bind fun parts _ hleft => ?_
  exact .ok hleft (parts.tree.block_relabel ts parts.last) rfl

theorem program_relabels (file : String) (ts : List Token) (hts : R.KeepsNumerals ts) :
    Relabels τ (·.relabel R) (program file ts) (program file (ts.map τ.token)) := by
  refine (token_relabels _ ts hts).bind fun opening _ hleft => ?_
  refine (token_relabels _ opening.rest hleft).bind fun name _ hleft => ?_
  refine (token_relabels _ name.rest hleft).bind fun semicolon _ hleft => ?_
  refine (block_relabels semicolon.rest hleft).bind fun block _ hleft => ?_
  refine (token_relabels _ block.rest hleft).bind fun dot _ hleft => .ok hleft ?_ rfl
  simp [Program.relabel]

end Parse

/-- Relabelled tokens are the relabelled program, or fail at the relabelled token. -/
theorem Program.ofTokens_map {R : Relabelling} (τ : R.OfTokens) (file : String) {ts : List Token}
    (hts : R.KeepsNumerals ts) :
    Program.ofTokens file (ts.map τ.token) =
      ((Program.ofTokens file ts).map (·.relabel R)).mapError (·.mapFound τ.token) := by
  have h := Parse.program_relabels (τ := τ) file ts hts
  unfold ofTokens
  cases hparse : Parse.program file ts with
  | error e =>
      cases hparse' : Parse.program file (ts.map τ.token) with
      | error e' =>
          rw [hparse, hparse'] at h
          obtain rfl : e' = e.mapFound τ.token := h
          rfl
      | ok y =>
          rw [hparse, hparse'] at h
          contradiction
  | ok x =>
      cases hparse' : Parse.program file (ts.map τ.token) with
      | error e' =>
          rw [hparse, hparse'] at h
          contradiction
      | ok y =>
          rw [hparse, hparse'] at h
          obtain ⟨tree, last, rest, hshorter⟩ := y
          obtain ⟨-, rfl, rfl, rfl⟩ := h
          obtain ⟨tree, last, rest, hshorter'⟩ := x
          cases rest with
          | nil => rfl
          | cons t rest => rfl

theorem Program.ofTokens_relabel {R : Relabelling} (file : String) {ts : List Token}
    (hts : R.KeepsNumerals ts) :
    Program.ofTokens file (ts.map (·.relabel R)) =
      ((Program.ofTokens file ts).map (·.relabel R)).mapError (·.relabel R) :=
  Program.ofTokens_map R.ofTokens file hts

end NestedPascal
