import NestedPascal.Grammar.Program
import NestedPascal.Proofs.Tree.SourceTree

/-!
# What parsing builds

Every tree that parsing builds is one as it comes from a source: what each phrase yields depends only
on the tokens it takes, and those have the images of their classes and denote INTEGERs.
-/

namespace NestedPascal

/-- What a token of a source that parses is. -/
structure Token.Proper (t : Token) : Prop where
  image : t.HasImage
  inRange : t.outOfRange = false

namespace Parse

/-- If the phrase is there, its tree has a property and proper tokens are left. -/
def Yields {α : Type} {n : Nat} (P : α → Prop) (r : Except ParseError (Parsed α n)) : Prop :=
  ∀ parsed, r = .ok parsed → P parsed.tree ∧ ∀ t ∈ parsed.rest, t.Proper

section

variable {α β : Type} {m n : Nat} {P : α → Prop} {Q : β → Prop}

theorem Yields.ok {tree : α} {last : Span} {rest : List Token} {h : rest.length < n}
    (htree : P tree) (hrest : ∀ t ∈ rest, t.Proper) :
    Yields P (.ok (⟨tree, last, rest, h⟩ : Parsed α n)) := by
  intro parsed hparsed
  cases hparsed
  exact ⟨htree, hrest⟩

theorem Yields.fail {expected : Expected} {ts : List Token} :
    Yields P (Parse.fail expected ts : Except ParseError (Parsed α n)) := by
  intro parsed hparsed
  contradiction

theorem Yields.bind {r : Except ParseError (Parsed α m)}
    {next : Parsed α m → Except ParseError (Parsed β n)} (hr : Yields P r)
    (hnext : ∀ parsed, P parsed.tree → (∀ t ∈ parsed.rest, t.Proper) → Yields Q (next parsed)) :
    Yields Q (r >>= next) := by
  cases r with
  | error e =>
      intro parsed hparsed
      contradiction
  | ok parsed =>
      obtain ⟨htree, hrest⟩ := hr parsed rfl
      exact hnext parsed htree hrest

end

theorem token_yields (kind : TokenKind) {ts : List Token} (hts : ∀ t ∈ ts, t.Proper) :
    Yields (fun t => t.kind = kind ∧ t.Proper) (token kind ts) := by
  cases ts with
  | nil => exact .fail
  | cons t rest =>
      obtain ⟨ht, hrest⟩ := List.forall_mem_cons.mp hts
      rw [token]
      split
      next hkind => exact .ok ⟨hkind, ht⟩ hrest
      next => exact .fail

theorem identifier_yields {ts : List Token} (hts : ∀ t ∈ ts, t.Proper) :
    Yields (fun t => IsIdentifier t.image) (token .identifier ts) := by
  intro parsed hparsed
  obtain ⟨⟨hkind, ht⟩, hrest⟩ := token_yields .identifier hts parsed hparsed
  exact ⟨ht.image.identifier hkind, hrest⟩

/-! ## Expressions -/

theorem integerLiteral_inRange {t : Token} (ht : t.Proper) (hkind : t.kind = .integerNumber) :
    (integerLiteral t.image).InRange := by
  have hrange := ht.inRange
  simp only [Token.outOfRange, hkind, beq_self_eq_true, Bool.true_and, decide_eq_false_iff_not,
    Int.not_lt] at hrange
  intro _
  refine ⟨decimalValue t.image.toList, ⟨?_, hrange⟩, by simp only [integerLiteral, Value.ofInt]⟩
  simp only [integerMin]
  omega

mutual

theorem factor_yields (ts : List Token) (hts : ∀ t ∈ ts, t.Proper) :
    Yields Expr.FromSource (factor ts) := by
  rw [factor.eq_def]
  match ts, hts with
  | [], _ => exact .fail
  | t :: rest, hts =>
      obtain ⟨ht, hrest⟩ := List.forall_mem_cons.mp hts
      simp only
      split
      next sign hsign =>
        exact (factor_yields rest hrest).bind fun operand hoperand hleft => .ok hoperand hleft
      next =>
        split
        next hkind => exact .ok (integerLiteral_inRange ht hkind) hrest
        next => exact .ok (fun hkind => by contradiction) hrest
        next hkind => exact .ok ⟨ht.image.identifier hkind, rfl⟩ hrest
        next =>
          refine (sum_yields rest hrest).bind fun inner hinner hleft => ?_
          exact (token_yields _ hleft).bind fun close _ hleft => .ok hinner hleft
        next => exact .fail
termination_by 3 * ts.length

theorem product_yields (ts : List Token) (hts : ∀ t ∈ ts, t.Proper) :
    Yields Expr.FromSource (product ts) := by
  rw [product.eq_def]
  refine (factor_yields ts hts).bind fun first hfirst hleft => ?_
  have := first.shorter
  exact (productTail_yields first.tree first.last first.rest hfirst hleft).bind
    fun chain hchain hleft => .ok hchain hleft
termination_by 3 * ts.length + 1

theorem productTail_yields (left : Expr) (last : Span) (ts : List Token) (hleft : left.FromSource)
    (hts : ∀ t ∈ ts, t.Proper) : Yields Expr.FromSource (productTail left last ts) := by
  rw [productTail.eq_def]
  match ts, hts with
  | [], hts => exact .ok hleft hts
  | t :: rest, hts =>
      simp only
      split
      next op hop =>
        refine (factor_yields rest (List.forall_mem_cons.mp hts).2).bind
          fun right hright hrest => ?_
        have := right.shorter
        exact (productTail_yields (joined op left right.tree) right.last right.rest
          ⟨hleft, hright⟩ hrest).bind fun chain hchain hrest => .ok hchain hrest
      next => exact .ok hleft hts
termination_by 3 * ts.length

theorem sum_yields (ts : List Token) (hts : ∀ t ∈ ts, t.Proper) :
    Yields Expr.FromSource (sum ts) := by
  rw [sum.eq_def]
  refine (product_yields ts hts).bind fun first hfirst hleft => ?_
  have := first.shorter
  exact (sumTail_yields first.tree first.last first.rest hfirst hleft).bind
    fun chain hchain hleft => .ok hchain hleft
termination_by 3 * ts.length + 2

theorem sumTail_yields (left : Expr) (last : Span) (ts : List Token) (hleft : left.FromSource)
    (hts : ∀ t ∈ ts, t.Proper) : Yields Expr.FromSource (sumTail left last ts) := by
  rw [sumTail.eq_def]
  match ts, hts with
  | [], hts => exact .ok hleft hts
  | t :: rest, hts =>
      simp only
      split
      next op hop =>
        refine (product_yields rest (List.forall_mem_cons.mp hts).2).bind
          fun right hright hrest => ?_
        have := right.shorter
        exact (sumTail_yields (joined op left right.tree) right.last right.rest
          ⟨hleft, hright⟩ hrest).bind fun chain hchain hrest => .ok hchain hrest
      next => exact .ok hleft hts
termination_by 3 * ts.length

end

theorem moreArguments_yields (ts : List Token) (hts : ∀ t ∈ ts, t.Proper) :
    Yields (fun args => ∀ arg ∈ args, Expr.FromSource arg) (moreArguments ts) := by
  rw [moreArguments.eq_def]
  match ts, hts with
  | [], _ => exact .fail
  | t :: rest, hts =>
      simp only
      split
      next =>
        refine (sum_yields rest (List.forall_mem_cons.mp hts).2).bind fun arg harg hleft => ?_
        have := arg.shorter
        exact (moreArguments_yields arg.rest hleft).bind fun more hmore hleft =>
          .ok (List.forall_mem_cons.mpr ⟨harg, hmore⟩) hleft
      next =>
        split
        next => exact .ok (by simp) (List.forall_mem_cons.mp hts).2
        next => exact .fail
termination_by ts.length

theorem arguments_yields (ts : List Token) (hts : ∀ t ∈ ts, t.Proper) :
    Yields (fun args => ∀ arg ∈ args, Expr.FromSource arg) (arguments ts) := by
  rw [arguments.eq_def]
  match ts, hts with
  | [], _ => exact .fail
  | t :: rest, hts =>
      simp only
      split
      next =>
        refine (sum_yields (t :: rest) hts).bind fun arg harg hleft => ?_
        exact (moreArguments_yields arg.rest hleft).bind fun more hmore hleft =>
          .ok (List.forall_mem_cons.mpr ⟨harg, hmore⟩) hleft
      next =>
        split
        next => exact .ok (by simp) (List.forall_mem_cons.mp hts).2
        next => exact .fail

/-! ## Statements -/

theorem afterName_yields {name : Token} (hname : IsIdentifier name.image) (ts : List Token)
    (hts : ∀ t ∈ ts, t.Proper) : Yields Statement.FromSource (afterName name ts) := by
  have hbare : (⟨name.span, name.image, [], none⟩ : Call).FromSource := ⟨hname, rfl, by simp⟩
  rw [afterName.eq_def]
  match ts, hts with
  | [], hts => exact .ok hbare hts
  | t :: rest, hts =>
      have hrest := (List.forall_mem_cons.mp hts).2
      simp only
      split
      next =>
        exact (sum_yields rest hrest).bind fun value hvalue hleft =>
          .ok ⟨⟨hname, rfl⟩, hvalue⟩ hleft
      next =>
        split
        next =>
          refine (arguments_yields rest hrest).bind fun args hargs hleft => .ok ?_ hleft
          rw [Statement.FromSource]
          exact ⟨hname, rfl, hargs⟩
        next => exact .ok hbare hts

mutual

theorem statements_yields (ts : List Token) (hts : ∀ t ∈ ts, t.Proper) :
    Yields statementsFromSource (statements ts) := by
  rw [statements.eq_def]
  match ts, hts with
  | [], _ => exact .fail
  | t :: rest, hts =>
      obtain ⟨ht, hrest⟩ := List.forall_mem_cons.mp hts
      simp only
      split
      next hkind =>
        refine (afterName_yields (ht.image.identifier hkind) rest hrest).bind
          fun first hfirst hleft => ?_
        have := first.shorter
        exact (moreStatements_yields first.rest hleft).bind fun more hmore hleft =>
          .ok ⟨hfirst, hmore⟩ hleft
      next =>
        refine (statements_yields rest hrest).bind fun inner hinner hleft => ?_
        have := inner.shorter
        exact (moreStatements_yields inner.rest hleft).bind fun more hmore hleft =>
          .ok ⟨hinner, hmore⟩ hleft
      next => exact moreStatements_yields (t :: rest) hts
termination_by 2 * ts.length + 1

theorem moreStatements_yields (ts : List Token) (hts : ∀ t ∈ ts, t.Proper) :
    Yields statementsFromSource (moreStatements ts) := by
  rw [moreStatements.eq_def]
  match ts, hts with
  | [], _ => exact .fail
  | t :: rest, hts =>
      have hrest := (List.forall_mem_cons.mp hts).2
      simp only
      split
      next =>
        exact (statements_yields rest hrest).bind fun more hmore hleft => .ok hmore hleft
      next => exact .ok trivial hrest
      next => exact .fail
termination_by 2 * ts.length

end

theorem compound_yields (ts : List Token) (hts : ∀ t ∈ ts, t.Proper) :
    Yields (fun body => statementsFromSource body.2) (compound ts) := by
  rw [compound.eq_def]
  refine (token_yields _ hts).bind fun opening _ hleft => ?_
  exact (statements_yields opening.rest hleft).bind fun inner hinner hleft => .ok hinner hleft

/-! ## Declarations -/

theorem typeName_yields (ts : List Token) (hts : ∀ t ∈ ts, t.Proper) :
    Yields (fun type : TypeName =>
      canonicalName type.text = "integer" ∨ canonicalName type.text = "real") (typeName ts) := by
  rw [typeName.eq_def]
  match ts, hts with
  | [], _ => exact .fail
  | t :: rest, hts =>
      obtain ⟨ht, hrest⟩ := List.forall_mem_cons.mp hts
      simp only
      split
      next hkind => exact .ok (hkind.imp ht.image.canonicalName_eq ht.image.canonicalName_eq) hrest
      next => exact .fail

theorem moreNames_yields (ts : List Token) (hts : ∀ t ∈ ts, t.Proper) :
    Yields (fun names => ∀ t ∈ names, IsIdentifier (Token.image t)) (moreNames ts) := by
  rw [moreNames.eq_def]
  match ts, hts with
  | [], _ => exact .fail
  | t :: rest, hts =>
      have hrest := (List.forall_mem_cons.mp hts).2
      simp only
      split
      next =>
        refine (identifier_yields hrest).bind fun name hname hleft => ?_
        have := name.shorter
        exact (moreNames_yields name.rest hleft).bind fun more hmore hleft =>
          .ok (List.forall_mem_cons.mpr ⟨hname, hmore⟩) hleft
      next =>
        split
        next => exact .ok (by simp) hrest
        next => exact .fail
termination_by ts.length

theorem typedNames_yields (ts : List Token) (hts : ∀ t ∈ ts, t.Proper) :
    Yields (fun names => ∀ v ∈ names, TypedName.FromSource v) (typedNames ts) := by
  rw [typedNames.eq_def]
  refine (identifier_yields hts).bind fun first hfirst hleft => ?_
  refine (moreNames_yields first.rest hleft).bind fun more hmore hleft => ?_
  refine (typeName_yields more.rest hleft).bind fun type htype hleft => .ok ?_ hleft
  have hnames : ∀ t ∈ first.tree :: more.tree, IsIdentifier t.image :=
    List.forall_mem_cons.mpr ⟨hfirst, hmore⟩
  intro v hv
  obtain ⟨t, ht, rfl⟩ := List.mem_map.mp hv
  exact ⟨hnames t ht, htype⟩

theorem moreGroups_yields (ts : List Token) (last : Span) (hts : ∀ t ∈ ts, t.Proper) :
    Yields (fun names => ∀ v ∈ names, TypedName.FromSource v) (moreGroups ts last) := by
  rw [moreGroups.eq_def]
  match ts, hts with
  | [], hts => exact .ok (by simp) hts
  | t :: rest, hts =>
      simp only
      split
      next =>
        refine (typedNames_yields (t :: rest) hts).bind fun group hgroup hleft => ?_
        refine (token_yields _ hleft).bind fun close _ hleft => ?_
        have : close.rest.length < rest.length + 1 := Nat.lt_trans close.shorter group.shorter
        exact (moreGroups_yields close.rest close.last hleft).bind fun more hmore hleft =>
          .ok (List.forall_mem_append.mpr ⟨hgroup, hmore⟩) hleft
      next => exact .ok (by simp) hts
termination_by ts.length

theorem variableSection_yields (ts : List Token) (hts : ∀ t ∈ ts, t.Proper) :
    Yields (fun names => ∀ v ∈ names, TypedName.FromSource v) (variableSection ts) := by
  rw [variableSection.eq_def]
  match ts, hts with
  | [], _ => exact .fail
  | t :: rest, hts =>
      simp only
      split
      next =>
        refine (typedNames_yields (t :: rest) hts).bind fun group hgroup hleft => ?_
        refine (token_yields _ hleft).bind fun close _ hleft => ?_
        exact (moreGroups_yields close.rest close.last hleft).bind fun more hmore hleft =>
          .ok (List.forall_mem_append.mpr ⟨hgroup, hmore⟩) hleft
      next => exact .fail

theorem moreParams_yields (ts : List Token) (hts : ∀ t ∈ ts, t.Proper) :
    Yields (fun names => ∀ v ∈ names, TypedName.FromSource v) (moreParams ts) := by
  rw [moreParams.eq_def]
  match ts, hts with
  | [], _ => exact .fail
  | t :: rest, hts =>
      have hrest := (List.forall_mem_cons.mp hts).2
      simp only
      split
      next =>
        refine (typedNames_yields rest hrest).bind fun group hgroup hleft => ?_
        have := group.shorter
        exact (moreParams_yields group.rest hleft).bind fun more hmore hleft =>
          .ok (List.forall_mem_append.mpr ⟨hgroup, hmore⟩) hleft
      next =>
        split
        next => exact .ok (by simp) hrest
        next => exact .fail
termination_by ts.length

theorem header_yields (ts : List Token) (hts : ∀ t ∈ ts, t.Proper) :
    Yields (fun names => ∀ v ∈ names, TypedName.FromSource v) (header ts) := by
  rw [header.eq_def]
  match ts, hts with
  | [], _ => exact .fail
  | t :: rest, hts =>
      have hrest := (List.forall_mem_cons.mp hts).2
      simp only
      split
      next =>
        refine (typedNames_yields rest hrest).bind fun group hgroup hleft => ?_
        refine (moreParams_yields group.rest hleft).bind fun more hmore hleft => ?_
        exact (token_yields _ hleft).bind fun close _ hleft =>
          .ok (List.forall_mem_append.mpr ⟨hgroup, hmore⟩) hleft
      next =>
        split
        next => exact .ok (by simp) hrest
        next => exact .fail

/-! ## Blocks and programs -/

/-- What the parts of a block are when they come from a source. -/
structure BlockParts.FromSource (parts : BlockParts) : Prop where
  declarations : ∀ d ∈ parts.declarations, d.FromSource
  body : statementsFromSource parts.body

theorem BlockParts.FromSource.block {parts : BlockParts} (h : parts.FromSource) (ts : List Token)
    (last : Span) : (parts.block ts last).FromSource :=
  ⟨declarationsFromSource_iff.mpr h.declarations, h.body⟩

mutual

theorem blockParts_yields (ts : List Token) (hts : ∀ t ∈ ts, t.Proper) :
    Yields BlockParts.FromSource (blockParts ts) := by
  rw [blockParts.eq_def]
  match ts, hts with
  | [], _ => exact .fail
  | t :: rest, hts =>
      have hrest := (List.forall_mem_cons.mp hts).2
      simp only
      split
      next =>
        refine (variableSection_yields rest hrest).bind fun names hnames hleft => ?_
        have := names.shorter
        refine (blockParts_yields names.rest hleft).bind fun more hmore hleft => .ok ?_ hleft
        refine ⟨List.forall_mem_append.mpr ⟨?_, hmore.declarations⟩, hmore.body⟩
        intro d hd
        obtain ⟨v, hv, rfl⟩ := List.mem_map.mp hd
        exact hnames v hv
      next =>
        refine (procedure_yields t.span rest hrest).bind fun declaration hdeclaration hleft => ?_
        have := declaration.shorter
        exact (blockParts_yields declaration.rest hleft).bind fun more hmore hleft =>
          .ok ⟨List.forall_mem_cons.mpr ⟨hdeclaration, hmore.declarations⟩, hmore.body⟩ hleft
      next =>
        exact (compound_yields (t :: rest) hts).bind fun body hbody hleft =>
          .ok ⟨by simp, hbody⟩ hleft
termination_by 2 * ts.length

theorem procedure_yields (opening : Span) (ts : List Token) (hts : ∀ t ∈ ts, t.Proper) :
    Yields Declaration.FromSource (procedure opening ts) := by
  rw [procedure.eq_def]
  refine (identifier_yields hts).bind fun name hname hleft => ?_
  refine (header_yields name.rest hleft).bind fun params hparams hleft => ?_
  have := name.shorter
  have := params.shorter
  refine (blockParts_yields params.rest hleft).bind fun parts hparts hleft => ?_
  exact (token_yields _ hleft).bind fun close _ hleft =>
    .ok ⟨hname, hparams, hparts.block _ _⟩ hleft
termination_by 2 * ts.length + 1

end

theorem program_yields (file : String) (ts : List Token) (hts : ∀ t ∈ ts, t.Proper) :
    Yields Program.FromSource (program file ts) := by
  rw [program.eq_def]
  refine (token_yields _ hts).bind fun opening _ hleft => ?_
  refine (identifier_yields hleft).bind fun name hname hleft => ?_
  refine (token_yields _ hleft).bind fun semicolon _ hleft => ?_
  have hblock : Yields Block.FromSource (block semicolon.rest) :=
    (blockParts_yields semicolon.rest hleft).bind fun parts hparts hleft =>
      .ok (hparts.block _ _) hleft
  refine hblock.bind fun block hblock hleft => ?_
  exact (token_yields _ hleft).bind fun dot _ hleft => .ok ⟨hname, hblock⟩ hleft

end Parse

theorem Program.fromSource_of_ofTokens {file : String} {ts : List Token}
    (hts : ∀ t ∈ ts, t.Proper) {p : Program} (h : Program.ofTokens file ts = .ok p) :
    p.FromSource := by
  cases hparsed : Parse.program file ts with
  | error e =>
      rw [ofTokens, hparsed] at h
      contradiction
  | ok parsed =>
      rw [ofTokens, hparsed] at h
      change (if parsed.rest.isEmpty then Except.ok parsed.tree
        else Parse.fail .endOfInput parsed.rest) = .ok p at h
      split at h
      next =>
        cases h
        exact (Parse.program_yields file ts hts parsed hparsed).1
      next => contradiction

/-- A source that parses yields a tree as it comes from a source. -/
theorem Program.fromSource_of_parse {source : List Char} {file : String} {detailed : Bool}
    {p : Program} (h : Program.parse source file detailed = .ok p) : p.FromSource := by
  unfold Program.parse at h
  simp only at h
  split at h
  next =>
    split at h
    next => contradiction
    next program hprogram =>
      split at h
      next => contradiction
      next hfind =>
        cases h
        refine fromSource_of_ofTokens (fun t ht => ⟨hasImage_of_mem_tokensOf ht, ?_⟩) hprogram
        simpa using List.find?_eq_none.mp hfind t ht
  next => contradiction

/-- A source that parses to a program with a property that can be tested. -/
theorem Program.parse_of_any {source : List Char} {file : String} {detailed : Bool}
    {test : Program → Bool} (h : (Program.parse source file detailed).toOption.any test = true) :
    ∃ p, Program.parse source file detailed = .ok p ∧ test p = true := by
  cases hparse : Program.parse source file detailed with
  | error e =>
      rw [hparse] at h
      contradiction
  | ok p =>
      rw [hparse] at h
      exact ⟨p, rfl, h⟩

end NestedPascal
