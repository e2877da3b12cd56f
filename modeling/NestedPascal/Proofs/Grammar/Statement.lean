import NestedPascal.Grammar.Statement
import NestedPascal.Proofs.Grammar.Expression
import NestedPascal.Proofs.Grammar.Separated

/-!
# The grammar of statements

A semicolon or END completes a statement, so the tokens of a compound statement show where each
statement ends and where there is none.
-/

namespace NestedPascal

namespace Grammar

open Parse

/-! ## Arguments -/

/-- The arguments of a call, if it has any, and the parenthesis that closes them. -/
abbrev Arguments := Closed (Option (Separated Sum (.mark .comma))) (.mark .rightParen)

namespace Arguments

abbrev tokens (d : Arguments) : List Token :=
  Closed.tokens (fun args => args.elim [] (Separated.tokens Sum.tokens)) d

def trees (d : Arguments) : List Expr :=
  d.phrase.elim [] fun args => args.items.map Sum.tree

theorem unambiguous : Unambiguous tokens fun _ => True := by
  have hargs : Unambiguous (fun args : Option (Separated Sum (.mark .comma)) =>
      args.elim [] (Separated.tokens Sum.tokens)) (· = .mark .rightParen) := by
    intro d d' rest rest' h hrest hrest'
    match d, d' with
    | none, none => exact ⟨rfl, h⟩
    | none, some ⟨first, more⟩ =>
        obtain ⟨t, ts, htokens, hopens⟩ := first.opening
        grind [Separated.tokens, HeadIs, opensExpr]
    | some ⟨first, more⟩, none =>
        obtain ⟨t, ts, htokens, hopens⟩ := first.opening
        grind [Separated.tokens, opensExpr]
    | some args, some args' =>
        have hends : ∀ kind, kind = .mark .rightParen → EndsSum kind ∧ kind ≠ .mark .comma := by
          rintro _ rfl
          exact ⟨endsSum_rightParen, by simp⟩
        obtain ⟨rfl, hafter⟩ := Separated.unambiguous sum_unambiguous ⟨rfl, rfl⟩ args args' _ _ h
          (hrest.mono hends) (hrest'.mono hends)
        exact ⟨rfl, hafter⟩
  exact Closed.unambiguous hargs rfl

end Arguments

/-! ## Statements -/

/-- What follows the name that a statement opens with. -/
inductive AfterName where
  | none
  | assigned (assign : Terminal (.mark .assign)) (value : Sum)
  | applied (opening : Terminal (.mark .leftParen)) (args : Arguments)

namespace AfterName

@[grind =]
def tokens : AfterName → List Token
  | none => []
  | assigned assign value => assign.token :: value.tokens
  | applied opening args => opening.token :: args.tokens

/-- The tree of the statement: an assignment to the name or a call of it. -/
def tree (name : Token) : AfterName → NestedPascal.Statement
  | none => .call ⟨name.span, name.image, [], .none⟩
  | assigned assign value =>
    .assignment (spanOver (name :: (assigned assign value).tokens)) ⟨name.span, name.image, .none⟩
      value.tree
  | applied opening args =>
    .call ⟨spanOver (name :: (applied opening args).tokens), name.image, args.trees, .none⟩

end AfterName

mutual

inductive Statement where
  | compound (body : Compound)
  | named (name : Terminal .identifier) (after : AfterName)

inductive Compound where
  | mk (opening : Terminal (.keyword .blockBegin)) (statements : Statements)
      (closing : Terminal (.keyword .blockEnd))

/-- A statement or none, and what follows it. -/
inductive Statements where
  | empty (more : MoreStatements)
  | statement (first : Statement) (more : MoreStatements)

/-- Nothing more, or a semicolon and statements after it. -/
inductive MoreStatements where
  | none
  | next (semicolon : Terminal (.mark .semicolon)) (statements : Statements)

end

mutual

@[grind =]
def Statement.tokens : Statement → List Token
  | .compound body => body.tokens
  | .named name after => name.token :: after.tokens

@[grind =]
def Compound.tokens : Compound → List Token
  | .mk opening statements closing => opening.token :: (statements.tokens ++ [closing.token])

def Statements.tokens : Statements → List Token
  | .empty more => more.tokens
  | .statement first more => first.tokens ++ more.tokens

@[grind =]
def MoreStatements.tokens : MoreStatements → List Token
  | .none => []
  | .next semicolon statements => semicolon.token :: statements.tokens

end

def Compound.span (d : Compound) : Span := spanOver d.tokens

mutual

def Statement.tree : Statement → NestedPascal.Statement
  | .compound body => .compound body.span body.tree
  | .named name after => after.tree name.token

/-- The statements of a compound statement: the empty ones leave nothing. -/
def Compound.tree : Compound → List NestedPascal.Statement
  | .mk _ statements _ => statements.trees

def Statements.trees : Statements → List NestedPascal.Statement
  | .empty more => more.trees
  | .statement first more => first.tree :: more.trees

def MoreStatements.trees : MoreStatements → List NestedPascal.Statement
  | .none => []
  | .next _ statements => statements.trees

end

/-- Whether a statement can be complete before a token of the class. -/
def EndsStatement (kind : TokenKind) : Prop :=
  kind = .mark .semicolon ∨ kind = .keyword .blockEnd

/-- Whether a row of statements can be complete before a token of the class. -/
def EndsStatements (kind : TokenKind) : Prop :=
  kind = .keyword .blockEnd

theorem endsStatements_end : EndsStatements (.keyword .blockEnd) := rfl

theorem EndsStatement.endsSum {kind : TokenKind} (h : EndsStatement kind) : EndsSum kind := by
  rcases h with rfl | rfl <;> exact ⟨rfl, rfl⟩

/-- What follows a statement completes it. -/
theorem MoreStatements.endsStatement (d : MoreStatements) {rest : List Token}
    (hrest : HeadIs EndsStatements rest) : HeadIs EndsStatement (d.tokens ++ rest) := by
  cases d with
  | none => exact hrest.mono fun _ h => .inr h
  | next semicolon statements => exact semicolon.headIs (.inl rfl)

theorem AfterName.unambiguous : Unambiguous AfterName.tokens EndsStatement := by
  intro d d' rest rest' h hrest hrest'
  -- The first token tells which of the three it is.
  cases d with
  | none =>
      cases d' with
      | none => exact ⟨rfl, h⟩
      | _ => grind [EndsStatement]
  | assigned assign value =>
      cases d' with
      | assigned assign' value' =>
          obtain ⟨rfl, hvalue⟩ := assign.unambiguous assign' h
          obtain ⟨rfl, hafter⟩ := value.unambiguous value' hvalue
            (hrest.mono fun _ h => h.endsSum) (hrest'.mono fun _ h => h.endsSum)
          exact ⟨rfl, hafter⟩
      | _ => grind [EndsStatement]
  | applied opening args =>
      cases d' with
      | applied opening' args' =>
          obtain ⟨rfl, hargs⟩ := opening.unambiguous opening' h
          obtain ⟨rfl, hafter⟩ := Arguments.unambiguous args args' _ _ hargs headIs_true headIs_true
          exact ⟨rfl, hafter⟩
      | _ => grind [EndsStatement]

/-- No statement starts with a token that completes one. -/
theorem Statement.opening (d : Statement) :
    ∃ t ts, d.tokens = t :: ts ∧ ¬ EndsStatement t.kind := by
  match d with
  | .compound (.mk opening _ _) =>
      exact ⟨_, _, rfl, by simp [opening.kind_eq, EndsStatement]⟩
  | .named name _ => exact ⟨_, _, rfl, by simp [name.kind_eq, EndsStatement]⟩

theorem append_ne_of_endsStatement (d : Statement) {ts us : List Token}
    (hts : HeadIs EndsStatement ts) : d.tokens ++ us ≠ ts := by
  obtain ⟨t, ts', htokens, hends⟩ := d.opening
  rintro rfl
  rw [htokens, List.cons_append, headIs_cons] at hts
  exact hends hts

mutual

theorem Statement.unambiguous (d d' : Statement) {rest rest' : List Token}
    (h : d.tokens ++ rest = d'.tokens ++ rest') (hrest : HeadIs EndsStatement rest)
    (hrest' : HeadIs EndsStatement rest') : d = d' ∧ rest = rest' := by
  cases d with
  | compound body =>
      cases d' with
      | compound body' =>
          obtain ⟨rfl, hafter⟩ := body.unambiguous body' h
          exact ⟨rfl, hafter⟩
      | named name' after' =>
          cases body
          grind
  | named name after =>
      cases d' with
      | compound body' =>
          cases body'
          grind
      | named name' after' =>
          obtain ⟨rfl, hafter⟩ := name.unambiguous name' h
          obtain ⟨rfl, hleft⟩ := AfterName.unambiguous _ _ _ _ hafter hrest hrest'
          exact ⟨rfl, hleft⟩

theorem Compound.unambiguous (d d' : Compound) {rest rest' : List Token}
    (h : d.tokens ++ rest = d'.tokens ++ rest') : d = d' ∧ rest = rest' := by
  cases d with
  | mk opening statements closing =>
      cases d' with
      | mk opening' statements' closing' =>
          simp only [Compound.tokens, List.cons_append, List.append_assoc, List.nil_append] at h
          obtain ⟨rfl, hstatements⟩ := opening.unambiguous opening' h
          obtain ⟨rfl, hclosing⟩ := statements.unambiguous statements' hstatements
            (closing.headIs endsStatements_end) (closing'.headIs endsStatements_end)
          obtain ⟨rfl, hafter⟩ := closing.unambiguous closing' hclosing
          exact ⟨rfl, hafter⟩

theorem Statements.unambiguous (d d' : Statements) {rest rest' : List Token}
    (h : d.tokens ++ rest = d'.tokens ++ rest') (hrest : HeadIs EndsStatements rest)
    (hrest' : HeadIs EndsStatements rest') : d = d' ∧ rest = rest' := by
  cases d with
  | empty more =>
      cases d' with
      | empty more' =>
          obtain ⟨rfl, hafter⟩ := more.unambiguous more' h hrest hrest'
          exact ⟨rfl, hafter⟩
      | statement first' more' =>
          rw [Statements.tokens, Statements.tokens, List.append_assoc] at h
          exact absurd h.symm (append_ne_of_endsStatement first' (more.endsStatement hrest))
  | statement first more =>
      cases d' with
      | empty more' =>
          rw [Statements.tokens, Statements.tokens, List.append_assoc] at h
          exact absurd h (append_ne_of_endsStatement first (more'.endsStatement hrest'))
      | statement first' more' =>
          rw [Statements.tokens, Statements.tokens, List.append_assoc, List.append_assoc] at h
          obtain ⟨rfl, hmore⟩ := first.unambiguous first' h (more.endsStatement hrest)
            (more'.endsStatement hrest')
          obtain ⟨rfl, hafter⟩ := more.unambiguous more' hmore hrest hrest'
          exact ⟨rfl, hafter⟩

theorem MoreStatements.unambiguous (d d' : MoreStatements) {rest rest' : List Token}
    (h : d.tokens ++ rest = d'.tokens ++ rest') (hrest : HeadIs EndsStatements rest)
    (hrest' : HeadIs EndsStatements rest') : d = d' ∧ rest = rest' := by
  cases d with
  | none =>
      cases d' with
      | none => exact ⟨rfl, h⟩
      | next semicolon' statements' =>
          grind [EndsStatements]
  | next semicolon statements =>
      cases d' with
      | none => grind [EndsStatements]
      | next semicolon' statements' =>
          obtain ⟨rfl, hstatements⟩ := semicolon.unambiguous semicolon' h
          obtain ⟨rfl, hafter⟩ := statements.unambiguous statements' hstatements hrest hrest'
          exact ⟨rfl, hafter⟩

end

end Grammar

namespace Parse

open Grammar

/-! ## Parsing arguments -/

theorem moreArguments_eq (ts : List Token) :
    moreArguments ts =
      closedItems (.mark .comma) (.mark .rightParen) sum (fun arg => [arg]) moreArguments ts := by
  rw [moreArguments.eq_def]
  cases ts <;> rfl

theorem moreArguments_parses :
    Parses moreArguments
      (fun d : Closed (List (Terminal (.mark .comma) × Sum)) (.mark .rightParen) =>
        d.tokens (tokensAfter Sum.tokens))
      (fun d => d.phrase.map fun arg => arg.2.tree) fun _ => True := by
  have hne : TokenKind.mark .rightParen ≠ .mark .comma := by simp
  simpa only [List.map_eq_flatMap] using
    closedItems_parses moreArguments_eq sum_parses ⟨rfl, rfl⟩ endsSum_rightParen hne

theorem arguments_reads (before : Span) (ts : List Token) :
    Reads Arguments.tokens Arguments.trees before ts (arguments ts) := by
  cases ts with
  | nil => exact .fail
  | cons t rest =>
      rw [arguments]
      split
      next =>
        apply (sum_reads before (t :: rest)).bind
        intro first left _ hts
        apply (moreArguments_parses.reads (endOf before first.tokens) left).bind
        intro more left' _ hleft
        refine .ok ⟨some ⟨first, more.phrase⟩, more.closing⟩ ?_ ?_ ?_
        · simp [Closed.tokens, Separated.tokens, hts, hleft]
        · simp [Arguments.trees, Separated.items]
        · simp
      next =>
        split
        next hclose => exact .ok ⟨none, ⟨t, hclose⟩⟩ rfl rfl rfl
        next => exact .fail

theorem arguments_gives (d : Arguments) (before : Span) (rest : List Token) :
    Gives (arguments (d.tokens ++ rest)) d.trees (endOf before d.tokens) rest := by
  obtain ⟨args, closing⟩ := d
  rw [Closed.tokens_append, Closed.endOf_tokens]
  match args with
  | none =>
      rw [Option.elim, List.nil_append, arguments]
      simp only [closing.kind_eq, opensExpr, if_true]
      exact .ok
  | some ⟨first, more⟩ =>
      have hfirst := sum_gives first before (tokensAfter Sum.tokens more ++ closing.token :: rest)
        (headIs_tokensAfter more ⟨rfl, rfl⟩ (closing.headIs endsSum_rightParen))
      have hmore := moreArguments_parses.gives ⟨more, closing⟩ before rest headIs_true
      rw [Closed.tokens_append] at hmore
      obtain ⟨t, ts, hopening, hopens⟩ := first.opening
      rw [Option.elim, Separated.tokens, List.append_assoc]
      rw [hopening, List.cons_append] at hfirst ⊢
      rw [arguments]
      simp only [hopens, if_true]
      apply hfirst.bind
      intro _
      apply hmore.bind
      intro _
      refine .of_eq ?_ ?_ rfl
      · simp [Arguments.trees, Separated.items]
      · simp

/-! ## Parsing statements -/

theorem afterName_reads (name : Token) (ts : List Token) :
    Reads AfterName.tokens (AfterName.tree name) name.span ts (afterName name ts) := by
  rw [afterName.eq_def]
  cases ts with
  | nil => exact .ok .none rfl rfl rfl
  | cons t rest =>
      simp only
      split
      next hassign =>
        apply (sum_reads t.span rest).bind
        intro value left _ hrest
        exact .ok (.assigned ⟨t, hassign⟩ value) (by simp [AfterName.tokens, hrest]) rfl rfl
      next =>
        split
        next hopening =>
          apply (arguments_reads t.span rest).bind
          intro args left _ hrest
          exact .ok (.applied ⟨t, hopening⟩ args) (by simp [AfterName.tokens, hrest]) rfl rfl
        next => exact .ok .none rfl rfl rfl

theorem afterName_gives (d : AfterName) (name : Token) (rest : List Token)
    (hrest : HeadIs EndsStatement rest) :
    Gives (afterName name (d.tokens ++ rest)) (d.tree name) (endOf name.span d.tokens) rest := by
  cases d with
  | none =>
      rw [AfterName.tokens, List.nil_append, afterName.eq_def]
      cases rest with
      | nil => exact .ok
      | cons t rest =>
          rcases headIs_cons.mp hrest with hkind | hkind <;> simp only [hkind] <;> exact .ok
  | assigned assign value =>
      rw [AfterName.tokens, List.cons_append, afterName.eq_def]
      simp only [assign.kind_eq, if_true]
      apply (sum_gives value assign.token.span rest (hrest.mono fun _ h => h.endsSum)).bind
      intro _
      exact .ok
  | applied opening args =>
      rw [AfterName.tokens, List.cons_append, afterName.eq_def]
      simp only [opening.kind_eq, if_true]
      apply (arguments_gives args opening.token.span rest).bind
      intro _
      exact .ok

mutual

theorem statements_reads (before : Span) (ts : List Token) :
    Reads (fun d : Closed Statements (.keyword .blockEnd) => d.tokens Statements.tokens)
      (fun d => d.phrase.trees) before ts (statements ts) := by
  rw [statements.eq_def]
  match ts with
  | [] => exact .fail
  | t :: rest =>
      simp only
      split
      next hkind =>
        apply (afterName_reads t rest).bind
        intro after left _ hrest
        apply (moreStatements_reads (endOf t.span after.tokens) left).bind
        intro more left' _ hleft
        refine .ok ⟨.statement (.named ⟨t, hkind⟩ after) more.phrase, more.closing⟩ ?_ rfl ?_
        · simp [Closed.tokens, Statements.tokens, Statement.tokens, hrest, hleft]
        · simp
      next hkind =>
        apply (statements_reads t.span rest).bind
        intro inner left _ hrest
        apply (moreStatements_reads inner.closing.token.span left).bind
        intro more left' _ hleft
        refine .ok ⟨.statement (.compound (.mk ⟨t, hkind⟩ inner.phrase inner.closing)) more.phrase,
          more.closing⟩ ?_ ?_ ?_
        · simp [Closed.tokens, Statements.tokens, Statement.tokens, Compound.tokens, hrest, hleft]
        · simp [Statements.trees, Statement.tree, Compound.tree, Compound.span, Compound.tokens,
            spanOver]
        · simp
      next =>
        intro parsed hparsed
        obtain ⟨more, htokens, htree, hlast⟩ :=
          moreStatements_reads before (t :: rest) parsed hparsed
        exact ⟨⟨.empty more.phrase, more.closing⟩, htokens, htree, hlast⟩
termination_by 2 * ts.length + 1

theorem moreStatements_reads (before : Span) (ts : List Token) :
    Reads (fun d : Closed MoreStatements (.keyword .blockEnd) => d.tokens MoreStatements.tokens)
      (fun d => d.phrase.trees) before ts (moreStatements ts) := by
  rw [moreStatements.eq_def]
  match ts with
  | [] => exact .fail
  | t :: rest =>
      simp only
      split
      next hkind =>
        apply (statements_reads t.span rest).bind
        intro more left _ hrest
        exact .ok ⟨.next ⟨t, hkind⟩ more.phrase, more.closing⟩
          (by simp [Closed.tokens, MoreStatements.tokens, hrest]) rfl (by simp)
      next hkind => exact .ok ⟨.none, ⟨t, hkind⟩⟩ rfl rfl rfl
      next => exact .fail
termination_by 2 * ts.length

end

mutual

theorem statements_gives (d : Statements) (closing : Terminal (.keyword .blockEnd))
    (rest : List Token) :
    Gives (statements (d.tokens ++ closing.token :: rest)) d.trees closing.token.span rest := by
  match d with
  | .empty .none =>
      have hmore := moreStatements_gives .none closing rest
      rw [MoreStatements.tokens, List.nil_append] at hmore
      rw [Statements.tokens, MoreStatements.tokens, List.nil_append, statements.eq_def]
      simp only [closing.kind_eq]
      exact hmore
  | .empty (.next semicolon more) =>
      have hmore := moreStatements_gives (.next semicolon more) closing rest
      rw [MoreStatements.tokens, List.cons_append] at hmore
      rw [Statements.tokens, MoreStatements.tokens, List.cons_append, statements.eq_def]
      simp only [semicolon.kind_eq]
      exact hmore
  | .statement (.named name after) more =>
      rw [Statements.tokens, Statement.tokens, List.cons_append, List.cons_append,
        List.append_assoc, statements.eq_def]
      simp only [name.kind_eq]
      apply (afterName_gives after name.token _
        (more.endsStatement (closing.headIs endsStatements_end))).bind
      intro _
      exact (moreStatements_gives more closing rest).bind fun _ => .ok
  | .statement (.compound (.mk opening inner innerClosing)) more =>
      rw [Statements.tokens, Statement.tokens, Compound.tokens, List.cons_append, List.cons_append,
        List.append_assoc, List.append_assoc, List.singleton_append, statements.eq_def]
      simp only [opening.kind_eq]
      apply (statements_gives inner innerClosing _).bind
      intro _
      apply (moreStatements_gives more closing rest).bind
      intro _
      refine .of_eq ?_ rfl rfl
      simp [Statements.trees, Statement.tree, Compound.tree, Compound.span, Compound.tokens,
        spanOver]

theorem moreStatements_gives (d : MoreStatements) (closing : Terminal (.keyword .blockEnd))
    (rest : List Token) :
    Gives (moreStatements (d.tokens ++ closing.token :: rest)) d.trees closing.token.span rest := by
  match d with
  | .none =>
      rw [MoreStatements.tokens, List.nil_append, moreStatements.eq_def]
      simp only [closing.kind_eq]
      exact .ok
  | .next semicolon statements =>
      rw [MoreStatements.tokens, List.cons_append, moreStatements.eq_def]
      simp only [semicolon.kind_eq]
      exact (statements_gives statements closing rest).bind fun _ => .ok

end

theorem compound_reads (before : Span) (ts : List Token) :
    Reads Compound.tokens (fun d => (d.span, d.tree)) before ts (compound ts) := by
  rw [compound]
  apply (token_reads (.keyword .blockBegin) before ts).bind
  intro opening left _ hts
  apply (statements_reads opening.token.span left).bind
  intro inner left' _ hleft
  refine .ok (.mk opening inner.phrase inner.closing) ?_ ?_ ?_
  · simp [Compound.tokens, Closed.tokens, hts, hleft]
  · simp [Compound.tree, Compound.span, Compound.tokens, spanOver]
  · simp [Compound.tokens]

theorem compound_gives (d : Compound) (before : Span) (rest : List Token) :
    Gives (compound (d.tokens ++ rest)) (d.span, d.tree) (endOf before d.tokens) rest := by
  obtain ⟨opening, statements, closing⟩ := d
  rw [Compound.tokens, List.cons_append, List.append_assoc, List.singleton_append, compound]
  apply (token_gives opening _).bind
  intro _
  apply (statements_gives statements closing rest).bind
  intro _
  refine .of_eq ?_ ?_ rfl
  · simp [Compound.tree, Compound.span, Compound.tokens, spanOver]
  · simp

end Parse

end NestedPascal
