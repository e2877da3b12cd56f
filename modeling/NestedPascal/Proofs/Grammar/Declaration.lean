import NestedPascal.Grammar.Declaration
import NestedPascal.Proofs.Grammar.Separated

/-!
# The grammar of declared names

Groups of names that share a type stand in the sections of variables, each with a semicolon after it,
and in the lists of parameters, with semicolons between them.  Each name of a group is a node of its
own in the tree.
-/

namespace NestedPascal

namespace Grammar

/-! ## Groups of names -/

/-- One of the two words that name a type. -/
@[ext]
structure TypeWord where
  token : Token
  names : token.kind = .keyword .integer ∨ token.kind = .keyword .real

def TypeWord.tree (d : TypeWord) : TypeName := ⟨d.token.span, d.token.image⟩

/-- Names with a comma between each two, a colon and a type. -/
structure TypedNames where
  names : Separated (Terminal .identifier) (.mark .comma)
  colon : Terminal (.mark .colon)
  type : TypeWord

namespace TypedNames

def tokens (d : TypedNames) : List Token :=
  d.names.tokens (fun name => [name.token]) ++ [d.colon.token, d.type.token]

def tree (d : TypedNames) : List TypedName :=
  d.names.items.map fun name => ⟨name.token.span, name.token.image, d.type.tree⟩

theorem opening (d : TypedNames) : ∃ t : Terminal .identifier, ∃ ts, d.tokens = t.token :: ts :=
  ⟨d.names.first, _, rfl⟩

theorem unambiguous : Unambiguous tokens fun _ => True := by
  intro d d' rest rest' h _ _
  obtain ⟨names, colon, type⟩ := d
  obtain ⟨names', colon', type'⟩ := d'
  simp only [tokens, List.append_assoc, List.cons_append, List.nil_append] at h
  obtain ⟨rfl, hcolon⟩ := Separated.unambiguous (unambiguous_terminal .identifier) trivial
    names names' _ _ h (colon.headIs (by simp)) (colon'.headIs (by simp))
  obtain ⟨rfl, htype⟩ := colon.unambiguous colon' hcolon
  obtain ⟨htype, hrest⟩ := List.cons.inj htype
  exact ⟨by rw [TypeWord.ext htype], hrest⟩

end TypedNames

/-! ## Sections of variables -/

/-- A group of names and the semicolon after it. -/
abbrev Group := Closed TypedNames (.mark .semicolon)

abbrev Group.tokens (d : Group) : List Token := Closed.tokens TypedNames.tokens d

theorem Group.opening (d : Group) : ∃ t : Terminal .identifier, ∃ ts, d.tokens = t.token :: ts :=
  ⟨d.phrase.names.first, _, rfl⟩

/-- The groups of a section of variables, at least one. -/
structure Groups where
  first : Group
  more : List Group

namespace Groups

def tokens (d : Groups) : List Token := (d.first :: d.more).flatMap Group.tokens

def tree (d : Groups) : List TypedName := (d.first :: d.more).flatMap fun group => group.phrase.tree

theorem unambiguous : Unambiguous tokens (· ≠ .identifier) := by
  intro d d' rest rest' h hrest hrest'
  obtain ⟨first, more⟩ := d
  obtain ⟨first', more'⟩ := d'
  have hgroup : Unambiguous Group.tokens fun _ => True :=
    Closed.unambiguous TypedNames.unambiguous trivial
  obtain ⟨hgroups, hafter⟩ := flatMap_unambiguous hgroup Group.opening trivial _ _ _ _ h
    (hrest.mono fun _ h => ⟨trivial, h⟩) (hrest'.mono fun _ h => ⟨trivial, h⟩)
  cases hgroups
  exact ⟨rfl, hafter⟩

end Groups

/-! ## Parameters -/

/-- The parameters of a procedure in their parentheses. -/
structure Params where
  opening : Terminal (.mark .leftParen)
  groups : Separated TypedNames (.mark .semicolon)
  closing : Terminal (.mark .rightParen)

namespace Params

@[grind =]
def tokens (d : Params) : List Token :=
  d.opening.token :: (d.groups.tokens TypedNames.tokens ++ [d.closing.token])

def tree (d : Params) : List TypedName := d.groups.items.flatMap TypedNames.tree

theorem unambiguous : Unambiguous tokens fun _ => True := by
  intro d d' rest rest' h _ _
  obtain ⟨opening, groups, closing⟩ := d
  obtain ⟨opening', groups', closing'⟩ := d'
  simp only [tokens, List.cons_append, List.append_assoc, List.nil_append] at h
  obtain ⟨rfl, hgroups⟩ := opening.unambiguous opening' h
  obtain ⟨rfl, hclosing⟩ := Separated.unambiguous TypedNames.unambiguous trivial
    groups groups' _ _ hgroups (closing.headIs (by simp)) (closing'.headIs (by simp))
  obtain ⟨rfl, hafter⟩ := closing.unambiguous closing' hclosing
  exact ⟨rfl, hafter⟩

end Params

/-- The parameters of a procedure, if it has any, and the semicolon after them. -/
abbrev Header := Closed (Option Params) (.mark .semicolon)

namespace Header

abbrev tokens (d : Header) : List Token :=
  Closed.tokens (fun params => params.elim [] Params.tokens) d

def tree (d : Header) : List TypedName := d.phrase.elim [] Params.tree

theorem unambiguous : Unambiguous tokens fun _ => True := by
  have hparams : Unambiguous (fun params : Option Params => params.elim [] Params.tokens)
      (· = .mark .semicolon) := by
    intro d d' rest rest' h hrest hrest'
    match d, d' with
    | none, none => exact ⟨rfl, h⟩
    | none, some params' => grind [HeadIs]
    | some params, none => grind
    | some params, some params' =>
        obtain ⟨rfl, hafter⟩ := Params.unambiguous params params' _ _ h headIs_true headIs_true
        exact ⟨rfl, hafter⟩
  exact Closed.unambiguous hparams rfl

end Header

end Grammar

namespace Parse

open Grammar

/-! ## Parsing groups of names -/

theorem moreNames_eq (ts : List Token) :
    moreNames ts =
      closedItems (.mark .comma) (.mark .colon) (token .identifier) (fun t => [t]) moreNames
        ts := by
  rw [moreNames.eq_def]
  cases ts <;> rfl

theorem moreNames_parses :
    Parses moreNames
      (fun d : Closed (List (Terminal (.mark .comma) × Terminal .identifier)) (.mark .colon) =>
        d.tokens (tokensAfter fun name => [name.token]))
      (fun d => d.phrase.map fun name => name.2.token) fun _ => True := by
  have hne : TokenKind.mark .colon ≠ .mark .comma := by simp
  simpa only [List.map_eq_flatMap] using
    closedItems_parses moreNames_eq (token_parses .identifier) trivial trivial hne

theorem typeName_reads (before : Span) (ts : List Token) :
    Reads (fun d : TypeWord => [d.token]) TypeWord.tree before ts (typeName ts) := by
  cases ts with
  | nil => exact .fail
  | cons t rest =>
      rw [typeName]
      split
      next hnames => exact .ok ⟨t, hnames⟩ rfl rfl rfl
      next => exact .fail

theorem typeName_gives (d : TypeWord) (rest : List Token) :
    Gives (typeName (d.token :: rest)) d.tree d.token.span rest := by
  rw [typeName, if_pos d.names]
  exact .ok

theorem typedNames_reads (before : Span) (ts : List Token) :
    Reads TypedNames.tokens TypedNames.tree before ts (typedNames ts) := by
  rw [typedNames]
  apply (token_reads .identifier before ts).bind
  intro first left _ hts
  apply (moreNames_parses.reads first.token.span left).bind
  intro more left' _ hleft
  apply (typeName_reads more.closing.token.span left').bind
  intro type left'' _ hleft'
  refine .ok ⟨⟨first, more.phrase⟩, more.closing, type⟩ ?_ ?_ ?_
  · simp [TypedNames.tokens, Separated.tokens, Closed.tokens, hts, hleft, hleft']
  · simp [TypedNames.tree, Separated.items]
  · simp [TypedNames.tokens]

theorem typedNames_gives (d : TypedNames) (before : Span) (rest : List Token) :
    Gives (typedNames (d.tokens ++ rest)) d.tree (endOf before d.tokens) rest := by
  obtain ⟨⟨first, more⟩, colon, type⟩ := d
  have htokens : (⟨⟨first, more⟩, colon, type⟩ : TypedNames).tokens ++ rest =
      first.token :: (Closed.tokens (tokensAfter fun name => [name.token]) ⟨more, colon⟩ ++
        type.token :: rest) := by
    simp [TypedNames.tokens, Separated.tokens, Closed.tokens]
  rw [htokens, typedNames]
  apply (token_gives first _).bind
  intro _
  apply (moreNames_parses.gives ⟨more, colon⟩ first.token.span _ headIs_true).bind
  intro _
  apply (typeName_gives type rest).bind
  intro _
  refine .of_eq ?_ ?_ rfl
  · simp [TypedNames.tree, Separated.items]
  · simp [TypedNames.tokens]

theorem typedNames_parses :
    Parses typedNames TypedNames.tokens TypedNames.tree fun _ => True where
  reads := typedNames_reads
  gives d before rest _ := typedNames_gives d before rest

/-! ## Parsing sections of variables -/

theorem moreGroups_reads (last : Span) (ts : List Token) :
    Reads (fun groups : List Group => groups.flatMap Group.tokens)
      (fun groups => groups.flatMap fun group => group.phrase.tree) last ts
      (moreGroups ts last) := by
  rw [moreGroups.eq_def]
  cases ts with
  | nil => exact .ok [] rfl rfl rfl
  | cons t rest =>
      simp only
      split
      next =>
        apply (typedNames_reads last (t :: rest)).bind
        intro names left hnames hts
        apply (token_reads (.mark .semicolon) (endOf last names.tokens) left).bind
        intro close left' hclose hleft
        have : left'.length < rest.length + 1 := Nat.lt_trans hclose hnames
        apply (moreGroups_reads close.token.span left').bind
        intro more left'' _ hleft'
        exact .ok (⟨names, close⟩ :: more)
          (by simp [Group.tokens, Closed.tokens, hts, hleft, hleft']) rfl
          (by simp [Group.tokens, Closed.tokens])
      next => exact .ok [] rfl rfl rfl
termination_by ts.length

theorem moreGroups_gives (groups : List Group) (last : Span) (rest : List Token)
    (hrest : HeadIs (· ≠ .identifier) rest) :
    Gives (moreGroups (groups.flatMap Group.tokens ++ rest) last)
      (groups.flatMap fun group => group.phrase.tree) (endOf last (groups.flatMap Group.tokens))
      rest := by
  induction groups generalizing last with
  | nil =>
      rw [List.flatMap_nil, List.nil_append, moreGroups.eq_def]
      cases rest with
      | nil => exact .ok
      | cons t rest =>
          simp only [headIs_cons.mp hrest, if_false]
          exact .ok
  | cons group more ih =>
      have hnames := typedNames_gives group.phrase last
        (group.closing.token :: (more.flatMap Group.tokens ++ rest))
      obtain ⟨t, ts, htokens⟩ := group.phrase.opening
      rw [List.flatMap_cons, List.append_assoc, Closed.tokens_append, endOf_append,
        Closed.endOf_tokens]
      rw [htokens, List.cons_append] at hnames ⊢
      rw [moreGroups.eq_def]
      simp only [t.kind_eq, if_true]
      apply hnames.bind
      intro _
      apply (token_gives group.closing _).bind
      intro _
      exact (ih group.closing.token.span).bind fun _ => .ok

theorem variableSection_reads (before : Span) (ts : List Token) :
    Reads Groups.tokens Groups.tree before ts (variableSection ts) := by
  cases ts with
  | nil => exact .fail
  | cons t rest =>
      rw [variableSection]
      split
      next =>
        apply (typedNames_reads before (t :: rest)).bind
        intro names left _ hts
        apply (token_reads (.mark .semicolon) (endOf before names.tokens) left).bind
        intro close left' _ hleft
        apply (moreGroups_reads close.token.span left').bind
        intro more left'' _ hleft'
        exact .ok ⟨⟨names, close⟩, more⟩
          (by simp [Groups.tokens, Group.tokens, Closed.tokens, hts, hleft, hleft']) rfl
          (by simp [Groups.tokens, Group.tokens, Closed.tokens])
      next => exact .fail

theorem variableSection_gives (d : Groups) (before : Span) (rest : List Token)
    (hrest : HeadIs (· ≠ .identifier) rest) :
    Gives (variableSection (d.tokens ++ rest)) d.tree (endOf before d.tokens) rest := by
  have hnames := typedNames_gives d.first.phrase before
    (d.first.closing.token :: (d.more.flatMap Group.tokens ++ rest))
  obtain ⟨t, ts, htokens⟩ := d.first.phrase.opening
  rw [Groups.tokens, List.flatMap_cons, List.append_assoc, Closed.tokens_append, endOf_append,
    Closed.endOf_tokens]
  rw [htokens, List.cons_append] at hnames ⊢
  rw [variableSection]
  simp only [t.kind_eq, if_true]
  apply hnames.bind
  intro _
  apply (token_gives d.first.closing _).bind
  intro _
  exact (moreGroups_gives d.more d.first.closing.token.span rest hrest).bind fun _ => .ok

/-! ## Parsing parameters -/

theorem moreParams_eq (ts : List Token) :
    moreParams ts =
      closedItems (.mark .semicolon) (.mark .rightParen) typedNames id moreParams ts := by
  rw [moreParams.eq_def]
  cases ts <;> rfl

theorem moreParams_parses :
    Parses moreParams
      (fun d : Closed (List (Terminal (.mark .semicolon) × TypedNames)) (.mark .rightParen) =>
        d.tokens (tokensAfter TypedNames.tokens))
      (fun d => d.phrase.flatMap fun group => group.2.tree) fun _ => True := by
  have hne : TokenKind.mark .rightParen ≠ .mark .semicolon := by simp
  exact closedItems_parses moreParams_eq typedNames_parses trivial trivial hne

theorem header_reads (before : Span) (ts : List Token) :
    Reads Header.tokens Header.tree before ts (header ts) := by
  cases ts with
  | nil => exact .fail
  | cons t rest =>
      rw [header]
      split
      next hopening =>
        apply (typedNames_reads t.span rest).bind
        intro first left _ hrest
        apply (moreParams_parses.reads (endOf t.span first.tokens) left).bind
        intro more left' _ hleft
        apply (token_reads (.mark .semicolon) more.closing.token.span left').bind
        intro close left'' _ hleft'
        refine .ok ⟨some ⟨⟨t, hopening⟩, ⟨first, more.phrase⟩, more.closing⟩, close⟩ ?_ ?_ ?_
        · simp [Closed.tokens, Params.tokens, Separated.tokens, hrest, hleft, hleft']
        · simp [Header.tree, Params.tree, Separated.items, List.flatMap_map]
        · simp
      next =>
        split
        next hclose => exact .ok ⟨none, ⟨t, hclose⟩⟩ rfl rfl rfl
        next => exact .fail

theorem header_gives (d : Header) (before : Span) (rest : List Token) :
    Gives (header (d.tokens ++ rest)) d.tree (endOf before d.tokens) rest := by
  obtain ⟨params, close⟩ := d
  cases params with
  | none =>
      rw [Closed.tokens_append, Option.elim, List.nil_append, header]
      simp only [close.kind_eq, if_true]
      exact .ok
  | some params =>
      obtain ⟨opening, ⟨first, more⟩, closing⟩ := params
      have htokens : (⟨opening, ⟨first, more⟩, closing⟩ : Params).tokens ++ close.token :: rest =
          opening.token :: (first.tokens ++ (Closed.tokens (tokensAfter TypedNames.tokens)
            ⟨more, closing⟩ ++ close.token :: rest)) := by
        simp [Params.tokens, Separated.tokens, Closed.tokens]
      rw [Closed.tokens_append, Closed.endOf_tokens, Option.elim, htokens, header]
      simp only [opening.kind_eq, if_true]
      apply (typedNames_gives first opening.token.span _).bind
      intro _
      apply (moreParams_parses.gives ⟨more, closing⟩ opening.token.span _ headIs_true).bind
      intro _
      apply (token_gives close rest).bind
      intro _
      refine .of_eq ?_ rfl rfl
      simp [Header.tree, Params.tree, Separated.items, List.flatMap_map]

end Parse

end NestedPascal
