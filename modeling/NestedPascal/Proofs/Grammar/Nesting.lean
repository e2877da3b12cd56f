import NestedPascal.Proofs.Grammar.Language
import NestedPascal.Proofs.Token.Places
import NestedPascal.Proofs.Tree.Nesting

/-!
# Nesting of parsed trees

The tokens of a source lie along it, one after another.  So do the trees of phrases that follow one
another, each between where its first token starts and where its last one stops, though it need not
cover the parentheses around it.  A node whose span covers all tokens of its phrase therefore holds
the nodes of the phrases inside it.
-/

namespace NestedPascal

/-! ## Tokens along a source -/

/-- Tokens come one after another between two places. -/
abbrev TokensAlong (lo : Nat ×ₗ Nat) (ts : List Token) (hi : Nat ×ₗ Nat) : Prop :=
  SpansAlong lo (ts.map Token.span) hi

namespace TokensAlong

variable {lo hi : Nat ×ₗ Nat} {t : Token} {ts us : List Token}

theorem append_iff : TokensAlong lo (ts ++ us) hi ↔
    ∃ mid, TokensAlong lo ts mid ∧ TokensAlong mid us hi := by
  rw [TokensAlong, List.map_append, SpansAlong.append_iff]

theorem stop_endOf (h : TokensAlong lo (t :: ts) hi) :
    TokensAlong lo (t :: ts) (endOf t.span ts).stop ∧ (endOf t.span ts).stop ≤ hi := by
  induction ts generalizing t lo with
  | nil => exact ⟨⟨h.1, h.2.1, le_refl _⟩, h.2.2⟩
  | cons u ts ih =>
      obtain ⟨hrest, hhi⟩ := ih h.2.2
      exact ⟨⟨h.1, h.2.1, hrest⟩, hhi⟩

/-- The span over tokens lies where they do, and they lie in it. -/
theorem spanOver (h : TokensAlong lo ts hi) (hne : ts ≠ []) :
    SpansAlong lo [spanOver ts] hi ∧
      TokensAlong (NestedPascal.spanOver ts).first ts (NestedPascal.spanOver ts).stop := by
  obtain ⟨t, ts, rfl⟩ := List.exists_cons_of_ne_nil hne
  obtain ⟨⟨hlo, hfirst, hrest⟩, hhi⟩ := stop_endOf h
  exact ⟨⟨hlo, hfirst.trans_le hrest.le, hhi⟩, le_refl _, hfirst, hrest⟩

end TokensAlong

section

variable {units : List Nat}

theorem Segment.tokens_along_of_cut {place : Position} {cs : List Char}
    (hunits : units.drop place.offset = codeUnits cs) (hplace : place.Agrees units) :
    TokensAlong (placeOf units place.offset) ((cut place cs).filterMap token?)
      (placeOf units (place.offset + unitLength cs)) := by
  fun_induction cut place cs with
  | case1 place => exact le_refl _
  | case2 place c rest text ih =>
      have hplaced : Placed units ⟨(first c rest).1, text, place⟩ := by
        apply placed_of_cut hunits hplace
        rw [cut]
        exact List.mem_cons_self
      rw [← List.take_append_drop (first c rest).2 (c :: rest)] at hunits
      have hafter := ih (drop_advance hunits) hplaced.agrees_advance
      have hlength : unitLength (c :: rest) =
          unitLength text + unitLength ((c :: rest).drop (first c rest).2) := by
        rw [← unitLength_append, List.take_append_drop]
      rw [offset_advance, Nat.add_assoc, ← hlength] at hafter
      cases htoken : token? ⟨(first c rest).1, text, place⟩ with
      | none =>
          rw [List.filterMap_cons_none htoken]
          exact hafter.of_le hplaced.place_lt.le
      | some t =>
          obtain ⟨hfirst, hstop⟩ := hplaced.token_places htoken
          rw [List.filterMap_cons_some htoken]
          refine ⟨hfirst.ge, ?_, ?_⟩
          · rw [Span.Nonempty, hfirst, hstop]
            exact hplaced.place_lt
          · rw [hstop]
            exact hafter

end

/-! ## Phrases along a source -/

namespace Grammar

/-- Wherever the tokens of a phrase lie, within bounds, its nodes do, and they have a property. -/
def Lays {δ : Type} (a b : Nat ×ₗ Nat) (tokens : δ → List Token) (P : δ → Prop)
    (spans : δ → List Span) : Prop :=
  ∀ d lo hi, a ≤ lo → hi ≤ b → TokensAlong lo (tokens d) hi → P d ∧ SpansAlong lo (spans d) hi

section

variable {δ : Type} {a b : Nat ×ₗ Nat} {tokens : δ → List Token} {P : δ → Prop}
  {spans : δ → List Span}

theorem Lays.flatMap (h : Lays a b tokens P spans) :
    Lays a b (fun items : List δ => items.flatMap tokens) (fun items => ∀ d ∈ items, P d)
      fun items => items.flatMap spans := by
  intro items lo hi hlo hhi halong
  induction items generalizing lo with
  | nil => exact ⟨fun _ hd => absurd hd List.not_mem_nil, halong⟩
  | cons d items ih =>
      obtain ⟨mid, hd, hitems⟩ := TokensAlong.append_iff.mp halong
      obtain ⟨hP, hspans⟩ := h d lo mid hlo (hitems.le.trans hhi) hd
      obtain ⟨hPs, hmore⟩ := ih mid (hlo.trans hd.le) hitems
      exact ⟨List.forall_mem_cons.mpr ⟨hP, hPs⟩, hspans.append hmore⟩

theorem Lays.closed {close : TokenKind} (h : Lays a b tokens P spans) :
    Lays a b (fun d : Closed δ close => d.tokens tokens) (fun d => P d.phrase)
      fun d => spans d.phrase := by
  intro d lo hi hlo hhi halong
  obtain ⟨mid, hphrase, hclosing⟩ := TokensAlong.append_iff.mp halong
  exact h d.phrase lo hi hlo hhi (hphrase.trans_le hclosing.le)

/-- A phrase after a token. -/
theorem Lays.after {kind : TokenKind} (h : Lays a b tokens P spans) :
    Lays a b (fun d : Terminal kind × δ => d.1.token :: tokens d.2) (fun d => P d.2)
      fun d => spans d.2 :=
  fun d lo hi hlo hhi halong => h d.2 lo hi hlo hhi halong.tail

theorem Lays.separated {separator : TokenKind} (h : Lays a b tokens P spans) :
    Lays a b (fun d : Separated δ separator => d.tokens tokens) (fun d => ∀ item ∈ d.items, P item)
      fun d => d.items.flatMap spans := by
  intro d lo hi hlo hhi halong
  obtain ⟨mid, hfirst, hmore⟩ := TokensAlong.append_iff.mp halong
  obtain ⟨hP, hspans⟩ := h d.first lo mid hlo (hmore.le.trans hhi) hfirst
  obtain ⟨hPs, hafter⟩ := h.after.flatMap d.more mid hi (hlo.trans hfirst.le) hhi hmore
  refine ⟨?_, ?_⟩
  · simpa [Separated.items] using ⟨hP, fun item t hmem => hPs (t, item) hmem⟩
  · change SpansAlong lo ((d.first :: d.more.map Prod.snd).flatMap spans) hi
    rw [List.flatMap_cons, List.flatMap_map]
    exact hspans.append hafter

/-- Items that are one node each. -/
theorem Lays.separated_map {separator : TokenKind} {span : δ → Span}
    (h : Lays a b tokens P fun d => [span d]) :
    Lays a b (fun d : Separated δ separator => d.tokens tokens) (fun d => ∀ item ∈ d.items, P item)
      fun d => d.items.map span := by
  simpa only [List.map_eq_flatMap] using h.separated

end

/-! ## Expressions -/

theorem joined_along {lo mid hi : Nat ×ₗ Nat} (op : BinaryOperator) {left right : Expr}
    (hleft : left.Nested) (hbefore : SpansAlong lo [left.span] mid) (hright : right.Nested)
    (hafter : SpansAlong mid [right.span] hi) :
    (Parse.joined op left right).Nested ∧ SpansAlong lo [(Parse.joined op left right).span] hi := by
  obtain ⟨hlo, hleftSpan, hmid⟩ := hbefore
  obtain ⟨hmid', hrightSpan, hhi⟩ := hafter
  have horder : left.span.stop ≤ right.span.first := le_trans hmid hmid'
  have hspan : (left.span.to right.span).Nonempty := (hleftSpan.trans_le horder).trans hrightSpan
  have hholds : SpansAlong (left.span.to right.span).first [left.span, right.span]
      (left.span.to right.span).stop := ⟨le_refl _, hleftSpan, horder, hrightSpan, le_refl _⟩
  exact ⟨.binary hspan rfl rfl hholds.holds hleft hright, hlo, hspan, hhi⟩

mutual

theorem Factor.tree_along : (d : Factor) → ∀ {lo hi : Nat ×ₗ Nat}, TokensAlong lo d.tokens hi →
    d.tree.Nested ∧ SpansAlong lo [d.tree.span] hi
  | .signed sign operand, _, _, h => by
    obtain ⟨hspan, hinside⟩ := h.spanOver (by simp [Factor.tokens])
    obtain ⟨hnested, hoperand⟩ := operand.tree_along hinside.tail
    exact ⟨.unary hspan.2.1 hoperand.holds hnested, hspan⟩
  | .integer numeral, _, _, h => ⟨.literal h.2.1, h⟩
  | .real numeral, _, _, h => ⟨.literal h.2.1, h⟩
  | .name name, _, _, h => ⟨.variable h.2.1, h⟩
  | .parenthesized opening inner closing, _, _, h => by
    obtain ⟨mid, hinner, hclosing⟩ := TokensAlong.append_iff.mp h.tail
    exact inner.tree_along (hinner.trans_le hclosing.le)

theorem Product.tree_along : (d : Product) → ∀ {lo hi : Nat ×ₗ Nat}, TokensAlong lo d.tokens hi →
    d.tree.Nested ∧ SpansAlong lo [d.tree.span] hi
  | .mk first more, _, _, h => by
    obtain ⟨mid, hfirst, hmore⟩ := TokensAlong.append_iff.mp h
    obtain ⟨hnested, hspan⟩ := first.tree_along hfirst
    exact more.treeFrom_along hnested hspan hmore

theorem Factors.treeFrom_along {left : Expr} : (d : Factors) → ∀ {lo mid hi : Nat ×ₗ Nat},
    left.Nested → SpansAlong lo [left.span] mid → TokensAlong mid d.tokens hi →
    (d.treeFrom left).Nested ∧ SpansAlong lo [(d.treeFrom left).span] hi
  | .none, _, _, _, hleft, hspan, h => ⟨hleft, hspan.trans_le h⟩
  | .next op factor more, _, _, _, hleft, hspan, h => by
    obtain ⟨mid, hfactor, hmore⟩ := TokensAlong.append_iff.mp h.tail
    obtain ⟨hright, hafter⟩ := factor.tree_along hfactor
    obtain ⟨hjoined, hspan'⟩ := joined_along op.meaning hleft hspan hright hafter
    exact more.treeFrom_along hjoined hspan' hmore

theorem Sum.tree_along : (d : Sum) → ∀ {lo hi : Nat ×ₗ Nat}, TokensAlong lo d.tokens hi →
    d.tree.Nested ∧ SpansAlong lo [d.tree.span] hi
  | .mk first more, _, _, h => by
    obtain ⟨mid, hfirst, hmore⟩ := TokensAlong.append_iff.mp h
    obtain ⟨hnested, hspan⟩ := first.tree_along hfirst
    exact more.treeFrom_along hnested hspan hmore

theorem Products.treeFrom_along {left : Expr} : (d : Products) → ∀ {lo mid hi : Nat ×ₗ Nat},
    left.Nested → SpansAlong lo [left.span] mid → TokensAlong mid d.tokens hi →
    (d.treeFrom left).Nested ∧ SpansAlong lo [(d.treeFrom left).span] hi
  | .none, _, _, _, hleft, hspan, h => ⟨hleft, hspan.trans_le h⟩
  | .next op product more, _, _, _, hleft, hspan, h => by
    obtain ⟨mid, hproduct, hmore⟩ := TokensAlong.append_iff.mp h.tail
    obtain ⟨hright, hafter⟩ := product.tree_along hproduct
    obtain ⟨hjoined, hspan'⟩ := joined_along op.meaning hleft hspan hright hafter
    exact more.treeFrom_along hjoined hspan' hmore

end

theorem sum_lays (a b : Nat ×ₗ Nat) :
    Lays a b Sum.tokens (fun d => d.tree.Nested) fun d => [d.tree.span] :=
  fun d _ _ _ _ h => d.tree_along h

/-! ## Statements -/

theorem Arguments.trees_along (d : Arguments) {lo hi : Nat ×ₗ Nat}
    (h : TokensAlong lo d.tokens hi) :
    (∀ arg ∈ d.trees, arg.Nested) ∧ SpansAlong lo (d.trees.map Expr.span) hi := by
  obtain ⟨phrase, closing⟩ := d
  obtain ⟨mid, hphrase, hclosing⟩ := TokensAlong.append_iff.mp h
  have hphrase := hphrase.trans_le hclosing.le
  cases phrase with
  | none => exact ⟨fun _ harg => absurd harg List.not_mem_nil, hphrase⟩
  | some args =>
      obtain ⟨hnested, hspans⟩ :=
        (sum_lays lo hi).separated_map args lo hi (le_refl _) (le_refl _) hphrase
      refine ⟨List.forall_mem_map.mpr hnested, ?_⟩
      change SpansAlong lo ((args.items.map Sum.tree).map Expr.span) hi
      rw [List.map_map]
      exact hspans

theorem AfterName.tree_along (name : Token) (d : AfterName) {lo hi : Nat ×ₗ Nat}
    (h : TokensAlong lo (name :: d.tokens) hi) :
    (d.tree name).Nested ∧ SpansAlong lo [(d.tree name).span] hi := by
  cases d with
  | none =>
      have hholds : SpansAlong name.span.first [] name.span.stop := h.2.1.le
      exact ⟨.call h.2.1 hholds.holds fun _ harg => absurd harg List.not_mem_nil, h⟩
  | assigned assign value =>
      obtain ⟨hspan, hinside⟩ := h.spanOver (by simp)
      obtain ⟨hnested, hvalue⟩ := value.tree_along hinside.2.2.tail
      exact ⟨.assignment hspan.2.1 (SpansAlong.holds ⟨hinside.1, hinside.2.1, hvalue⟩) hnested,
        hspan⟩
  | applied opening args =>
      obtain ⟨hspan, hinside⟩ := h.spanOver (by simp)
      obtain ⟨hnested, hargs⟩ := args.trees_along hinside.tail.tail
      exact ⟨.call hspan.2.1 hargs.holds hnested, hspan⟩

mutual

theorem Statement.tree_along : (d : Statement) → ∀ {lo hi : Nat ×ₗ Nat},
    TokensAlong lo d.tokens hi → d.tree.Nested ∧ SpansAlong lo [d.tree.span] hi
  | .compound body, _, _, h => by
    obtain ⟨hholds, hnested, hspan⟩ := body.tree_along h
    exact ⟨.compound hspan.2.1 hholds hnested, hspan⟩
  | .named name after, _, _, h => after.tree_along name.token h

theorem Compound.tree_along : (d : Compound) → ∀ {lo hi : Nat ×ₗ Nat},
    TokensAlong lo d.tokens hi → d.span.Holds (d.tree.map NestedPascal.Statement.span) ∧
      (∀ s ∈ d.tree, s.Nested) ∧ SpansAlong lo [d.span] hi
  | .mk opening statements closing, _, _, h => by
    obtain ⟨hspan, hinside⟩ := h.spanOver (by simp [Compound.tokens])
    obtain ⟨mid, hstatements, hclosing⟩ := TokensAlong.append_iff.mp hinside.tail
    obtain ⟨hnested, hspans⟩ := statements.trees_along (hstatements.trans_le hclosing.le)
    exact ⟨hspans.holds, hnested, hspan⟩

theorem Statements.trees_along : (d : Statements) → ∀ {lo hi : Nat ×ₗ Nat},
    TokensAlong lo d.tokens hi →
    (∀ s ∈ d.trees, s.Nested) ∧ SpansAlong lo (d.trees.map NestedPascal.Statement.span) hi
  | .empty more, _, _, h => more.trees_along h
  | .statement first more, _, _, h => by
    obtain ⟨mid, hfirst, hmore⟩ := TokensAlong.append_iff.mp h
    obtain ⟨hnested, hspan⟩ := first.tree_along hfirst
    obtain ⟨hrest, hspans⟩ := more.trees_along hmore
    exact ⟨List.forall_mem_cons.mpr ⟨hnested, hrest⟩, hspan.append hspans⟩

theorem MoreStatements.trees_along : (d : MoreStatements) → ∀ {lo hi : Nat ×ₗ Nat},
    TokensAlong lo d.tokens hi →
    (∀ s ∈ d.trees, s.Nested) ∧ SpansAlong lo (d.trees.map NestedPascal.Statement.span) hi
  | .none, _, _, h => ⟨fun _ hs => absurd hs List.not_mem_nil, h⟩
  | .next _ statements, _, _, h => statements.trees_along h.tail

end

/-! ## Declared names -/

section

variable {outer : Span} {a b : Nat ×ₗ Nat}

/-- Names stand before the type that they share. -/
theorem TypedNames.tree_lays (houter : outer.first ≤ a) (houter' : b ≤ outer.stop) :
    Lays a b tokens (fun d => ∀ v ∈ d.tree, v.NestedIn outer)
      fun d => d.tree.map TypedName.span := by
  intro d lo hi hlo hhi halong
  obtain ⟨mid, hnames, htype⟩ := TokensAlong.append_iff.mp halong
  obtain ⟨htypeFirst, htypeSpan, htypeStop⟩ := SpansAlong.singleton_iff.mp htype.tail
  have hname : Lays lo mid (fun name : Terminal .identifier => [name.token]) (fun _ => True)
      fun name => [name.token.span] := fun _ _ _ _ _ h => ⟨trivial, h⟩
  obtain ⟨-, hnodes⟩ := hname.separated_map d.names lo mid (le_refl _) (le_refl _) hnames
  have hspans : SpansAlong lo (d.tree.map TypedName.span) mid := by
    rw [tree, List.map_map]
    exact hnodes
  refine ⟨fun v hv => ?_, hspans.trans_le htype.le⟩
  obtain ⟨hfirst, hspan, hstop⟩ := hspans.member (List.mem_map_of_mem hv)
  obtain ⟨name, -, rfl⟩ := List.mem_map.mp hv
  have hwithin : outer.first ≤ d.type.token.span.first :=
    (houter.trans hlo).trans (hnames.le.trans htypeFirst)
  exact ⟨hspan, htypeSpan, hstop.trans htypeFirst, hwithin, htypeStop.trans (hhi.trans houter')⟩

theorem Groups.tree_lays (houter : outer.first ≤ a) (houter' : b ≤ outer.stop) :
    Lays a b tokens (fun d => ∀ v ∈ d.tree, v.NestedIn outer)
      fun d => d.tree.map TypedName.span := by
  intro d lo hi hlo hhi halong
  obtain ⟨hnested, hspans⟩ := (TypedNames.tree_lays houter houter').closed.flatMap
    (d.first :: d.more) lo hi hlo hhi halong
  constructor
  · intro v hv
    obtain ⟨group, hgroup, hv⟩ := List.mem_flatMap.mp hv
    exact hnested group hgroup v hv
  · change SpansAlong lo (((d.first :: d.more).flatMap fun group => group.phrase.tree).map
      TypedName.span) hi
    rw [List.map_flatMap]
    exact hspans

theorem Params.tree_lays (houter : outer.first ≤ a) (houter' : b ≤ outer.stop) :
    Lays a b tokens (fun d => ∀ v ∈ d.tree, v.NestedIn outer)
      fun d => d.tree.map TypedName.span := by
  intro d lo hi hlo hhi halong
  obtain ⟨mid, hgroups, hclosing⟩ := TokensAlong.append_iff.mp halong.tail
  obtain ⟨hnested, hspans⟩ := (TypedNames.tree_lays houter houter').separated d.groups lo hi hlo hhi
    (hgroups.trans_le hclosing.le)
  constructor
  · intro v hv
    obtain ⟨group, hgroup, hv⟩ := List.mem_flatMap.mp hv
    exact hnested group hgroup v hv
  · change SpansAlong lo ((d.groups.items.flatMap TypedNames.tree).map TypedName.span) hi
    rw [List.map_flatMap]
    exact hspans

theorem Header.tree_lays (houter : outer.first ≤ a) (houter' : b ≤ outer.stop) :
    Lays a b tokens (fun d => ∀ v ∈ d.tree, v.NestedIn outer)
      fun d => d.tree.map TypedName.span := by
  have hparams : Lays a b (fun params : Option Params => params.elim [] Params.tokens)
      (fun params => ∀ v ∈ params.elim [] Params.tree, v.NestedIn outer)
      fun params => (params.elim [] Params.tree).map TypedName.span := by
    intro params lo hi hlo hhi halong
    cases params with
    | none => exact ⟨fun _ hv => absurd hv List.not_mem_nil, halong⟩
    | some params => exact Params.tree_lays houter houter' params lo hi hlo hhi halong
  exact hparams.closed

end

/-! ## Blocks and programs -/

mutual

theorem Block.tree_along : (d : Block) → ∀ {lo hi : Nat ×ₗ Nat}, TokensAlong lo d.tokens hi →
    d.tree.Nested ∧ SpansAlong lo [d.tree.span] hi
  | .mk declarations body, _, _, h => by
    obtain ⟨t, ts, htokens, -⟩ := (Block.mk declarations body).opening
    obtain ⟨hspan, hinside⟩ := h.spanOver (by simp [htokens])
    obtain ⟨mid, hdeclarations, hbody⟩ := TokensAlong.append_iff.mp hinside
    obtain ⟨hnested, hspans⟩ :=
      declarations.trees_along (le_refl _) hbody.le hdeclarations
    obtain ⟨hholds, hstatements, hbodySpan⟩ := body.tree_along hbody
    exact ⟨.mk hspan.2.1 (hspans.append hbodySpan).holds hnested hholds hstatements, hspan⟩

theorem Declarations.trees_along : (d : Declarations) → ∀ {outer : Span} {lo hi : Nat ×ₗ Nat},
    outer.first ≤ lo → hi ≤ outer.stop → TokensAlong lo d.tokens hi →
    (∀ x ∈ d.trees, x.NestedIn outer) ∧ SpansAlong lo (d.trees.map Declaration.span) hi
  | .none, _, _, _, _, _, h => ⟨fun _ hx => absurd hx List.not_mem_nil, h⟩
  | .variables word groups more, outer, lo, hi, hlo, hhi, h => by
    obtain ⟨mid, hgroups, hmore⟩ := TokensAlong.append_iff.mp h.tail
    obtain ⟨hnames, hspans⟩ := Groups.tree_lays hlo (hmore.le.trans hhi) groups lo mid
      (le_refl _) (le_refl _) hgroups
    obtain ⟨hrest, hspans'⟩ := more.trees_along (hlo.trans hgroups.le) hhi hmore
    constructor
    · intro x hx
      rcases List.mem_append.mp hx with hx | hx
      · obtain ⟨v, hv, rfl⟩ := List.mem_map.mp hx
        exact .variable (hnames v hv)
      · exact hrest x hx
    · rw [Declarations.trees, List.map_append, List.map_map]
      exact hspans.append hspans'
  | .procedure first more, _, _, _, hlo, hhi, h => by
    obtain ⟨mid, hfirst, hmore⟩ := TokensAlong.append_iff.mp h
    obtain ⟨hnested, hspan⟩ := first.tree_along hfirst
    obtain ⟨hrest, hspans⟩ := more.trees_along (hlo.trans hfirst.le) hhi hmore
    exact ⟨List.forall_mem_cons.mpr ⟨hnested _, hrest⟩, hspan.append hspans⟩

theorem Procedure.tree_along : (d : Procedure) → ∀ {lo hi : Nat ×ₗ Nat},
    TokensAlong lo d.tokens hi →
    (∀ outer, d.tree.NestedIn outer) ∧ SpansAlong lo [d.tree.span] hi
  | .mk word name header block closing, _, _, h => by
    obtain ⟨hspan, hinside⟩ := h.spanOver (by simp [Procedure.tokens])
    obtain ⟨mid, hheader, hrest⟩ := TokensAlong.append_iff.mp hinside.tail.tail
    obtain ⟨mid', hblock, hclosing⟩ := TokensAlong.append_iff.mp hrest
    obtain ⟨hnames, hparams⟩ := Header.tree_lays (le_refl _) hrest.le header _ _
      (le_refl _) (le_refl _) hheader
    obtain ⟨hnested, hblockSpan⟩ := block.tree_along (hblock.trans_le hclosing.le)
    have hholds := (hparams.append hblockSpan).holds
    exact ⟨fun outer => .procedure hspan.2.1 hholds hnames hnested, hspan⟩

end

theorem Program.tree_nested (file : String) (d : Program) {lo hi : Nat ×ₗ Nat}
    (h : TokensAlong lo d.tokens hi) : (d.tree file).Nested := by
  obtain ⟨hspan, hinside⟩ := h.spanOver (by simp [Program.tokens])
  obtain ⟨mid, hblock, hdot⟩ := TokensAlong.append_iff.mp hinside.tail.tail.tail
  obtain ⟨hnested, hblockSpan⟩ := d.block.tree_along (hblock.trans_le hdot.le)
  exact ⟨hspan.2.1, hblockSpan.holds, hnested⟩

end Grammar

namespace Program

/-- The nodes of a program that is parsed are not empty, and each holds its children in the order of
the source. -/
theorem spans_nested {source : List Char} {file : String} {detailed : Bool} {p : Program}
    (hparse : parse source file detailed = .ok p) : p.Nested := by
  obtain ⟨htokens, -⟩ := (parse_eq_ok_iff (lexes_of_parse hparse)).mp hparse
  obtain ⟨d, hd, rfl⟩ := ofTokens_eq_ok_iff.mp htokens
  have halong := Segment.tokens_along_of_cut rfl (Position.agrees_start (codeUnits source))
  change TokensAlong _ (tokensOf source) _ at halong
  rw [← hd] at halong
  exact d.tree_nested file halong

/-- A product of a signed sum in parentheses and a name, then a call in a compound statement, after
variables that share a type and a procedure with parameters. -/
theorem spans_nested_over_lines :
    ∃ p, parse ("program p;\nvar a, b : integer;\nprocedure q(x : integer; y : real);\n" ++
        "begin end;\nbegin\n  a := -(a + 1) * b;\n  begin q(a, 2.5) end\nend.").toList "p.pas"
        false = .ok p ∧
      p.block.declarations.map Declaration.span = [⟨2, 5, 2, 6⟩, ⟨2, 8, 2, 9⟩, ⟨3, 1, 4, 11⟩] ∧
      p.block.body.map Statement.span = [⟨6, 3, 6, 20⟩, ⟨7, 3, 7, 22⟩] ∧ p.Nested := by
  have hspans : (parse ("program p;\nvar a, b : integer;\nprocedure q(x : integer; y : real);\n" ++
      "begin end;\nbegin\n  a := -(a + 1) * b;\n  begin q(a, 2.5) end\nend.").toList "p.pas"
      false).toOption.any (fun p =>
        p.block.declarations.map Declaration.span = [⟨2, 5, 2, 6⟩, ⟨2, 8, 2, 9⟩, ⟨3, 1, 4, 11⟩] &&
        p.block.body.map Statement.span = [⟨6, 3, 6, 20⟩, ⟨7, 3, 7, 22⟩]) = true := by
    decide +kernel
  obtain ⟨p, hp, htest⟩ := parse_of_any hspans
  simp only [Bool.and_eq_true, decide_eq_true_eq] at htest
  exact ⟨p, hp, htest.1, htest.2, spans_nested hp⟩

end Program

end NestedPascal
