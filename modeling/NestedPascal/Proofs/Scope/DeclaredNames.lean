import NestedPascal.Proofs.Grammar.Language
import NestedPascal.Proofs.Run.Evaluation
import NestedPascal.Proofs.Token.Decomposition
import NestedPascal.Scope.Analysis

/-!
# How many names a program declares

A table holds the builtin types and what is declared in its scope, and scopes nest no deeper than
there are procedures.  So the numbers that analysis tells are at most two more than the names that the
program declares, and these are fewer than the characters of its source.
-/

namespace NestedPascal

mutual

/-- How many names are declared in a block, at any depth. -/
def Block.nameCount : Block → Nat
  | .mk _ declarations _ _ => nameCountAmong declarations

def nameCountAmong : List Declaration → Nat
  | [] => 0
  | .variable _ :: rest => 1 + nameCountAmong rest
  | .procedure _ _ params block :: rest =>
    1 + params.length + block.nameCount + nameCountAmong rest

end

/-! ## Numbers that analysis tells -/

namespace Register

variable {κ α : Type} [DecidableEq κ]

theorem length_replace_le (key : κ) (value : α) (entries : List (κ × α)) :
    (replace key value entries).length ≤ entries.length + 1 := by
  have hkeys := congrArg List.length (keys_replace key value entries)
  rw [List.length_map] at hkeys
  split at hkeys
  next => simp at hkeys; omega
  next => simp at hkeys; omega

end Register

def Declaration.isProcedure : Declaration → Bool
  | .variable _ => false
  | .procedure .. => true

def Declaration.isVariable (d : Declaration) : Bool :=
  !d.isProcedure

namespace ScopeTable

variable {t t' : ScopeTable} {outer : ScopeChain}

def size (t : ScopeTable) : Nat :=
  t.symbols.length

theorem size_insert_le (t : ScopeTable) (s : ScopeSymbol) : (t.insert s).size ≤ t.size + 1 := by
  simp only [size, symbols, Register.values, List.length_map]
  exact Register.length_replace_le _ _ _

theorem size_new_le (name : String) (level : Nat) : (ScopeTable.new name level).size ≤ 2 := by
  have hinteger := size_insert_le (ScopeTable.mk name level .empty) (.builtinType .integer)
  have hreal := size_insert_le ((ScopeTable.mk name level .empty).insert (.builtinType .integer))
    (.builtinType .real)
  exact Nat.le_trans hreal (Nat.succ_le_succ hinteger)

/-- A table has grown by so many names at most. -/
structure GrownBy (n : Nat) (t t' : ScopeTable) : Prop where
  name : t'.name = t.name
  level : t'.level = t.level
  size : t'.size ≤ t.size + n

theorem GrownBy.refl (t : ScopeTable) : GrownBy 0 t t :=
  ⟨rfl, rfl, Nat.le_refl _⟩

theorem GrownBy.insert (t : ScopeTable) (s : ScopeSymbol) : GrownBy 1 t (t.insert s) :=
  ⟨rfl, rfl, size_insert_le t s⟩

theorem GrownBy.trans {m n : Nat} {t'' : ScopeTable} (h : GrownBy m t t') (h' : GrownBy n t' t'') :
    GrownBy (m + n) t t'' := by
  have hsize := h.size
  have hsize' := h'.size
  exact ⟨h'.name.trans h.name, h'.level.trans h.level, by omega⟩

theorem declareVariable_grownBy {v : TypedName} (h : t.declareVariable outer v = .ok t') :
    GrownBy 1 t t' := by
  obtain ⟨kind, -, hkind⟩ := bind_eq_ok_iff.mp h
  obtain ⟨-, -, hunique⟩ := bind_eq_ok_iff.mp hkind
  cases hunique
  exact .insert _ _

theorem declareHeaders_grownBy {path : DeclarationPath} {place : Nat} {ds : List Declaration}
    (h : t.declareHeaders outer path place ds = .ok t') :
    GrownBy (ds.countP Declaration.isProcedure) t t' := by
  induction ds generalizing t place with
  | nil =>
      cases h
      exact .refl _
  | cons d rest ih =>
      cases d with
      | «variable» v => exact ih h
      | procedure span name params block =>
          obtain ⟨between, hfirst, hrest⟩ := bind_eq_ok_iff.mp h
          obtain ⟨-, -, hunique⟩ := bind_eq_ok_iff.mp hfirst
          obtain ⟨symbols, -, hinsert⟩ := bind_eq_ok_iff.mp hunique
          cases hinsert
          have hboth := (GrownBy.insert t _).trans (ih hrest)
          rw [List.countP_cons_of_pos (by rfl), Nat.add_comm]
          exact hboth

theorem declareParams_grownBy {params : List TypedName} {symbols : List VariableSymbol}
    (h : t.declareParams params symbols = .ok t') : GrownBy params.length t t' := by
  induction params generalizing t symbols with
  | nil =>
      cases h
      exact .refl _
  | cons p rest ih =>
      cases symbols with
      | nil =>
          cases h
          exact ⟨rfl, rfl, Nat.le_add_right _ _⟩
      | cons symbol symbols =>
          obtain ⟨-, -, hrest⟩ := bind_eq_ok_iff.mp h
          have hboth := (GrownBy.insert t (.variable symbol)).trans (ih hrest)
          rwa [Nat.add_comm] at hboth

end ScopeTable

/-- The event tells of a scope, with numbers within a bound. -/
def Event.TellsOfScope (bound : Nat) (e : Event) : Prop :=
  match e.kind with
  | .scopeEnter _ level => level ≤ bound
  | .scopeLeave _ level symbols => level ≤ bound ∧ symbols ≤ bound
  | _ => False

theorem scopeEvents_tellOfScope {α : Type} {span : Span} {entered : ScopeTable} {inner : Analysis α}
    {bound : Nat} (hlevel : entered.level ≤ bound) (hsize : inner.table.size ≤ bound)
    (hinner : ∀ e ∈ inner.events, e.TellsOfScope bound) :
    ∀ e ∈ scopeEvents span entered inner, e.TellsOfScope bound := by
  intro e he
  rw [scopeEvents, List.cons_append, List.mem_cons, List.mem_append] at he
  rcases he with rfl | he | he
  · exact hlevel
  · exact hinner e he
  · cases herror : inner.error with
    | some error => simp [herror] at he
    | none =>
        rw [herror, List.mem_singleton] at he
        subst e
        exact ⟨hlevel, hsize⟩

/-- What is told while a table grows by so many names at most is within a bound. -/
structure Analysis.Within {α : Type} (bound n : Nat) (t : ScopeTable) (a : Analysis α) : Prop where
  table : t.GrownBy n a.table
  events : ∀ e ∈ a.events, e.TellsOfScope bound

theorem countP_isProcedure_add (ds : List Declaration) :
    ds.countP Declaration.isProcedure + ds.countP Declaration.isVariable ≤ nameCountAmong ds := by
  induction ds with
  | nil => simp [nameCountAmong]
  | cons d rest ih =>
      cases d with
      | «variable» v =>
          rw [List.countP_cons_of_neg (by simp [Declaration.isProcedure]),
            List.countP_cons_of_pos rfl, nameCountAmong]
          omega
      | procedure span name params block =>
          rw [List.countP_cons_of_pos rfl,
            List.countP_cons_of_neg (by simp [Declaration.isVariable, Declaration.isProcedure]),
            nameCountAmong]
          omega

theorem procedureScope_tellsOfScope {enclosing : ScopeTable} {span : Span} {name : String}
    {params : List TypedName} {block : Block} {analyzeBody : ScopeTable → Analysis Block}
    {bound n : Nat} (hlevel : enclosing.level + 1 ≤ bound) (hsize : 2 + params.length + n ≤ bound)
    (hbody : ∀ t, t.level = enclosing.level + 1 → t.size ≤ 2 + params.length →
      (analyzeBody t).Within bound n t) :
    ∀ e ∈ (procedureScope enclosing span name params block analyzeBody).events, e.TellsOfScope bound := by
  have hnew := ScopeTable.size_new_le (canonicalName name) (enclosing.level + 1)
  rw [procedureScope]
  simp only
  split
  next e hparams =>
    apply scopeEvents_tellOfScope
    · exact hlevel
    · exact Nat.le_trans hnew (by omega)
    · simp
  next t hparams =>
    have hgrown := ScopeTable.declareParams_grownBy hparams
    have hsize' := hgrown.size
    have hanalyzed := hbody t hgrown.level (by omega)
    apply scopeEvents_tellOfScope
    · exact hlevel
    · have hafter := hanalyzed.table.size
      omega
    · exact hanalyzed.events

mutual

theorem Block.analyze_within (bound : Nat) (outer : ScopeChain) (own : ScopeTable)
    (path : DeclarationPath) :
    (block : Block) → own.level + block.nameCount ≤ bound → 2 + block.nameCount ≤ bound →
      (block.analyze outer own path).Within bound block.nameCount own
  | .mk span declarations bodySpan body, hlevel, hsize => by
    rw [Block.nameCount] at hlevel hsize ⊢
    have hcounts := countP_isProcedure_add declarations
    rw [Block.analyze]
    cases hresult : own.declareHeaders outer path 0 declarations with
    | error e =>
        refine ⟨⟨rfl, rfl, Nat.le_add_right _ _⟩, ?_⟩
        simp
    | ok own' =>
        have hheaders := ScopeTable.declareHeaders_grownBy hresult
        have hmembers := analyzeDeclarations_within bound outer own' path 0 declarations
          (hheaders.level ▸ hlevel) hsize
        have hboth := hheaders.trans hmembers.table
        have htable : own.GrownBy (nameCountAmong declarations)
            (analyzeDeclarations outer own' path 0 declarations).table :=
          ⟨hboth.name, hboth.level, Nat.le_trans hboth.size (by omega)⟩
        simp only
        cases (analyzeDeclarations outer own' path 0 declarations).error with
        | some e => exact ⟨htable, by simpa [Analysis.within] using hmembers.events⟩
        | none => exact ⟨htable, hmembers.events⟩

theorem analyzeDeclarations_within (bound : Nat) (outer : ScopeChain) (own : ScopeTable)
    (path : DeclarationPath) (place : Nat) :
    (declarations : List Declaration) → own.level + nameCountAmong declarations ≤ bound →
      2 + nameCountAmong declarations ≤ bound →
      (analyzeDeclarations outer own path place declarations).Within bound
        (declarations.countP Declaration.isVariable) own
  | [], _, _ => ⟨.refl own, by simp [analyzeDeclarations]⟩
  | .variable v :: rest, hlevel, hsize => by
    rw [nameCountAmong] at hlevel hsize
    rw [analyzeDeclarations, List.countP_cons_of_pos rfl]
    cases hresult : own.declareVariable outer v with
    | error e =>
        refine ⟨⟨rfl, rfl, Nat.le_add_right _ _⟩, ?_⟩
        simp
    | ok own' =>
        have hfirst := ScopeTable.declareVariable_grownBy hresult
        have hlevel' := hfirst.level
        have hmore := analyzeDeclarations_within bound outer own' path (place + 1) rest
          (by omega) (by omega)
        have htable := hfirst.trans hmore.table
        rw [Nat.add_comm] at htable
        exact ⟨htable, by simpa [Analysis.within] using hmore.events⟩
  | .procedure span name params block :: rest, hlevel, hsize => by
    rw [nameCountAmong] at hlevel hsize
    have hmore := analyzeDeclarations_within bound outer own path (place + 1) rest
      (by omega) (by omega)
    have hevents : ∀ e ∈ (procedureScope own span name params block fun table =>
        block.analyze (own :: outer) table (path ++ [place])).events, e.TellsOfScope bound :=
      procedureScope_tellsOfScope (by omega) (by omega) fun t ht _ =>
        Block.analyze_within bound (own :: outer) t (path ++ [place]) block (by omega) (by omega)
    rw [analyzeDeclarations,
      List.countP_cons_of_neg (by simp [Declaration.isVariable, Declaration.isProcedure])]
    split
    next e herror => exact ⟨⟨rfl, rfl, Nat.le_add_right _ _⟩, hevents⟩
    next herror =>
      refine ⟨hmore.table, ?_⟩
      intro e he
      exact (List.mem_append.mp he).elim (hevents e) (hmore.events e)

end

theorem Program.analyze_tellsOfScope (p : Program) :
    ∀ e ∈ p.analyze.events, e.TellsOfScope (2 + p.block.nameCount) := by
  have hblock := Block.analyze_within (2 + p.block.nameCount) []
    (ScopeTable.new "global" 1) [] p.block
    (Nat.add_le_add_right (by decide : 1 ≤ 2) p.block.nameCount) (Nat.le_refl _)
  have hnew := ScopeTable.size_new_le "global" 1
  apply scopeEvents_tellOfScope
  · exact Nat.le_trans (by decide : 1 ≤ 2) (Nat.le_add_right 2 p.block.nameCount)
  · have hsize := hblock.table.size
    omega
  · exact hblock.events

/-! ## Names and tokens -/

namespace Grammar

theorem length_items_le {separator : TokenKind} (names : Separated (Terminal .identifier) separator) :
    names.items.length = 1 + names.more.length ∧
      names.items.length ≤ (names.tokens fun name => [name.token]).length := by
  obtain ⟨first, more⟩ := names
  have hmore : (tokensAfter (fun name : Terminal .identifier => [name.token]) more).length =
      2 * more.length := by
    induction more with
    | nil => rfl
    | cons item rest ih =>
        rw [tokensAfter_cons]
        simp only [List.length_cons, List.length_append, List.length_nil, ih]
        omega
  simp only [Separated.items, Separated.tokens, List.length_cons, List.length_map,
    List.length_append, List.length_nil, hmore]
  omega

theorem TypedNames.length_tree_lt (d : TypedNames) : d.tree.length < d.tokens.length := by
  have hnames := (length_items_le d.names).2
  rw [tree, tokens, List.length_map, List.length_append]
  exact Nat.lt_of_le_of_lt hnames (Nat.lt_add_of_pos_right (by simp))

theorem length_flatMap_le {δ α : Type} {trees : δ → List α} {tokens : δ → List Token}
    (h : ∀ d, (trees d).length ≤ (tokens d).length) (ds : List δ) :
    (ds.flatMap trees).length ≤ (ds.flatMap tokens).length := by
  induction ds with
  | nil => simp
  | cons d rest ih =>
      simp only [List.flatMap_cons, List.length_append]
      exact Nat.add_le_add (h d) ih

theorem Groups.length_tree_le (d : Groups) : d.tree.length ≤ d.tokens.length := by
  apply length_flatMap_le
  intro group
  have hnames := group.phrase.length_tree_lt
  simp only [Group.tokens, Closed.tokens, List.length_append]
  omega

theorem Params.length_tree_lt (d : Params) : d.tree.length < d.tokens.length := by
  have hitem (item : TypedNames) := Nat.le_of_lt item.length_tree_lt
  have hmore : ((d.groups.more.map Prod.snd).flatMap TypedNames.tree).length ≤
      (tokensAfter TypedNames.tokens d.groups.more).length := by
    rw [tokensAfter, List.flatMap_map]
    apply length_flatMap_le
    intro item
    exact Nat.le_succ_of_le (hitem item.2)
  have hfirst := hitem d.groups.first
  simp only [tree, tokens, Separated.items, Separated.tokens, List.flatMap_cons, List.length_append,
    List.length_cons]
  omega

theorem Header.length_tree_lt (d : Header) : d.tree.length < d.tokens.length := by
  obtain ⟨phrase, closing⟩ := d
  cases phrase with
  | none => simp [tree, tokens, Closed.tokens]
  | some params =>
      have hparams := params.length_tree_lt
      simp only [tree, tokens, Closed.tokens, Option.elim_some, List.length_append]
      omega

theorem nameCountAmong_append (ds ds' : List Declaration) :
    nameCountAmong (ds ++ ds') = nameCountAmong ds + nameCountAmong ds' := by
  induction ds with
  | nil => simp [nameCountAmong]
  | cons d rest ih =>
      cases d with
      | «variable» v =>
          rw [List.cons_append, nameCountAmong, nameCountAmong, ih]
          omega
      | procedure span name params block =>
          rw [List.cons_append, nameCountAmong, nameCountAmong, ih]
          omega

theorem nameCountAmong_variables (vs : List TypedName) :
    nameCountAmong (vs.map .variable) = vs.length := by
  induction vs with
  | nil => rfl
  | cons v rest ih => rw [List.map_cons, nameCountAmong, ih, List.length_cons, Nat.add_comm]

mutual

theorem Block.nameCount_tree_le : (d : Block) → d.tree.nameCount ≤ d.tokens.length
  | .mk declarations body => by
    have hdeclarations := Declarations.nameCount_trees_le declarations
    rw [Block.tree, NestedPascal.Block.nameCount, Block.tokens, List.length_append]
    omega

theorem Declarations.nameCount_trees_le :
    (d : Declarations) → nameCountAmong d.trees ≤ d.tokens.length
  | .none => Nat.le_refl 0
  | .variables word groups more => by
    have hgroups := groups.length_tree_le
    have hmore := Declarations.nameCount_trees_le more
    rw [Declarations.trees, Declarations.tokens, nameCountAmong_append, nameCountAmong_variables,
      List.length_cons, List.length_append]
    omega
  | .procedure (.mk word name header block closing) more => by
    have hheader := header.length_tree_lt
    have hblock := Block.nameCount_tree_le block
    have hmore := Declarations.nameCount_trees_le more
    simp only [Declarations.trees, Procedure.tree, Declarations.tokens, Procedure.tokens,
      nameCountAmong, List.length_cons, List.length_append]
    omega

end

end Grammar

theorem length_le_of_decomposes {source : List Char} {pieces : List (SegmentKind × List Char)}
    (h : Decomposes source pieces) : pieces.length ≤ source.length := by
  induction pieces generalizing source with
  | nil => exact Nat.zero_le _
  | cons piece pieces ih =>
      obtain ⟨rest, rfl, htakes, hrest⟩ := h
      have hpiece := List.length_pos_iff.mpr htakes.ne_nil
      have hmore := ih hrest
      rw [List.length_cons, List.length_append]
      omega

theorem length_tokensOf_le (source : List Char) : (tokensOf source).length ≤ source.length := by
  have hpieces := length_le_of_decomposes (Segment.decomposes_cut .start source)
  rw [List.length_map] at hpieces
  exact Nat.le_trans (List.length_filterMap_le _ _) hpieces

/-- A source is longer than there are names in its program. -/
theorem Program.nameCount_lt {source : List Char} {file : String} {detailed : Bool} {p : Program}
    (hparse : Program.parse source file detailed = .ok p) :
    2 + p.block.nameCount ≤ source.length := by
  obtain ⟨hts, -⟩ := (parse_eq_ok_iff (lexes_of_parse hparse)).mp hparse
  obtain ⟨d, htokens, rfl⟩ := ofTokens_eq_ok_iff.mp hts
  have hnames := Grammar.Block.nameCount_tree_le d.block
  have hsource := length_tokensOf_le source
  rw [← htokens, Grammar.Program.tokens] at hsource
  simp only [List.length_cons, List.length_append] at hsource
  simp only [Grammar.Program.tree]
  omega

end NestedPascal
