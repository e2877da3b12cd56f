import NestedPascal.Proofs.Paired
import NestedPascal.Proofs.Scope.DeclaredNames
import NestedPascal.Proofs.Scope.TableContents
import NestedPascal.Proofs.Tree.Procedures

/-!
# The outline of a program

The scopes of a program, told from its tree alone: the paths that lead to them in the order of their
headings, the table that each of them should have, the forest that these tables should form and the
events that should bracket them.
-/

namespace NestedPascal

/-! ## Paths to scopes -/

/-- The paths to the scopes of a program, the program's own first. -/
def Program.scopePaths (p : Program) : List DeclarationPath :=
  [] :: p.block.procedurePaths

theorem Block.procedurePaths_eq (b : Block) :
    b.procedurePaths = procedurePathsFrom 0 b.declarations := by
  cases b
  rfl

theorem LexicalScope.mem_procedurePaths_iff {s : LexicalScope} {path : DeclarationPath} :
    path ∈ [] :: s.block.procedurePaths ↔ ∃ t, s.descendant? path = some t := by
  constructor
  · intro hpath
    induction path generalizing s with
    | nil => exact ⟨s, rfl⟩
    | cons place path ih =>
        rw [Block.procedurePaths_eq, List.mem_cons] at hpath
        obtain hnil | hmem := hpath
        · contradiction
        obtain ⟨i, span, name, params, block, inner, hget, hinner, heq⟩ :=
          exists_of_mem_procedurePathsFrom hmem
        rw [Nat.zero_add, List.cons.injEq] at heq
        obtain ⟨rfl, rfl⟩ := heq
        obtain ⟨t, ht⟩ :=
          ih (s := ⟨s.declaration ++ [place], params, block, s.offeredBelow place :: s.outer⟩) hinner
        exact ⟨t, Option.bind_eq_some_iff.mpr ⟨_, inner?_of_getElem? hget, ht⟩⟩
  · rintro ⟨t, ht⟩
    induction path generalizing s with
    | nil => exact List.mem_cons_self ..
    | cons place path ih =>
        obtain ⟨inner, hinner, ht⟩ := Option.bind_eq_some_iff.mp ht
        obtain ⟨span, name, hget, -, -⟩ := inner?_eq_some hinner
        have hmem : (0 + place) :: path ∈ procedurePathsFrom 0 s.block.declarations :=
          mem_procedurePathsFrom hget (ih ht)
        rw [Nat.zero_add] at hmem
        rw [Block.procedurePaths_eq]
        exact List.mem_cons_of_mem _ hmem

theorem Program.mem_scopePaths_iff {p : Program} {path : DeclarationPath} :
    path ∈ p.scopePaths ↔ ∃ s, p.scope? path = some s :=
  LexicalScope.mem_procedurePaths_iff (s := p.globalScope)

/-! ## Tables of scopes -/

/-- A table that holds symbols behind the builtin types. -/
def ScopeTable.holding (name : String) (level : Nat) (symbols : List ScopeSymbol) : ScopeTable :=
  ⟨name, level, ⟨builtinEntries ++ symbols.map fun s => (s.name, s)⟩⟩

theorem ScopeTable.Holds.eq_holding {t : ScopeTable} {symbols : List ScopeSymbol}
    (h : t.Holds symbols) : t = .holding t.name t.level symbols := by
  obtain ⟨name, level, ⟨entries⟩⟩ := t
  have hentries : entries = _ := h.entries
  rw [hentries, holding]

theorem ScopeTable.symbols_holding (name : String) (level : Nat) (symbols : List ScopeSymbol) :
    (ScopeTable.holding name level symbols).symbols =
      [.builtinType .integer, .builtinType .real] ++ symbols := by
  simp [holding, ScopeTable.symbols, Register.values, builtinEntries, Function.comp_def]

def LexicalScope.table (s : LexicalScope) (name : String) : ScopeTable :=
  .holding name s.level s.offered

theorem LexicalScope.symbols_table (s : LexicalScope) (name : String) :
    (s.table name).symbols = [.builtinType .integer, .builtinType .real] ++
      s.parameters.map .variable ++ s.procedures.map .procedure ++
        s.declaredVariables.map .variable := by
  rw [table, ScopeTable.symbols_holding, offered, hoisted, List.append_assoc, List.append_assoc,
    List.append_assoc]

/-- How many symbols the table of a block with the given parameters holds. -/
def Block.symbolCount (params : List TypedName) (b : Block) : Nat :=
  2 + params.length + b.declarations.countP Declaration.isProcedure +
    b.declarations.countP Declaration.isVariable

theorem length_procedureSymbols (path : DeclarationPath) (place : Nat)
    (declarations : List Declaration) :
    (procedureSymbols path place declarations).length =
      declarations.countP Declaration.isProcedure := by
  induction declarations generalizing place with
  | nil => rfl
  | cons d rest ih =>
      rw [List.countP_cons]
      cases d <;>
        simp [procedureSymbols, ih, Declaration.isProcedure]

theorem length_variableSymbols (level : Nat) (declarations : List Declaration) :
    (variableSymbols level declarations).length =
      declarations.countP Declaration.isVariable := by
  induction declarations with
  | nil => rfl
  | cons d rest ih =>
      rw [List.countP_cons]
      cases d <;>
        simp [variableSymbols, ih, Declaration.isVariable, Declaration.isProcedure]

theorem LexicalScope.length_symbols_table (s : LexicalScope) (name : String) :
    (s.table name).symbols.length = s.block.symbolCount s.params := by
  simp [symbols_table, Block.symbolCount, parameters, procedures, declaredVariables,
    length_procedureSymbols, length_variableSymbols]
  omega

/-! ## The forest of tables -/

mutual

/-- The tables of a block and of the procedures inside it. -/
def Block.outline (path : DeclarationPath) (params : List TypedName) (name : String) :
    Block → ScopeTree
  | .mk span declarations bodySpan body =>
    let scope : LexicalScope := ⟨path, params, .mk span declarations bodySpan body, []⟩
    .node (scope.table name) (outlinesAmong path 0 declarations)

def outlinesAmong (path : DeclarationPath) (place : Nat) : List Declaration → List ScopeTree
  | [] => []
  | .variable _ :: rest => outlinesAmong path (place + 1) rest
  | .procedure _ name params block :: rest =>
    block.outline (path ++ [place]) params (canonicalName name) ::
      outlinesAmong path (place + 1) rest

end

/-- The name of the scope that a path leads to, and where the table of the scope around it stands if
the tables stand in the order of the paths. -/
inductive Program.Heads (p : Program) (paths : List DeclarationPath) :
    DeclarationPath → String → Option Nat → Prop where
  | program : Heads p paths [] "global" none
  | procedure {above : DeclarationPath} {s : LexicalScope} {place : Nat} {span : Span}
      {name : String} {params : List TypedName} {block : Block} {i : Nat} :
      p.scope? above = some s →
      s.block.declarations[place]? = some (.procedure span name params block) →
      paths[i]? = some above → Heads p paths (above ++ [place]) (canonicalName name) (some i)

/-- A table is that of the scope that a path leads to. -/
structure EnclosedTable.Shows (p : Program) (paths : List DeclarationPath) (t : EnclosedTable)
    (path : DeclarationPath) : Prop where
  heading : p.Heads paths path t.table.name t.enclosing
  level : t.table.level = path.length + 1
  symbols : ∃ s, p.scope? path = some s ∧
    t.table.symbols = [.builtinType .integer, .builtinType .real] ++
      s.parameters.map .variable ++ s.procedures.map .procedure ++
        s.declaredVariables.map .variable

/-- The tables are those of the scopes that the paths lead to, one for each. -/
def ScopeForest.Shows (f : ScopeForest) (p : Program) (paths : List DeclarationPath) : Prop :=
  List.Forall₂ (EnclosedTable.Shows p paths) f.tables.toList paths

section

variable {p : Program} {paths : List DeclarationPath}

theorem Program.Heads.append {path : DeclarationPath} {name : String} {enclosing : Option Nat}
    (h : p.Heads paths path name enclosing) (more : List DeclarationPath) :
    p.Heads (paths ++ more) path name enclosing := by
  cases h with
  | program => exact .program
  | procedure habove hget hi =>
      obtain ⟨hlt, -⟩ := List.getElem?_eq_some_iff.mp hi
      exact .procedure habove hget (by rw [List.getElem?_append_left hlt, hi])

theorem ScopeForest.Shows.add {f : ScopeForest} (h : f.Shows p paths) {path : DeclarationPath}
    {s : LexicalScope} (hs : p.scope? path = some s) {name : String} {enclosing : Option Nat}
    (hheads : p.Heads paths path name enclosing) :
    (f.add (s.table name) enclosing).Shows p (paths ++ [path]) := by
  rw [ScopeForest.Shows, ScopeForest.add, Array.toList_push]
  refine List.rel_append (h.imp fun t path' ht => ?_) (.cons ?_ .nil)
  · exact ⟨ht.heading.append [path], ht.level, ht.symbols⟩
  · exact ⟨hheads.append [path], Program.level_of_scope? hs, s, hs, s.symbols_table name⟩

theorem ScopeForest.Shows.size_eq {f : ScopeForest} (h : f.Shows p paths) :
    f.tables.size = paths.length := by
  rw [← Array.length_toList, h.length_eq]

/-- The table of a scope is one level deeper than the table of the scope around it. -/
theorem ScopeForest.Shows.level_enclosing {f : ScopeForest} (h : f.Shows p paths)
    {t : EnclosedTable} (ht : t ∈ f.tables) {i : Nat} (hi : t.enclosing = some i) :
    ∃ around, f.tables[i]? = some around ∧ t.table.level = around.table.level + 1 := by
  obtain ⟨k, hk⟩ := List.mem_iff_getElem?.mp (Array.mem_toList_iff.mpr ht)
  obtain ⟨path, -, hshown⟩ := exists_paired_of_getElem? h hk
  have hheading := hshown.heading
  have hlevel := hshown.level
  rw [hi] at hheading
  generalize t.table.name = name at hheading
  cases hheading with
  | procedure _ _ hplace =>
      obtain ⟨around, haround, hshown⟩ := exists_paired_of_getElem? h.flip hplace
      rw [Array.getElem?_toList] at haround
      refine ⟨around, haround, ?_⟩
      rw [hlevel, hshown.level, List.length_append, List.length_singleton]

mutual

theorem Block.outline_shows (name : String) {path : DeclarationPath} {s : LexicalScope}
    (hs : p.scope? path = some s) {enclosing : Option Nat} {paths : List DeclarationPath}
    {f : ScopeForest} (hf : f.Shows p paths) (hheads : p.Heads paths path name enclosing) :
    (block : Block) → s.block = block →
      ((block.outline path s.params name).addTo enclosing f).Shows p
        (paths ++ ([] :: block.procedurePaths).map (path ++ ·))
  | .mk span declarations bodySpan body, hblock => by
    have htable : (LexicalScope.mk path s.params (.mk span declarations bodySpan body) []).table
        name = s.table name := by
      rw [← hblock, ← Program.declaration_of_scope? hs]
      rfl
    have hplace : (paths ++ [path])[f.tables.size]? = some path := by simp [hf.size_eq]
    have hinner := outlinesAmong_shows hs hplace (hf.add hs hheads) [] declarations
      (by rw [hblock]; rfl)
    rw [Block.outline, ScopeTree.addTo, htable, List.map_cons, List.append_nil, List.append_cons]
    exact hinner

theorem outlinesAmong_shows {path : DeclarationPath} {s : LexicalScope}
    (hs : p.scope? path = some s) {i : Nat} {paths : List DeclarationPath} {f : ScopeForest}
    (hplace : paths[i]? = some path) (hf : f.Shows p paths) (front : List Declaration) :
    (declarations : List Declaration) → s.block.declarations = front ++ declarations →
      (ScopeTree.addAllTo (some i) f (outlinesAmong path front.length declarations)).Shows p
        (paths ++ (procedurePathsFrom front.length declarations).map (path ++ ·))
  | [], _ => by
    rw [outlinesAmong, ScopeTree.addAllTo, procedurePathsFrom, List.map_nil, List.append_nil]
    exact hf
  | .variable v :: rest, hsplit => by
    have hrest := outlinesAmong_shows hs hplace hf (front ++ [.variable v]) rest
      (by rw [hsplit, List.append_cons])
    rw [List.length_append, List.length_singleton] at hrest
    exact hrest
  | .procedure span name params block :: rest, hsplit => by
    have hget : s.block.declarations[front.length]? =
        some (.procedure span name params block) := by simp [hsplit]
    have hfirst := Block.outline_shows (canonicalName name) (Program.scope?_concat hs hget) hf
      (.procedure hs hget hplace) block rfl
    have hstill : (paths ++ ([] :: block.procedurePaths).map (path ++ [front.length] ++ ·))[i]? =
        some path := by
      obtain ⟨hlt, -⟩ := List.getElem?_eq_some_iff.mp hplace
      rw [List.getElem?_append_left hlt, hplace]
    have hrest := outlinesAmong_shows hs hstill hfirst
      (front ++ [.procedure span name params block]) rest (by rw [hsplit, List.append_cons])
    rw [List.length_append, List.length_singleton] at hrest
    rw [outlinesAmong, ScopeTree.addAllTo, procedurePathsFrom, List.map_append, List.map_map,
      ← List.append_assoc]
    simpa [Function.comp_def] using hrest

end

end

/-- The tables that a program should have form a forest in the order of its scopes. -/
theorem Program.outline_shows (p : Program) :
    ((p.block.outline [] [] "global").forest).Shows p p.scopePaths := by
  have hempty : ScopeForest.empty.Shows p [] := .nil
  have hforest := Block.outline_shows "global" (s := p.globalScope) rfl hempty .program p.block rfl
  rw [List.nil_append, List.map_congr_left (fun path _ => List.nil_append path),
    List.map_id'] at hforest
  exact hforest

/-! ## The events around scopes -/

/-- The events that bracket a scope. -/
def bracket (scope : String) (level symbols : Nat) (span : Span) (inner : List Event) :
    List Event :=
  ⟨.scopeEnter scope level, span⟩ :: inner ++ [⟨.scopeLeave scope level symbols, span⟩]

mutual

/-- The brackets around the procedures inside the block of a scope with the given level. -/
def Block.brackets (level : Nat) : Block → List Event
  | .mk _ declarations _ _ => bracketsAmong level declarations

def bracketsAmong (level : Nat) : List Declaration → List Event
  | [] => []
  | .variable _ :: rest => bracketsAmong level rest
  | .procedure span name params block :: rest =>
    bracket (canonicalName name) (level + 1) (block.symbolCount params) span
      (block.brackets (level + 1)) ++ bracketsAmong level rest

end

def Program.brackets (p : Program) : List Event :=
  bracket "global" 1 (p.block.symbolCount []) p.span (p.block.brackets 1)

end NestedPascal
