import Mathlib.Data.List.Induction
import NestedPascal.Scope.Symbol
import NestedPascal.Tree.Basic

/-!
# Lexical visibility

What a name denotes at a place of a program, told from the tree alone.  A scope offers its
parameters, all procedures of its block and its variables: all of them to its own statements, but to
a procedure declared in the block only the variables before it.  The nearest scope that offers a
name decides, whatever kind of thing it offers under it.
-/

namespace NestedPascal

/-- What the scopes around a place offer there, innermost first. -/
abbrev Visible := List (List ScopeSymbol)

def Visible.denote (visible : Visible) (name : String) : Option ScopeSymbol :=
  visible.findSome? (·.find? (·.name = name))

/-- The kind that the type of a declared name stands for. -/
def TypedName.kind (v : TypedName) : Kind :=
  if canonicalName v.type.text = "real" then .real else .integer

def TypedName.symbol (level : Nat) (v : TypedName) : VariableSymbol :=
  ⟨canonicalName v.name, v.kind, level⟩

/-- The symbols of the procedures among declarations of the block that a path leads to, the first of
which stands at the given place. -/
def procedureSymbols (path : DeclarationPath) (place : Nat) :
    List Declaration → List ProcedureSymbol
  | [] => []
  | .variable _ :: rest => procedureSymbols path (place + 1) rest
  | .procedure _ name params _ :: rest =>
    ⟨canonicalName name, params.map (·.symbol (path.length + 2)), path.length + 1,
      path ++ [place]⟩ :: procedureSymbols path (place + 1) rest

def variableSymbols (level : Nat) : List Declaration → List VariableSymbol
  | [] => []
  | .variable v :: rest => v.symbol level :: variableSymbols level rest
  | .procedure .. :: rest => variableSymbols level rest

/-- A scope of a program: the declaration whose block it is, and what the scopes around it offer to
it. -/
structure LexicalScope where
  declaration : DeclarationPath
  params : List TypedName
  block : Block
  outer : Visible

namespace LexicalScope

def level (s : LexicalScope) : Nat :=
  s.declaration.length + 1

def parameters (s : LexicalScope) : List VariableSymbol :=
  s.params.map (·.symbol s.level)

def procedures (s : LexicalScope) : List ProcedureSymbol :=
  procedureSymbols s.declaration 0 s.block.declarations

def declaredVariables (s : LexicalScope) : List VariableSymbol :=
  variableSymbols s.level s.block.declarations

/-- The names that an activation of the scope keeps values under. -/
def locals (s : LexicalScope) : List VariableSymbol :=
  s.parameters ++ s.declaredVariables

/-- What the scope offers from the start of its block. -/
def hoisted (s : LexicalScope) : List ScopeSymbol :=
  s.parameters.map .variable ++ s.procedures.map .procedure

/-- What the scope offers below its first declarations. -/
def offeredBelow (s : LexicalScope) (place : Nat) : List ScopeSymbol :=
  s.hoisted ++ (variableSymbols s.level (s.block.declarations.take place)).map .variable

/-- What the scope offers to its own statements. -/
def offered (s : LexicalScope) : List ScopeSymbol :=
  s.hoisted ++ s.declaredVariables.map .variable

def visible (s : LexicalScope) : Visible :=
  s.offered :: s.outer

/-- The scope of the procedure declared at a place of the block. -/
def inner? (s : LexicalScope) (place : Nat) : Option LexicalScope :=
  match s.block.declarations[place]? with
  | some (.procedure _ _ params block) =>
    some ⟨s.declaration ++ [place], params, block, s.offeredBelow place :: s.outer⟩
  | _ => none

def descendant? (s : LexicalScope) : DeclarationPath → Option LexicalScope
  | [] => some s
  | place :: path => (s.inner? place).bind (·.descendant? path)

end LexicalScope

def Program.globalScope (p : Program) : LexicalScope :=
  ⟨[], [], p.block, []⟩

def Program.scope? (p : Program) (path : DeclarationPath) : Option LexicalScope :=
  p.globalScope.descendant? path

theorem variableSymbols_take_subset (level place : Nat) (declarations : List Declaration) :
    variableSymbols level (declarations.take place) ⊆ variableSymbols level declarations := by
  induction declarations generalizing place with
  | nil => simp [variableSymbols]
  | cons d rest ih =>
      cases place with
      | zero => simp [variableSymbols]
      | succ place =>
          cases d with
          | «variable» v =>
              rw [List.take_succ_cons, variableSymbols, variableSymbols]
              exact List.cons_subset_cons _ (ih place)
          | procedure span name params block =>
              rw [List.take_succ_cons, variableSymbols, variableSymbols]
              exact ih place

theorem exists_declaration_of_mem_variableSymbols {level : Nat} {declarations : List Declaration}
    {v : VariableSymbol} (hv : v ∈ variableSymbols level declarations) :
    ∃ declared, .variable declared ∈ declarations ∧ v = declared.symbol level := by
  induction declarations with
  | nil => simp [variableSymbols] at hv
  | cons d rest ih =>
      cases d with
      | «variable» w =>
          rw [variableSymbols, List.mem_cons] at hv
          rcases hv with rfl | hv
          · exact ⟨w, List.mem_cons_self .., rfl⟩
          · obtain ⟨declared, hmem, heq⟩ := ih hv
            exact ⟨declared, List.mem_cons_of_mem _ hmem, heq⟩
      | procedure span name params block =>
          obtain ⟨declared, hmem, heq⟩ := ih hv
          exact ⟨declared, List.mem_cons_of_mem _ hmem, heq⟩

theorem mem_procedureSymbols {path : DeclarationPath} {place : Nat}
    {declarations : List Declaration} {q : ProcedureSymbol}
    (hq : q ∈ procedureSymbols path place declarations) :
    ∃ i span name params block, declarations[i]? = some (.procedure span name params block) ∧
      q = ⟨canonicalName name, params.map (·.symbol (path.length + 2)), path.length + 1,
        path ++ [place + i]⟩ := by
  induction declarations generalizing place with
  | nil => simp [procedureSymbols] at hq
  | cons d rest ih =>
      cases d with
      | «variable» w =>
          obtain ⟨i, span, name, params, block, hget, rfl⟩ := ih hq
          exact ⟨i + 1, span, name, params, block, hget, by rw [Nat.add_right_comm]; rfl⟩
      | procedure span name params block =>
          rw [procedureSymbols, List.mem_cons] at hq
          rcases hq with rfl | hq
          · exact ⟨0, span, name, params, block, rfl, rfl⟩
          · obtain ⟨i, span, name, params, block, hget, rfl⟩ := ih hq
            exact ⟨i + 1, span, name, params, block, hget, by rw [Nat.add_right_comm]; rfl⟩

namespace LexicalScope

theorem offeredBelow_subset (s : LexicalScope) (place : Nat) :
    s.offeredBelow place ⊆ s.offered := by
  intro symbol hsymbol
  rw [offeredBelow, List.mem_append] at hsymbol
  rw [offered, List.mem_append]
  rcases hsymbol with hhoisted | hvariable
  · exact .inl hhoisted
  · exact .inr (List.map_subset _ (variableSymbols_take_subset _ _ _) hvariable)

theorem variable_mem_offered {s : LexicalScope} {v : VariableSymbol} :
    .variable v ∈ s.offered ↔ v ∈ s.locals := by
  simp [offered, hoisted, locals]

theorem procedure_mem_offered {s : LexicalScope} {q : ProcedureSymbol} :
    .procedure q ∈ s.offered ↔ q ∈ s.procedures := by
  simp [offered, hoisted]

theorem exists_declared_of_mem_locals {s : LexicalScope} {v : VariableSymbol} (hv : v ∈ s.locals) :
    ∃ declared, (declared ∈ s.params ∨ .variable declared ∈ s.block.declarations) ∧
      v = declared.symbol s.level := by
  rw [locals, List.mem_append] at hv
  rcases hv with hv | hv
  · obtain ⟨declared, hmem, rfl⟩ := List.mem_map.mp hv
    exact ⟨declared, .inl hmem, rfl⟩
  · obtain ⟨declared, hmem, heq⟩ := exists_declaration_of_mem_variableSymbols hv
    exact ⟨declared, .inr hmem, heq⟩

theorem level_of_mem_locals {s : LexicalScope} {v : VariableSymbol} (hv : v ∈ s.locals) :
    v.level = s.level := by
  obtain ⟨declared, -, rfl⟩ := exists_declared_of_mem_locals hv
  rfl

theorem inner?_eq_some {s t : LexicalScope} {place : Nat} (h : s.inner? place = some t) :
    ∃ span name, s.block.declarations[place]? = some (.procedure span name t.params t.block) ∧
      t.declaration = s.declaration ++ [place] ∧ t.outer = s.offeredBelow place :: s.outer := by
  unfold inner? at h
  split at h
  next span name params block hget =>
    simp only [Option.some.injEq] at h
    subst t
    exact ⟨span, name, hget, rfl, rfl⟩
  next => contradiction

theorem inner?_of_getElem? {s : LexicalScope} {place : Nat} {span : Span} {name : String}
    {params : List TypedName} {block : Block}
    (hget : s.block.declarations[place]? = some (.procedure span name params block)) :
    s.inner? place =
      some ⟨s.declaration ++ [place], params, block, s.offeredBelow place :: s.outer⟩ := by
  rw [inner?, hget]

theorem inner?_of_mem_procedures {s : LexicalScope} {q : ProcedureSymbol}
    (hq : q ∈ s.procedures) :
    ∃ place t, s.inner? place = some t ∧ q.level = s.level ∧
      q.declaration = s.declaration ++ [place] ∧ q.params = t.parameters := by
  obtain ⟨i, span, name, params, block, hget, rfl⟩ := mem_procedureSymbols hq
  refine ⟨i, _, inner?_of_getElem? hget, rfl, ?_, ?_⟩
  · simp
  · simp [parameters, level]

theorem level_of_mem_procedures {s : LexicalScope} {q : ProcedureSymbol} (hq : q ∈ s.procedures) :
    q.level = s.level := by
  obtain ⟨-, -, -, hlevel, -⟩ := inner?_of_mem_procedures hq
  exact hlevel

theorem descendant?_append (s : LexicalScope) (path rest : DeclarationPath) :
    s.descendant? (path ++ rest) = (s.descendant? path).bind (·.descendant? rest) := by
  induction path generalizing s with
  | nil => rfl
  | cons place path ih =>
      rw [List.cons_append, descendant?, descendant?]
      cases s.inner? place with
      | none => rfl
      | some t => exact ih t

theorem descendant?_concat (s : LexicalScope) (path : DeclarationPath) (place : Nat) :
    s.descendant? (path ++ [place]) = (s.descendant? path).bind (·.inner? place) := by
  rw [descendant?_append]
  cases s.descendant? path with
  | none => rfl
  | some t =>
      exact Option.bind_fun_some _

theorem declaration_of_descendant? {s t : LexicalScope} {path : DeclarationPath}
    (h : s.descendant? path = some t) : t.declaration = s.declaration ++ path := by
  induction path generalizing s with
  | nil =>
      cases h
      simp
  | cons place path ih =>
      obtain ⟨inner, hinner, h⟩ := Option.bind_eq_some_iff.mp h
      obtain ⟨-, -, -, hdeclaration, -⟩ := inner?_eq_some hinner
      rw [ih h, hdeclaration, List.append_assoc, List.singleton_append]

theorem block_of_descendant? {s t : LexicalScope} {path : DeclarationPath}
    (h : s.descendant? path = some t) : s.block.at? path = some t.block := by
  induction path generalizing s with
  | nil =>
      cases h
      rfl
  | cons place path ih =>
      obtain ⟨inner, hinner, h⟩ := Option.bind_eq_some_iff.mp h
      obtain ⟨span, name, hget, -, -⟩ := inner?_eq_some hinner
      rw [Block.at?, hget]
      exact ih h

end LexicalScope

namespace Program

theorem declaration_of_scope? {p : Program} {path : DeclarationPath} {s : LexicalScope}
    (h : p.scope? path = some s) : s.declaration = path :=
  LexicalScope.declaration_of_descendant? h

theorem level_of_scope? {p : Program} {path : DeclarationPath} {s : LexicalScope}
    (h : p.scope? path = some s) : s.level = path.length + 1 := by
  rw [LexicalScope.level, declaration_of_scope? h]

/-- The scope of a procedure that is declared in a scope of the program. -/
theorem scope?_concat {p : Program} {path : DeclarationPath} {s : LexicalScope}
    (hs : p.scope? path = some s) {place : Nat} {span : Span} {name : String}
    {params : List TypedName} {block : Block}
    (hget : s.block.declarations[place]? = some (.procedure span name params block)) :
    p.scope? (path ++ [place]) =
      some ⟨s.declaration ++ [place], params, block, s.offeredBelow place :: s.outer⟩ := by
  rw [scope?, LexicalScope.descendant?_concat]
  exact Option.bind_eq_some_iff.mpr ⟨s, hs, LexicalScope.inner?_of_getElem? hget⟩

theorem body_of_scope? {p : Program} {path : DeclarationPath} {s : LexicalScope}
    (h : p.scope? path = some s) : ((p.block.at? path).map Block.body).getD [] = s.block.body := by
  have hblock : p.block.at? path = some s.block := LexicalScope.block_of_descendant? h
  rw [hblock, Option.map_some, Option.getD_some]

/-- Whatever is visible in a scope is offered by that scope or by one around it. -/
theorem offered_of_visible {p : Program} {path : DeclarationPath} {s : LexicalScope}
    (hs : p.scope? path = some s) {offers : List ScopeSymbol} (hoffers : offers ∈ s.visible)
    {symbol : ScopeSymbol} (hsymbol : symbol ∈ offers) :
    ∃ above t, above <+: path ∧ p.scope? above = some t ∧ symbol ∈ t.offered := by
  induction path using List.reverseRecOn generalizing s offers with
  | nil =>
      cases hs
      simp only [LexicalScope.visible, globalScope, List.mem_singleton] at hoffers
      subst offers
      exact ⟨[], p.globalScope, List.prefix_rfl, rfl, hsymbol⟩
  | append_singleton path place ih =>
      rw [LexicalScope.visible, List.mem_cons] at hoffers
      rcases hoffers with rfl | houter
      · exact ⟨path ++ [place], s, List.prefix_rfl, hs, hsymbol⟩
      · rw [scope?, LexicalScope.descendant?_concat] at hs
        obtain ⟨enclosing, henclosing, hinner⟩ := Option.bind_eq_some_iff.mp hs
        obtain ⟨-, -, -, -, heq⟩ := LexicalScope.inner?_eq_some hinner
        rw [heq, List.mem_cons] at houter
        have habove : ∃ above t, above <+: path ∧ p.scope? above = some t ∧
            symbol ∈ t.offered := by
          rcases houter with rfl | houter
          · exact ih henclosing (List.mem_cons_self ..)
              (LexicalScope.offeredBelow_subset _ _ hsymbol)
          · exact ih henclosing (List.mem_cons_of_mem _ houter) hsymbol
        obtain ⟨above, t, hprefix, ht, hmem⟩ := habove
        exact ⟨above, t, hprefix.trans (List.prefix_append _ _), ht, hmem⟩

theorem offered_of_denote {p : Program} {path : DeclarationPath} {s : LexicalScope}
    (hs : p.scope? path = some s) {name : String} {symbol : ScopeSymbol}
    (hdenote : s.visible.denote name = some symbol) :
    symbol.name = name ∧
      ∃ above t, above <+: path ∧ p.scope? above = some t ∧ symbol ∈ t.offered := by
  obtain ⟨offers, hoffers, hfind⟩ := List.exists_of_findSome?_eq_some hdenote
  refine ⟨by simpa using List.find?_some hfind, ?_⟩
  exact offered_of_visible hs hoffers (List.mem_of_find?_eq_some hfind)

theorem local_of_denote {p : Program} {path : DeclarationPath} {s : LexicalScope}
    (hs : p.scope? path = some s) {name : String} {v : VariableSymbol}
    (hdenote : s.visible.denote name = some (.variable v)) :
    v.name = name ∧ ∃ above t, above <+: path ∧ p.scope? above = some t ∧ v ∈ t.locals ∧
      v.level = above.length + 1 := by
  obtain ⟨hname, above, t, hprefix, ht, hmem⟩ := offered_of_denote hs hdenote
  have hlocal := LexicalScope.variable_mem_offered.mp hmem
  refine ⟨hname, above, t, hprefix, ht, hlocal, ?_⟩
  rw [LexicalScope.level_of_mem_locals hlocal, level_of_scope? ht]

theorem procedure_of_denote {p : Program} {path : DeclarationPath} {s : LexicalScope}
    (hs : p.scope? path = some s) {name : String} {q : ProcedureSymbol}
    (hdenote : s.visible.denote name = some (.procedure q)) :
    q.name = name ∧ ∃ above place callee, above <+: path ∧ q.level = above.length + 1 ∧
      q.declaration = above ++ [place] ∧ p.scope? q.declaration = some callee ∧
      q.params = callee.parameters := by
  obtain ⟨hname, above, t, hprefix, ht, hmem⟩ := offered_of_denote hs hdenote
  obtain ⟨place, callee, hinner, hlevel, hdeclaration, hparams⟩ :=
    LexicalScope.inner?_of_mem_procedures (LexicalScope.procedure_mem_offered.mp hmem)
  rw [declaration_of_scope? ht] at hdeclaration
  refine ⟨hname, above, place, callee, hprefix, ?_, hdeclaration, ?_, hparams⟩
  · rw [hlevel, level_of_scope? ht]
  · rw [hdeclaration, scope?, LexicalScope.descendant?_concat]
    exact Option.bind_eq_some_iff.mpr ⟨t, ht, hinner⟩

end Program

end NestedPascal
