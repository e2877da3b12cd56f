import NestedPascal.Proofs.Tree.Bare

/-!
# Renaming a declaration

One of the names that a program declares gets another one, where it is declared and where a
reference or call is annotated with the symbol of that declaration.  A symbol of a variable tells of
its declaration no more than the level and the name, so which one it is of is told as seen from the
block it is used in: a block of that level around that one declares it.
-/

namespace NestedPascal

structure Renaming where
  /-- The block that declares the name. -/
  scope : DeclarationPath
  /-- The name in its canonical form. -/
  name : String
  /-- The new name as it is written. -/
  fresh : String

namespace Renaming

variable (ρ : Renaming)

/-- What becomes of the canonical form of a name that a block declares. -/
def key (scope : DeclarationPath) (name : String) : String :=
  if scope = ρ.scope ∧ name = ρ.name then canonicalName ρ.fresh else name

/-- What becomes of a name that a block declares where it is written in some way. -/
def text (scope : DeclarationPath) (name written : String) : String :=
  if scope = ρ.scope ∧ name = ρ.name then ρ.fresh else written

end Renaming

variable (ρ : Renaming)

/-! ## Symbols -/

/-- The symbol of a variable as seen from a block. -/
def VariableSymbol.rename (path : DeclarationPath) (v : VariableSymbol) : VariableSymbol :=
  { v with name := ρ.key (path.take (v.level - 1)) v.name }

def ProcedureSymbol.rename (q : ProcedureSymbol) : ProcedureSymbol :=
  { q with
    name := ρ.key q.declaration.dropLast q.name
    params := q.params.map (·.rename ρ q.declaration) }

def ScopeSymbol.rename (path : DeclarationPath) : ScopeSymbol → ScopeSymbol
  | .builtinType kind => .builtinType kind
  | .variable v => .variable (v.rename ρ path)
  | .procedure q => .procedure (q.rename ρ)

/-! ## Trees -/

def VariableRef.rename (path : DeclarationPath) (r : VariableRef) : VariableRef :=
  { r with
    name := match r.symbol with
      | none => r.name
      | some v => ρ.text (path.take (v.level - 1)) v.name r.name
    symbol := r.symbol.map (·.rename ρ path) }

def Expr.rename (path : DeclarationPath) : Expr → Expr
  | .literal span value => .literal span value
  | .variable r => .variable (r.rename ρ path)
  | .unary span sign operand => .unary span sign (operand.rename path)
  | .binary span op left right => .binary span op (left.rename path) (right.rename path)

def Call.rename (path : DeclarationPath) (c : Call) : Call :=
  { c with
    name := match c.symbol with
      | none => c.name
      | some q => ρ.text q.declaration.dropLast q.name c.name
    args := c.args.map (·.rename ρ path)
    symbol := c.symbol.map (·.rename ρ) }

mutual

def Statement.rename (path : DeclarationPath) : Statement → Statement
  | .compound span children => .compound span (renameStatements path children)
  | .assignment span target value =>
    .assignment span (target.rename ρ path) (value.rename ρ path)
  | .call c => .call (c.rename ρ path)

def renameStatements (path : DeclarationPath) : List Statement → List Statement
  | [] => []
  | s :: rest => s.rename path :: renameStatements path rest

end

/-- A declared name of a block. -/
def TypedName.rename (path : DeclarationPath) (v : TypedName) : TypedName :=
  { v with name := ρ.text path (canonicalName v.name) v.name }

mutual

/-- The block that a path leads to. -/
def Block.rename (path : DeclarationPath) : Block → Block
  | .mk span declarations bodySpan body =>
    .mk span (renameDeclarations path 0 declarations) bodySpan (renameStatements ρ path body)

/-- The declaration at a place of the block that a path leads to. -/
def Declaration.rename (path : DeclarationPath) (place : Nat) : Declaration → Declaration
  | .variable v => .variable (v.rename ρ path)
  | .procedure span name params block =>
    .procedure span (ρ.text path (canonicalName name) name)
      (params.map (·.rename ρ (path ++ [place]))) (block.rename (path ++ [place]))

/-- Declarations of the block that a path leads to, the first of which stands at the given place. -/
def renameDeclarations (path : DeclarationPath) (place : Nat) :
    List Declaration → List Declaration
  | [] => []
  | d :: rest => d.rename path place :: renameDeclarations path (place + 1) rest

end

def Program.rename (p : Program) : Program :=
  { p with block := p.block.rename ρ [] }

/-! ## Names of a program -/

mutual

def Block.declaredNames : Block → List String
  | .mk _ declarations _ _ => namesDeclaredAmong declarations

/-- The names that a declaration and the declarations inside it declare. -/
def Declaration.declaredNames : Declaration → List String
  | .variable v => [v.name]
  | .procedure _ name params block => name :: (params.map TypedName.name ++ block.declaredNames)

def namesDeclaredAmong : List Declaration → List String
  | [] => []
  | d :: rest => d.declaredNames ++ namesDeclaredAmong rest

end

/-! ## Lookups -/

variable {ρ}

namespace Renaming

theorem canonicalName_text {scope : DeclarationPath} {name written : String}
    (h : canonicalName written = name) :
    canonicalName (ρ.text scope name written) = ρ.key scope name := by
  unfold text key
  split
  next => rfl
  next => exact h

/-- Renaming does not make one name of two that are not the new one. -/
theorem key_inj {scope scope' : DeclarationPath} {name name' : String}
    (hname : name ≠ canonicalName ρ.fresh) (hname' : name' ≠ canonicalName ρ.fresh)
    (h : ρ.key scope name = ρ.key scope' name') : name = name' := by
  unfold key at h
  split at h
  next hhit =>
    split at h
    next hhit' => rw [hhit.2, hhit'.2]
    next => exact absurd h.symm hname'
  next =>
    split at h
    next => exact absurd h hname
    next => exact h

theorem isIdentifier_text (hfresh : IsIdentifier ρ.fresh) (scope : DeclarationPath) (name : String)
    {written : String} (hwritten : IsIdentifier written) :
    IsIdentifier (ρ.text scope name written) := by
  unfold text
  split
  next => exact hfresh
  next => exact hwritten

end Renaming

@[simp] theorem VariableSymbol.kind_rename (v : VariableSymbol) (path : DeclarationPath) :
    (v.rename ρ path).kind = v.kind := rfl

@[simp] theorem VariableSymbol.level_rename (v : VariableSymbol) (path : DeclarationPath) :
    (v.rename ρ path).level = v.level := rfl

@[simp] theorem ProcedureSymbol.level_rename (q : ProcedureSymbol) :
    (q.rename ρ).level = q.level := rfl

theorem VariableSymbol.name_rename {v : VariableSymbol} {path above : DeclarationPath}
    (hlevel : v.level = above.length + 1) (habove : above <+: path) :
    (v.rename ρ path).name = ρ.key above v.name := by
  rw [rename, hlevel, Nat.add_sub_cancel, ← List.prefix_iff_eq_take.mp habove]

/-- A variable is the same seen from a block and from one inside it. -/
theorem VariableSymbol.rename_append (v : VariableSymbol) {path : DeclarationPath}
    (hlevel : v.level ≤ path.length + 1) (more : DeclarationPath) :
    v.rename ρ (path ++ more) = v.rename ρ path := by
  rw [rename, rename, List.take_append_of_le_length (by omega)]

theorem renameStatements_append (path : DeclarationPath) (front back : List Statement) :
    renameStatements ρ path (front ++ back) =
      renameStatements ρ path front ++ renameStatements ρ path back := by
  induction front with
  | nil => rfl
  | cons s rest ih => rw [List.cons_append, renameStatements, renameStatements, ih, List.cons_append]

theorem getElem?_renameDeclarations (path : DeclarationPath) (place : Nat)
    (declarations : List Declaration) (i : Nat) :
    (renameDeclarations ρ path place declarations)[i]? =
      declarations[i]?.map (·.rename ρ path (place + i)) := by
  induction declarations generalizing place i with
  | nil => rfl
  | cons d rest ih =>
      rw [renameDeclarations]
      cases i with
      | zero => rfl
      | succ i => rw [List.getElem?_cons_succ, List.getElem?_cons_succ, ih, Nat.add_right_comm]; rfl

theorem take_renameDeclarations (path : DeclarationPath) (place n : Nat)
    (declarations : List Declaration) :
    (renameDeclarations ρ path place declarations).take n =
      renameDeclarations ρ path place (declarations.take n) := by
  induction declarations generalizing place n with
  | nil => simp [renameDeclarations]
  | cons d rest ih =>
      cases n with
      | zero => rfl
      | succ n => simp only [renameDeclarations, List.take_succ_cons, ih]

theorem Block.body_rename (b : Block) (path : DeclarationPath) :
    (b.rename ρ path).body = renameStatements ρ path b.body := by
  cases b
  rfl

theorem Block.at?_rename (b : Block) (path below : DeclarationPath) :
    (b.rename ρ path).at? below = (b.at? below).map (·.rename ρ (path ++ below)) := by
  induction below generalizing b path with
  | nil => rw [at?, at?, List.append_nil]; rfl
  | cons place below ih =>
      obtain ⟨span, declarations, bodySpan, body⟩ := b
      rw [rename, at?, at?, Block.declarations, Block.declarations, getElem?_renameDeclarations,
        Nat.zero_add]
      cases declarations[place]? with
      | none => rfl
      | some d =>
          cases d with
          | «variable» v => rfl
          | procedure span name params inner =>
              rw [Option.map_some, Declaration.rename]
              simp only
              rw [ih, List.append_assoc, List.singleton_append]

theorem Block.body_at?_rename (b : Block) (path : DeclarationPath) :
    (((b.rename ρ []).at? path).map Block.body).getD [] =
      renameStatements ρ path (((b.at? path).map Block.body).getD []) := by
  rw [at?_rename, List.nil_append]
  cases b.at? path with
  | none => rfl
  | some inner => exact inner.body_rename path

/-! ## Renamed trees could come from a source -/

section

variable (hfresh : IsIdentifier ρ.fresh) (path : DeclarationPath)

include hfresh

theorem VariableRef.fromSource_bare_rename {r : VariableRef} (hr : r.bare.FromSource) :
    (r.rename ρ path).bare.FromSource := by
  refine ⟨?_, rfl⟩
  have hname : IsIdentifier r.name := hr.name
  simp only [rename, bare]
  split
  next => exact hname
  next => exact Renaming.isIdentifier_text hfresh _ _ hname

theorem Expr.fromSource_bare_rename {e : Expr} (he : e.bare.FromSource) :
    (e.rename ρ path).bare.FromSource := by
  induction e with
  | literal => exact he
  | «variable» r => exact VariableRef.fromSource_bare_rename hfresh path he
  | unary span sign operand ih => exact ih he
  | binary span op left right ihl ihr => exact ⟨ihl he.1, ihr he.2⟩

theorem Call.fromSource_bare_rename {c : Call} (hc : c.bare.FromSource) :
    (c.rename ρ path).bare.FromSource := by
  have hname : IsIdentifier c.name := hc.name
  refine ⟨?_, rfl, ?_⟩
  · simp only [rename, bare]
    split
    next => exact hname
    next => exact Renaming.isIdentifier_text hfresh _ _ hname
  · intro arg harg
    simp only [rename, bare, List.mem_map] at harg
    obtain ⟨-, ⟨arg, harg, rfl⟩, rfl⟩ := harg
    exact Expr.fromSource_bare_rename hfresh path (hc.args _ (List.mem_map_of_mem harg))

theorem TypedName.FromSource.rename {v : TypedName} (hv : v.FromSource) :
    (v.rename ρ path).FromSource :=
  ⟨Renaming.isIdentifier_text hfresh _ _ hv.name, hv.type⟩

end

mutual

theorem Statement.fromSource_bare_rename (hfresh : IsIdentifier ρ.fresh) (path : DeclarationPath) :
    (s : Statement) → s.bare.FromSource → (s.rename ρ path).bare.FromSource
  | .compound _ children, hs => statementsFromSource_bare_rename hfresh path children hs
  | .assignment _ _ _, hs =>
    ⟨VariableRef.fromSource_bare_rename hfresh path hs.1,
      Expr.fromSource_bare_rename hfresh path hs.2⟩
  | .call _, hs => Call.fromSource_bare_rename hfresh path hs

theorem statementsFromSource_bare_rename (hfresh : IsIdentifier ρ.fresh) (path : DeclarationPath) :
    (ss : List Statement) → statementsFromSource (bareStatements ss) →
      statementsFromSource (bareStatements (renameStatements ρ path ss))
  | [], _ => trivial
  | s :: rest, hs =>
    ⟨s.fromSource_bare_rename hfresh path hs.1, statementsFromSource_bare_rename hfresh path rest hs.2⟩

end

mutual

theorem Block.fromSource_bare_rename (hfresh : IsIdentifier ρ.fresh) (path : DeclarationPath) :
    (b : Block) → b.bare.FromSource → (b.rename ρ path).bare.FromSource
  | .mk _ declarations _ body, hb =>
    ⟨declarationsFromSource_bare_rename hfresh path 0 declarations hb.1,
      statementsFromSource_bare_rename hfresh path body hb.2⟩

theorem Declaration.fromSource_bare_rename (hfresh : IsIdentifier ρ.fresh) (path : DeclarationPath)
    (place : Nat) : (d : Declaration) → d.bare.FromSource → (d.rename ρ path place).bare.FromSource
  | .variable _, hd => TypedName.FromSource.rename hfresh path hd
  | .procedure _ _ params block, ⟨hname, hparams, hblock⟩ => by
    refine ⟨Renaming.isIdentifier_text hfresh _ _ hname, ?_,
      block.fromSource_bare_rename hfresh (path ++ [place]) hblock⟩
    intro v hv
    obtain ⟨w, hw, rfl⟩ := List.mem_map.mp hv
    exact (hparams w hw).rename hfresh (path ++ [place])

theorem declarationsFromSource_bare_rename (hfresh : IsIdentifier ρ.fresh) (path : DeclarationPath)
    (place : Nat) : (declarations : List Declaration) →
      declarationsFromSource (bareDeclarations declarations) →
      declarationsFromSource (bareDeclarations (renameDeclarations ρ path place declarations))
  | [], _ => trivial
  | d :: rest, hd =>
    ⟨d.fromSource_bare_rename hfresh path place hd.1,
      declarationsFromSource_bare_rename hfresh path (place + 1) rest hd.2⟩

end

/-! ## Declared names -/

theorem mem_namesDeclaredAmong {declarations : List Declaration} {name : String} :
    name ∈ namesDeclaredAmong declarations ↔ ∃ d ∈ declarations, name ∈ d.declaredNames := by
  induction declarations with
  | nil => simp [namesDeclaredAmong]
  | cons d rest ih => simp [namesDeclaredAmong, ih]

theorem Block.declaredNames_eq (b : Block) :
    b.declaredNames = namesDeclaredAmong b.declarations := by
  cases b
  rfl

mutual

@[simp] theorem Block.declaredNames_bare : (b : Block) → b.bare.declaredNames = b.declaredNames
  | .mk _ declarations _ _ => namesDeclaredAmong_bare declarations

@[simp] theorem Declaration.declaredNames_bare :
    (d : Declaration) → d.bare.declaredNames = d.declaredNames
  | .variable _ => rfl
  | .procedure _ _ _ block => by
    rw [Declaration.bare, Declaration.declaredNames, Declaration.declaredNames,
      block.declaredNames_bare]

@[simp] theorem namesDeclaredAmong_bare : (declarations : List Declaration) →
    namesDeclaredAmong (bareDeclarations declarations) = namesDeclaredAmong declarations
  | [] => rfl
  | d :: rest => by
    rw [bareDeclarations, namesDeclaredAmong, namesDeclaredAmong, d.declaredNames_bare,
      namesDeclaredAmong_bare rest]

end

end NestedPascal
