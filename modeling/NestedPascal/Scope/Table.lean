import NestedPascal.Register
import NestedPascal.Scope.Symbol

/-!
# Scope tables

The table of a scope holds the names declared in it, each under its canonical form, and starts with
the builtin types.  A chain of tables runs from a scope outward; a name denotes what the nearest
table that has it says.  A forest holds tables of which each may be enclosed by an earlier one.
-/

namespace NestedPascal

structure ScopeTable where
  name : String
  level : Nat
  entries : Register String ScopeSymbol

namespace ScopeTable

/-- A table never refuses a name: who declares one looks first whether it is taken. -/
def insert (t : ScopeTable) (s : ScopeSymbol) : ScopeTable :=
  { t with entries := t.entries.set (canonicalName s.name) s }

def new (name : String) (level : Nat) : ScopeTable :=
  (ScopeTable.mk name level .empty).insert (.builtinType .integer) |>.insert (.builtinType .real)

/-- The symbol under a canonical name. -/
def find? (t : ScopeTable) (key : String) : Option ScopeSymbol :=
  t.entries.get? key

def symbols (t : ScopeTable) : List ScopeSymbol :=
  t.entries.values

end ScopeTable

/-- Tables from the innermost outward. -/
abbrev ScopeChain := List ScopeTable

/-- The symbol of a canonical name, nearest table first. -/
def ScopeChain.lookup (chain : ScopeChain) (key : String) : Option ScopeSymbol :=
  chain.findSome? (·.find? key)

structure EnclosedTable where
  table : ScopeTable
  /-- The place of the enclosing table in the forest. -/
  enclosing : Option Nat

structure ScopeForest where
  tables : Array EnclosedTable

namespace ScopeForest

def empty : ScopeForest := ⟨#[]⟩

def add (f : ScopeForest) (table : ScopeTable) (enclosing : Option Nat) : ScopeForest :=
  ⟨f.tables.push ⟨table, enclosing⟩⟩

def insert (f : ScopeForest) (i : Nat) (s : ScopeSymbol) : ScopeForest :=
  ⟨f.tables.modify i fun t => { t with table := t.table.insert s }⟩

/-- The chain from a table outward. -/
def chain (f : ScopeForest) (i : Nat) : ScopeChain :=
  match f.tables[i]? with
  | none => []
  | some t =>
    t.table :: match t.enclosing with
      | some p => if p < i then f.chain p else []
      | none => []
termination_by i

def lookup (f : ScopeForest) (i : Nat) (key : String) (currentOnly : Bool) :
    Option ScopeSymbol :=
  let chain := f.chain i
  ScopeChain.lookup (if currentOnly then chain.take 1 else chain) key

end ScopeForest

/-- A scope with the scopes nested in it, in source order. -/
inductive ScopeTree where
  | node (table : ScopeTable) (nested : List ScopeTree)

mutual

/-- Adds the tables of a tree, an enclosing one before those nested in it. -/
def ScopeTree.addTo (enclosing : Option Nat) (f : ScopeForest) : ScopeTree → ScopeForest
  | .node table nested => addAllTo (some f.tables.size) (f.add table enclosing) nested

def ScopeTree.addAllTo (enclosing : Option Nat) (f : ScopeForest) : List ScopeTree → ScopeForest
  | [] => f
  | tree :: rest => addAllTo enclosing (tree.addTo enclosing f) rest

end

def ScopeTree.forest (tree : ScopeTree) : ScopeForest :=
  tree.addTo none .empty

end NestedPascal
