import NestedPascal.Proofs.Scope.Visibility
import NestedPascal.Proofs.Tree.SourceTree
import NestedPascal.Scope.Analysis

/-!
# What scope tables hold

While a scope is analysed its table holds the builtin types and, in the order in which they were
entered, symbols with distinct names.  A chain of such tables answers a look-up of a name as lexical
visibility does, for no declared name is the name of a builtin type.
-/

namespace NestedPascal

def builtinEntries : List (String × ScopeSymbol) :=
  [("integer", .builtinType .integer), ("real", .builtinType .real)]

def Reserved (name : String) : Prop :=
  name = "integer" ∨ name = "real"

structure ScopeTable.Holds (t : ScopeTable) (symbols : List ScopeSymbol) : Prop where
  entries : t.entries.entries = builtinEntries ++ symbols.map fun s => (s.name, s)
  unreserved : ∀ s ∈ symbols, ¬ Reserved s.name
  nodup : (symbols.map ScopeSymbol.name).Nodup

/-- Each table of the chain holds what the scope offers. -/
def Represents (chain : ScopeChain) (visible : Visible) : Prop :=
  List.Forall₂ ScopeTable.Holds chain visible

theorem IsIdentifier.not_reserved {name : String} (h : IsIdentifier name) :
    ¬ Reserved (canonicalName name) := by
  rintro (heq | heq)
  · exact h.canonicalName_ne_keyword .integer heq
  · exact h.canonicalName_ne_keyword .real heq

namespace Register

theorem replace_of_fresh {α : Type} {key : String} {value : α} {entries : List (String × α)}
    (hfresh : ∀ e ∈ entries, e.1 ≠ key) :
    replace key value entries = entries ++ [(key, value)] := by
  induction entries with
  | nil => rfl
  | cons e rest ih =>
      obtain ⟨hkey, hrest⟩ := List.forall_mem_cons.mp hfresh
      simp [replace, hkey, ih hrest]

theorem lookup_append {key : String} (front back : List (String × ScopeSymbol)) :
    lookup key (front ++ back) = (lookup key front).or (lookup key back) := by
  induction front with
  | nil => rfl
  | cons e rest ih =>
      by_cases hkey : e.1 = key
      · simp [lookup, hkey]
      · simp [lookup, hkey, ih]

theorem lookup_named (key : String) (symbols : List ScopeSymbol) :
    lookup key (symbols.map fun s => (s.name, s)) = symbols.find? (·.name = key) := by
  induction symbols with
  | nil => rfl
  | cons s rest ih =>
      by_cases hkey : s.name = key
      · simp [lookup, hkey]
      · simp [lookup, hkey, ih]

end Register

namespace ScopeTable

variable {t : ScopeTable} {symbols : List ScopeSymbol}

theorem holds_new (name : String) (level : Nat) : (ScopeTable.new name level).Holds [] := by
  have hinteger : canonicalName "INTEGER" = "integer" := by decide +kernel
  have hreal : canonicalName "REAL" = "real" := by decide +kernel
  refine ⟨?_, by simp, by simp⟩
  simp [new, insert, ScopeSymbol.name, Kind.text, hinteger, hreal, Register.set, Register.empty,
    Register.replace, builtinEntries]

theorem Holds.find?_unreserved (h : t.Holds symbols) {key : String} (hkey : ¬ Reserved key) :
    t.find? key = symbols.find? (·.name = key) := by
  have hbuiltin : Register.lookup key builtinEntries = none := by
    have hinteger : "integer" ≠ key := fun heq => hkey (.inl heq.symm)
    have hreal : "real" ≠ key := fun heq => hkey (.inr heq.symm)
    simp [builtinEntries, Register.lookup, hinteger, hreal]
  rw [find?, Register.get?, h.entries, Register.lookup_append, hbuiltin, Register.lookup_named,
    Option.none_or]

theorem Holds.find?_integer (h : t.Holds symbols) :
    t.find? "integer" = some (.builtinType .integer) := by
  simp [find?, Register.get?, h.entries, builtinEntries, Register.lookup]

theorem Holds.find?_real (h : t.Holds symbols) : t.find? "real" = some (.builtinType .real) := by
  simp [find?, Register.get?, h.entries, builtinEntries, Register.lookup]

theorem Holds.isSome_find?_iff (h : t.Holds symbols) {key : String} (hkey : ¬ Reserved key) :
    (t.find? key).isSome ↔ key ∈ symbols.map ScopeSymbol.name := by
  rw [h.find?_unreserved hkey, List.find?_isSome, List.mem_map]
  simp

theorem Holds.insert (h : t.Holds symbols) {s : ScopeSymbol}
    (hcanonical : canonicalName s.name = s.name) (hreserved : ¬ Reserved s.name)
    (hfresh : s.name ∉ symbols.map ScopeSymbol.name) : (t.insert s).Holds (symbols ++ [s]) := by
  refine ⟨?_, ?_, ?_⟩
  · have hentries : ∀ e ∈ t.entries.entries, e.1 ≠ s.name := by
      intro e he heq
      rw [h.entries, List.mem_append] at he
      rcases he with he | he
      · simp only [builtinEntries, List.mem_cons, List.not_mem_nil, or_false] at he
        apply hreserved
        rw [← heq]
        rcases he with rfl | rfl
        · exact .inl rfl
        · exact .inr rfl
      · obtain ⟨s', hs', rfl⟩ := List.mem_map.mp he
        exact hfresh (List.mem_map.mpr ⟨s', hs', heq⟩)
    rw [ScopeTable.insert, hcanonical, Register.set]
    simp only
    rw [Register.replace_of_fresh hentries, h.entries, List.append_assoc, List.map_append,
      List.map_singleton]
  · intro s' hs'
    rw [List.mem_append, List.mem_singleton] at hs'
    rcases hs' with hs' | rfl
    · exact h.unreserved s' hs'
    · exact hreserved
  · rw [List.map_append, List.map_singleton]
    refine List.nodup_append.mpr ⟨h.nodup, by simp, ?_⟩
    intro name hname other hother heq
    rw [List.mem_singleton] at hother
    subst other
    exact hfresh (heq ▸ hname)

end ScopeTable

namespace Represents

variable {chain : ScopeChain} {visible : Visible}

theorem lookup_unreserved (h : Represents chain visible) {key : String} (hkey : ¬ Reserved key) :
    chain.lookup key = visible.denote key := by
  induction h with
  | nil => rfl
  | cons hhead _ ih =>
      rw [ScopeChain.lookup, Visible.denote, List.findSome?_cons, List.findSome?_cons,
        hhead.find?_unreserved hkey]
      rw [ScopeChain.lookup, Visible.denote] at ih
      rw [ih]

theorem nodup (h : Represents chain visible) :
    ∀ offers ∈ visible, (offers.map ScopeSymbol.name).Nodup := by
  induction h with
  | nil => simp
  | cons hhead _ ih => exact List.forall_mem_cons.mpr ⟨hhead.nodup, ih⟩

theorem lookup_identifier (h : Represents chain visible) {name : String} (hname : IsIdentifier name) :
    chain.lookup (canonicalName name) = visible.denote (canonicalName name) :=
  h.lookup_unreserved hname.not_reserved

end Represents

theorem TypedName.FromSource.resolveType {v : TypedName} (hv : v.FromSource) {t : ScopeTable}
    {symbols : List ScopeSymbol} (ht : t.Holds symbols) (outer : ScopeChain) :
    t.resolveType outer v.type = .ok v.kind := by
  rw [ScopeTable.resolveType, ScopeChain.lookup, List.findSome?_cons]
  rcases hv.type with htype | htype
  · rw [htype, ht.find?_integer, TypedName.kind, htype]
    rfl
  · rw [htype, ht.find?_real, TypedName.kind, htype]
    rfl

end NestedPascal
