import NestedPascal.Proofs.Register
import NestedPascal.Scope.Table

/-!
# Scope tables as nested maps

Tables are made, each perhaps inside one that is there already, and symbols are entered into them, in
any order.  Whatever was done, a table lists its names in the order in which each first came, with the
symbol that came last under it, and a look-up answers with the last symbol that was entered under the
name into the nearest table that has the name at all.
-/

namespace NestedPascal

/-- The name that a table keeps a symbol under. -/
def ScopeSymbol.key (s : ScopeSymbol) : String :=
  canonicalName s.name

/-- Of the symbols that came one after the other, this is the last one under a name. -/
def ScopeSymbol.IsLastUnder (s : ScopeSymbol) (key : String) (symbols : List ScopeSymbol) : Prop :=
  ∃ before after, symbols = before ++ s :: after ∧ s.key = key ∧ ∀ s' ∈ after, s'.key ≠ key

theorem ScopeSymbol.find?_reverse_eq_some_iff {s : ScopeSymbol} {key : String}
    {symbols : List ScopeSymbol} :
    symbols.reverse.find? (·.key = key) = some s ↔ s.IsLastUnder key symbols := by
  rw [List.find?_eq_some_iff_append, decide_eq_true_eq]
  constructor
  · rintro ⟨hkey, after, before, hsplit, hafter⟩
    refine ⟨before.reverse, after.reverse, ?_, hkey, ?_⟩
    · rw [← List.reverse_reverse symbols, hsplit]
      simp
    · simpa using hafter
  · rintro ⟨before, after, rfl, hkey, hafter⟩
    exact ⟨hkey, after.reverse, before.reverse, by simp, by simpa using hafter⟩

theorem ScopeSymbol.IsLastUnder.key_eq {s : ScopeSymbol} {key : String}
    {symbols : List ScopeSymbol} (h : s.IsLastUnder key symbols) : s.key = key := by
  obtain ⟨-, -, -, hkey, -⟩ := h
  exact hkey

theorem ScopeSymbol.IsLastUnder.mem {s : ScopeSymbol} {key : String}
    {symbols : List ScopeSymbol} (h : s.IsLastUnder key symbols) : s ∈ symbols := by
  obtain ⟨before, after, rfl, -, -⟩ := h
  simp

theorem findSome?_congr {α β : Type} {f g : α → Option β} {xs : List α} (h : ∀ x ∈ xs, f x = g x) :
    xs.findSome? f = xs.findSome? g := by
  induction xs with
  | nil => rfl
  | cons x xs ih =>
      obtain ⟨hx, hrest⟩ := List.forall_mem_cons.mp h
      rw [List.findSome?_cons, List.findSome?_cons, hx, ih hrest]

/-! ## One table -/

namespace ScopeTable

variable {t : ScopeTable} {symbols : List ScopeSymbol}

/-- What a table holds after symbols were entered into it one after the other. -/
structure Records (t : ScopeTable) (symbols : List ScopeSymbol) : Prop where
  keys : t.entries.entries.map Prod.fst = (symbols.map ScopeSymbol.key).eraseDups
  latest : ∀ key, t.find? key = symbols.reverse.find? (·.key = key)

theorem Records.insert (h : t.Records symbols) (s : ScopeSymbol) :
    (t.insert s).Records (symbols ++ [s]) := by
  constructor
  · rw [ScopeTable.insert, Register.set]
    simp only
    rw [Register.keys_replace, h.keys, List.map_append, List.map_singleton, eraseDups_concat,
      ScopeSymbol.key]
    simp only [List.mem_eraseDups]
  · intro key
    rw [ScopeTable.insert, find?, Register.get?_set, List.reverse_append, List.reverse_singleton,
      List.singleton_append, List.find?_cons, ← ScopeSymbol.key]
    by_cases hkey : s.key = key
    · simp [hkey]
    · rw [if_neg hkey, ← find?, h.latest]
      simp [hkey]

/-- The builtin types count as entered when the table is made. -/
def builtins : List ScopeSymbol :=
  [.builtinType .integer, .builtinType .real]

theorem records_new (name : String) (level : Nat) : (ScopeTable.new name level).Records builtins :=
  have hempty : (ScopeTable.mk name level .empty).Records [] := ⟨rfl, fun _ => rfl⟩
  (hempty.insert (.builtinType .integer)).insert (.builtinType .real)

theorem Records.find?_eq_some_iff (h : t.Records symbols) {key : String} {s : ScopeSymbol} :
    t.find? key = some s ↔ s.IsLastUnder key symbols := by
  rw [h.latest, ScopeSymbol.find?_reverse_eq_some_iff]

/-- An entry is the last symbol that was entered under its key. -/
theorem Records.isLastUnder (h : t.Records symbols) {e : String × ScopeSymbol}
    (he : e ∈ t.entries.entries) : e.2.IsLastUnder e.1 symbols := by
  have hkeys : (t.entries.entries.map Prod.fst).Nodup := h.keys ▸ nodup_eraseDups _
  exact h.find?_eq_some_iff.mp (Register.get?_of_mem hkeys he)

theorem Records.keys_symbols (h : t.Records symbols) :
    t.symbols.map ScopeSymbol.key = (symbols.map ScopeSymbol.key).eraseDups := by
  rw [← h.keys, ScopeTable.symbols, Register.values, List.map_map]
  exact List.map_congr_left fun e he => (h.isLastUnder he).key_eq

theorem Records.isLastUnder_of_mem_symbols (h : t.Records symbols) {s : ScopeSymbol}
    (hs : s ∈ t.symbols) : s.IsLastUnder s.key symbols := by
  obtain ⟨e, he, rfl⟩ := List.mem_map.mp hs
  have hlast := h.isLastUnder he
  rwa [hlast.key_eq]

end ScopeTable

/-! ## What was done to a forest -/

/-- A way in which a forest with some number of tables comes about: tables are made, each by itself or
inside one of those that are there, and symbols are entered into any of them. -/
inductive ScopeHistory : Nat → Type where
  | empty : ScopeHistory 0
  | create {n : Nat} (h : ScopeHistory n) (name : String) (level : Nat)
    (enclosing : Option (Fin n)) : ScopeHistory (n + 1)
  | insert {n : Nat} (h : ScopeHistory n) (i : Fin n) (s : ScopeSymbol) : ScopeHistory n

namespace ScopeHistory

variable {n : Nat}

def forest : {n : Nat} → ScopeHistory n → ScopeForest
  | _, .empty => .empty
  | _, .create h name level enclosing => h.forest.add (.new name level) (enclosing.map Fin.val)
  | _, .insert h i s => h.forest.insert i s

/-- The symbols that were entered into a table, in order. -/
def entered : {n : Nat} → ScopeHistory n → Nat → List ScopeSymbol
  | _, .empty, _ => []
  | n + 1, .create h _ _ _, j => if j = n then ScopeTable.builtins else h.entered j
  | _, .insert h i s, j => if j = i then h.entered j ++ [s] else h.entered j

/-- The table that another one was made in. -/
def enclosing? : {n : Nat} → ScopeHistory n → Nat → Option Nat
  | _, .empty, _ => none
  | n + 1, .create h _ _ enclosing, j => if j = n then enclosing.map Fin.val else h.enclosing? j
  | _, .insert h _ _, j => h.enclosing? j

/-- A table, the one that it was made in, and so on outward. -/
def outward : {n : Nat} → ScopeHistory n → Nat → List Nat
  | _, .empty, _ => []
  | n + 1, .create h _ _ enclosing, j =>
    if j = n then n :: enclosing.elim [] (fun p => h.outward p) else h.outward j
  | _, .insert h _ _, j => h.outward j

theorem enclosing?_lt (h : ScopeHistory n) {i p : Nat} (hp : h.enclosing? i = some p) : p < i := by
  induction h with
  | empty => contradiction
  | create h name level enclosing ih =>
      rw [enclosing?] at hp
      split at hp
      next hi =>
        obtain ⟨q, -, rfl⟩ := Option.map_eq_some_iff.mp hp
        exact hi ▸ q.isLt
      next => exact ih hp
  | insert h i s ih => exact ih hp

theorem outward_eq (h : ScopeHistory n) {i : Nat} (hi : i < n) :
    h.outward i = i :: (h.enclosing? i).elim [] h.outward := by
  induction h with
  | empty => contradiction
  | @create n h name level enclosing ih =>
      by_cases hlast : i = n
      · subst hlast
        rw [outward, if_pos rfl, enclosing?, if_pos rfl]
        cases enclosing with
        | none => rfl
        | some p => simp [outward, Nat.ne_of_lt p.isLt]
      · have hold := ih (by omega)
        rw [outward, if_neg hlast, hold, enclosing?, if_neg hlast]
        cases hp : h.enclosing? i with
        | none => rfl
        | some p =>
            have hlt := h.enclosing?_lt hp
            have hne : p ≠ n := by omega
            simp [outward, hne]
  | insert h i s ih => exact ih hi

theorem outward_of_le (h : ScopeHistory n) {i : Nat} (hi : n ≤ i) : h.outward i = [] := by
  induction h with
  | empty => rfl
  | create h name level enclosing ih =>
      rw [outward, if_neg (by omega)]
      exact ih (by omega)
  | insert h i s ih => exact ih hi

/-! ## The forest of a history -/

theorem size_forest (h : ScopeHistory n) : h.forest.tables.size = n := by
  induction h with
  | empty => rfl
  | create h name level enclosing ih => simp [forest, ScopeForest.add, ih]
  | insert h i s ih => simp [forest, ScopeForest.insert, ih]

/-- Each table holds what was entered into it, and knows the one that it was made in. -/
theorem records_of_mem_forest (h : ScopeHistory n) {i : Nat} {t : EnclosedTable}
    (ht : h.forest.tables[i]? = some t) :
    t.table.Records (h.entered i) ∧ t.enclosing = h.enclosing? i := by
  induction h generalizing t with
  | empty => simp [forest, ScopeForest.empty] at ht
  | create h name level enclosing ih =>
      rw [forest, ScopeForest.add, Array.getElem?_push, h.size_forest] at ht
      split at ht
      next hi =>
        cases ht
        rw [entered, if_pos hi, enclosing?, if_pos hi]
        exact ⟨ScopeTable.records_new name level, rfl⟩
      next hi =>
        rw [entered, if_neg hi, enclosing?, if_neg hi]
        exact ih ht
  | insert h j s ih =>
      rw [forest, ScopeForest.insert, Array.getElem?_modify] at ht
      split at ht
      next hi =>
        obtain ⟨t', ht', rfl⟩ := Option.map_eq_some_iff.mp ht
        obtain ⟨hrecords, henclosing⟩ := ih ht'
        rw [entered, if_pos hi.symm]
        exact ⟨hrecords.insert s, henclosing⟩
      next hi =>
        rw [entered, if_neg (Ne.symm hi)]
        exact ih ht

theorem exists_table (h : ScopeHistory n) {i : Nat} (hi : i < n) :
    ∃ t, h.forest.tables[i]? = some t ∧ t.table.Records (h.entered i) ∧
      t.enclosing = h.enclosing? i := by
  have ht := Array.getElem?_eq_getElem (h.size_forest.symm ▸ hi)
  exact ⟨_, ht, h.records_of_mem_forest ht⟩

/-- The chain from a table consists of the tables outward from it. -/
theorem forall₂_chain (h : ScopeHistory n) {i : Nat} (hi : i < n) :
    List.Forall₂ (fun t j => t.Records (h.entered j)) (h.forest.chain i) (h.outward i) := by
  induction i using Nat.strongRecOn with
  | ind i ih =>
      obtain ⟨t, ht, hrecords, henclosing⟩ := h.exists_table hi
      rw [ScopeForest.chain, ht, h.outward_eq hi]
      simp only [henclosing]
      refine .cons hrecords ?_
      cases hp : h.enclosing? i with
      | none => exact .nil
      | some p =>
          have hlt := h.enclosing?_lt hp
          simp only [hlt, if_true]
          exact ih p hlt (by omega)

/-! ## Look-ups -/

/-- The tables that a look-up from one consults, one after the other. -/
def consulted (h : ScopeHistory n) (i : Nat) (currentOnly : Bool) : List Nat :=
  if currentOnly then [i] else h.outward i

/-- A name was entered into a table. -/
def Has (h : ScopeHistory n) (j : Nat) (key : String) : Prop :=
  ∃ s ∈ h.entered j, s.key = key

/-- Of some tables, the nearest first, this is the first one that a name was entered into. -/
def IsNearest (h : ScopeHistory n) (tables : List Nat) (key : String) (j : Nat) : Prop :=
  ∃ nearer further, tables = nearer ++ j :: further ∧ h.Has j key ∧ ∀ k ∈ nearer, ¬ h.Has k key

/-- The last symbol that was entered into a table under a name. -/
def latest? (h : ScopeHistory n) (key : String) (j : Nat) : Option ScopeSymbol :=
  (h.entered j).reverse.find? (·.key = key)

theorem latest?_eq_some_iff (h : ScopeHistory n) {key : String} {j : Nat} {s : ScopeSymbol} :
    h.latest? key j = some s ↔ s.IsLastUnder key (h.entered j) :=
  ScopeSymbol.find?_reverse_eq_some_iff

theorem latest?_eq_none_iff (h : ScopeHistory n) {key : String} {j : Nat} :
    h.latest? key j = none ↔ ¬ h.Has j key := by
  rw [latest?, List.find?_eq_none, Has]
  simp

theorem lookup_of_forall₂ {h : ScopeHistory n} {chain : ScopeChain} {tables : List Nat}
    (hchain : List.Forall₂ (fun t j => t.Records (h.entered j)) chain tables) (key : String) :
    chain.lookup key = tables.findSome? (h.latest? key) := by
  induction hchain with
  | nil => rfl
  | cons hrecords _ ih =>
      rw [ScopeChain.lookup] at ih ⊢
      rw [List.findSome?_cons, List.findSome?_cons, hrecords.latest, ih]
      rfl

theorem lookup_eq_findSome? (h : ScopeHistory n) {i : Nat} (hi : i < n) (key : String)
    (currentOnly : Bool) :
    h.forest.lookup i key currentOnly = (h.consulted i currentOnly).findSome? (h.latest? key) := by
  have hchain := h.forall₂_chain hi
  cases currentOnly with
  | false => exact lookup_of_forall₂ hchain key
  | true =>
      rw [h.outward_eq hi] at hchain
      obtain ⟨t, outer, hrecords, -, houter⟩ := List.forall₂_cons_right_iff.mp hchain
      rw [ScopeForest.lookup, houter]
      exact lookup_of_forall₂ (.cons hrecords .nil) key

theorem lookup_eq_some_iff (h : ScopeHistory n) {i : Nat} (hi : i < n) {key : String}
    {currentOnly : Bool} {s : ScopeSymbol} :
    h.forest.lookup i key currentOnly = some s ↔
      ∃ j, h.IsNearest (h.consulted i currentOnly) key j ∧ s.IsLastUnder key (h.entered j) := by
  rw [h.lookup_eq_findSome? hi, List.findSome?_eq_some_iff]
  simp only [latest?_eq_some_iff, latest?_eq_none_iff]
  constructor
  · rintro ⟨nearer, j, further, hsplit, hlast, hnearer⟩
    have hmem : s ∈ h.entered j := hlast.mem
    exact ⟨j, ⟨nearer, further, hsplit, ⟨s, hmem, hlast.key_eq⟩, hnearer⟩, hlast⟩
  · rintro ⟨j, ⟨nearer, further, hsplit, -, hnearer⟩, hlast⟩
    exact ⟨nearer, j, further, hsplit, hlast, hnearer⟩

theorem lookup_eq_none_iff (h : ScopeHistory n) {i : Nat} (hi : i < n) {key : String}
    {currentOnly : Bool} :
    h.forest.lookup i key currentOnly = none ↔
      ∀ j ∈ h.consulted i currentOnly, ¬ h.Has j key := by
  rw [h.lookup_eq_findSome? hi, List.findSome?_eq_none_iff]
  simp only [latest?_eq_none_iff]

theorem mem_outward_self (h : ScopeHistory n) {i : Nat} (hi : i < n) : i ∈ h.outward i := by
  rw [h.outward_eq hi]
  exact List.mem_cons_self ..

theorem mem_outward_of_mem_consulted (h : ScopeHistory n) {i j : Nat} (hi : i < n)
    {currentOnly : Bool} (hj : j ∈ h.consulted i currentOnly) : j ∈ h.outward i := by
  rw [consulted] at hj
  split at hj
  next =>
    rw [List.mem_singleton.mp hj]
    exact h.mem_outward_self hi
  next => exact hj

/-- Two histories that entered the same into the tables outward from one give the same answers there,
whatever they did to other tables. -/
theorem lookup_congr {m : Nat} {h : ScopeHistory n} {h' : ScopeHistory m} {i : Nat} (hi : i < n)
    (houtward : h'.outward i = h.outward i)
    (hentered : ∀ j ∈ h.outward i, h'.entered j = h.entered j) (key : String)
    (currentOnly : Bool) :
    h'.forest.lookup i key currentOnly = h.forest.lookup i key currentOnly := by
  have hi' : i < m := by
    by_contra hle
    have hmem := houtward ▸ h.mem_outward_self hi
    rw [h'.outward_of_le (by omega)] at hmem
    contradiction
  have hconsulted : h'.consulted i currentOnly = h.consulted i currentOnly := by
    rw [consulted, consulted, houtward]
  have hlatest : ∀ j ∈ h.consulted i currentOnly, h'.latest? key j = h.latest? key j := by
    intro j hj
    rw [latest?, latest?, hentered j (h.mem_outward_of_mem_consulted hi hj)]
  rw [h'.lookup_eq_findSome? hi', h.lookup_eq_findSome? hi, hconsulted]
  exact findSome?_congr hlatest

/-- Whatever was done to a forest, a look-up from a table answers with the last symbol that was entered
under the name into the nearest table outward from it that has the name, or into the table itself if
only that is asked; and with nothing exactly if no table consulted has the name.  What was done to
tables that are not outward from it has no influence.  A table lists one symbol for each name that was
entered, in the order in which the names first came, each the last one under its name. -/
theorem tables_are_nested_maps (h : ScopeHistory n) (i : Fin n) :
    (∀ key currentOnly s, h.forest.lookup i key currentOnly = some s ↔
        ∃ j, h.IsNearest (h.consulted i currentOnly) key j ∧ s.IsLastUnder key (h.entered j)) ∧
      (∀ key currentOnly, h.forest.lookup i key currentOnly = none ↔
        ∀ j ∈ h.consulted i currentOnly, ¬ h.Has j key) ∧
      (∀ (m : Nat) (h' : ScopeHistory m), h'.outward i = h.outward i →
        (∀ j ∈ h.outward i, h'.entered j = h.entered j) → ∀ key currentOnly,
          h'.forest.lookup i key currentOnly = h.forest.lookup i key currentOnly) ∧
      ∃ t, h.forest.tables[i.val]? = some t ∧
        t.table.symbols.map ScopeSymbol.key = ((h.entered i).map ScopeSymbol.key).eraseDups ∧
        ∀ s ∈ t.table.symbols, s.IsLastUnder s.key (h.entered i) := by
  refine ⟨fun key currentOnly s => h.lookup_eq_some_iff i.isLt,
    fun key currentOnly => h.lookup_eq_none_iff i.isLt,
    fun m h' houtward hentered => lookup_congr i.isLt houtward hentered, ?_⟩
  obtain ⟨t, ht, hrecords, -⟩ := h.exists_table i.isLt
  exact ⟨t, ht, hrecords.keys_symbols, fun s hs => hrecords.isLastUnder_of_mem_symbols hs⟩

/-- Two tables inside a third.  The outer one gets a name when the inner ones are there, and again in
another spelling; the first inner one replaces a builtin type. -/
def ofShadowing : ScopeHistory 3 :=
  .insert (.insert (.insert
    (.create (.create (.create .empty "global" 1 none) "alpha" 2 (some 0)) "beta" 2 (some 0))
    0 (.variable ⟨"Total", .real, 1⟩)) 1 (.variable ⟨"Integer", .real, 2⟩))
    0 (.variable ⟨"TOTAL", .integer, 1⟩)

/-- An inner table sees what is entered into the outer one later, in its last form and under its
canonical name only, and not what is entered into its neighbour. -/
theorem tables_are_nested_maps_when_shadowed :
    ofShadowing.forest.lookup 1 "total" false = some (.variable ⟨"TOTAL", .integer, 1⟩) ∧
      ofShadowing.forest.lookup 1 "integer" false = some (.variable ⟨"Integer", .real, 2⟩) ∧
      ofShadowing.forest.lookup 1 "Total" false = none ∧
      (ofShadowing.insert 2 (.variable ⟨"total", .real, 2⟩)).forest.lookup 1 "total" false =
        ofShadowing.forest.lookup 1 "total" false ∧
      ∃ t, ofShadowing.forest.tables[0]? = some t ∧
        t.table.symbols.map ScopeSymbol.key = ["integer", "real", "total"] := by
  obtain ⟨hfound, hnone, hother, -⟩ := tables_are_nested_maps ofShadowing 1
  obtain ⟨-, -, -, t, ht, hsymbols, -⟩ := tables_are_nested_maps ofShadowing 0
  refine ⟨?_, ?_, ?_, ?_, t, ht, hsymbols.trans (by decide +kernel)⟩
  · have habsent : ∀ s ∈ ofShadowing.entered 1, s.key ≠ "total" := by decide +kernel
    refine (hfound ..).mpr ⟨0, ⟨[1], [], by decide, ?_, by simpa [Has] using habsent⟩, ?_⟩
    · exact ⟨.variable ⟨"TOTAL", .integer, 1⟩, by decide, by decide +kernel⟩
    · exact ⟨ScopeTable.builtins ++ [.variable ⟨"Total", .real, 1⟩], [], by decide,
        by decide +kernel, by simp⟩
  · refine (hfound ..).mpr ⟨1, ⟨[], [0], by decide, ?_, by simp⟩, ?_⟩
    · exact ⟨.builtinType .integer, by decide, by decide +kernel⟩
    · exact ⟨ScopeTable.builtins, [], by decide, by decide +kernel, by simp⟩
  · have habsent : ∀ j ∈ ofShadowing.consulted 1 false, ∀ s ∈ ofShadowing.entered j,
        s.key ≠ "Total" := by decide +kernel
    exact (hnone ..).mpr fun j hj => by simpa [Has] using habsent j hj
  · have hentered : ∀ j ∈ ofShadowing.outward 1,
        (ofShadowing.insert 2 (.variable ⟨"total", .real, 2⟩)).entered j =
          ofShadowing.entered j := by decide
    exact hother 3 (ofShadowing.insert 2 (.variable ⟨"total", .real, 2⟩)) rfl hentered "total" false

end ScopeHistory

end NestedPascal
