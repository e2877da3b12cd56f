/-!
# Registers

A register keeps values under keys, in the order in which the keys were first set.  Setting a key
again replaces its value and keeps its place.
-/

namespace NestedPascal

structure Register (κ α : Type) where
  entries : List (κ × α)
deriving DecidableEq

namespace Register

variable {κ α β : Type}

def empty : Register κ α := ⟨[]⟩

instance : Inhabited (Register κ α) := ⟨empty⟩

def size (r : Register κ α) : Nat :=
  r.entries.length

def values (r : Register κ α) : List α :=
  r.entries.map (·.2)

variable [DecidableEq κ]

def lookup (key : κ) : List (κ × α) → Option α
  | [] => none
  | (k, v) :: rest => if k = key then some v else lookup key rest

def get? (r : Register κ α) (key : κ) : Option α :=
  lookup key r.entries

def replace (key : κ) (value : α) : List (κ × α) → List (κ × α)
  | [] => [(key, value)]
  | (k, v) :: rest => if k = key then (k, value) :: rest else (k, v) :: replace key value rest

def set (r : Register κ α) (key : κ) (value : α) : Register κ α :=
  ⟨replace key value r.entries⟩

theorem lookup_replace (key key' : κ) (value : α) (entries : List (κ × α)) :
    lookup key' (replace key value entries) =
      if key = key' then some value else lookup key' entries := by
  induction entries with
  | nil => simp [replace, lookup]
  | cons e rest ih =>
    obtain ⟨k, v⟩ := e
    by_cases hk : k = key <;> by_cases hk' : k = key' <;> by_cases h : key = key' <;>
      simp_all [replace, lookup]

theorem get?_set (r : Register κ α) (key key' : κ) (value : α) :
    (r.set key value).get? key' = if key = key' then some value else r.get? key' :=
  lookup_replace key key' value r.entries

theorem keys_replace (key : κ) (value : α) (entries : List (κ × α)) :
    (replace key value entries).map (·.1) =
      if key ∈ entries.map (·.1) then entries.map (·.1) else entries.map (·.1) ++ [key] := by
  induction entries with
  | nil => simp [replace]
  | cons e rest ih =>
    obtain ⟨k, v⟩ := e
    by_cases hk : k = key
    · simp [replace, hk]
    · simp only [replace, hk, if_false, List.map_cons, ih, List.mem_cons, Ne.symm hk, false_or]
      split <;> simp

end Register

end NestedPascal
