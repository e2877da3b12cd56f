import Mathlib.Data.List.Induction
import Mathlib.Data.List.Nodup
import NestedPascal.Register

/-!
# What registers hold

A register in which no key stands twice has exactly the entries that it is asked for.  The keys of
such a register are a list without repetitions, each key at the place where it was first set.
-/

namespace NestedPascal

/-! ## Each name once -/

section EachOnce

variable {α : Type}

theorem eraseDups_concat [DecidableEq α] [BEq α] [LawfulBEq α] (xs : List α) (x : α) :
    (xs ++ [x]).eraseDups = if x ∈ xs then xs.eraseDups else xs.eraseDups ++ [x] := by
  by_cases hmem : x ∈ xs <;>
    simp [List.eraseDups_append, List.removeAll, hmem, List.eraseDups_cons]

theorem nodup_eraseDups [BEq α] [LawfulBEq α] (xs : List α) : xs.eraseDups.Nodup := by
  classical
  induction xs using List.reverseRecOn with
  | nil => simp
  | append_singleton xs x ih =>
      rw [eraseDups_concat]
      split
      next => exact ih
      next hmem =>
        rw [← List.concat_eq_append]
        exact ih.concat fun hx => hmem (List.mem_eraseDups.mp hx)

end EachOnce

/-! ## Entries and what they are found under -/

namespace Register

variable {κ α : Type} [DecidableEq κ] {r : Register κ α} {key : κ} {value : α}

theorem mem_replace {entries : List (κ × α)} {entry : κ × α}
    (h : entry ∈ replace key value entries) : entry = (key, value) ∨ entry ∈ entries := by
  induction entries with
  | nil => exact .inl (List.mem_singleton.mp h)
  | cons first rest ih =>
      rw [replace] at h
      split at h
      next hkey =>
        rcases List.mem_cons.mp h with heq | hrest
        · exact .inl (hkey ▸ heq)
        · exact .inr (List.mem_cons_of_mem _ hrest)
      next =>
        rcases List.mem_cons.mp h with heq | hrest
        · exact .inr (heq ▸ List.mem_cons_self ..)
        · exact (ih hrest).imp_right (List.mem_cons_of_mem _)

theorem get?_of_mem (hkeys : (r.entries.map Prod.fst).Nodup) (h : (key, value) ∈ r.entries) :
    r.get? key = some value := by
  obtain ⟨entries⟩ := r
  rw [get?]
  induction entries with
  | nil => contradiction
  | cons first rest ih =>
      obtain ⟨hfresh, hrest⟩ := List.nodup_cons.mp hkeys
      rw [lookup]
      rcases List.mem_cons.mp h with rfl | hmem
      · exact if_pos rfl
      · have hne : first.1 ≠ key := by
          intro heq
          exact hfresh (heq ▸ List.mem_map_of_mem hmem)
        rw [if_neg hne]
        exact ih hrest hmem

theorem mem_of_get? (h : r.get? key = some value) : (key, value) ∈ r.entries := by
  obtain ⟨entries⟩ := r
  rw [get?] at h
  induction entries with
  | nil => contradiction
  | cons first rest ih =>
      rw [lookup] at h
      split at h
      next hkey =>
        cases h
        exact hkey ▸ List.mem_cons_self ..
      next => exact List.mem_cons_of_mem _ (ih h)

/-! ## Registers given by a function of the key -/

theorem replace_map (key : κ) (value : α) {keys : List κ} (hkeys : keys.Nodup) (f : κ → α) :
    replace key value (keys.map fun k => (k, f k)) =
      (if key ∈ keys then keys else keys ++ [key]).map fun k =>
        (k, if k = key then value else f k) := by
  induction keys with
  | nil => simp [replace]
  | cons k keys ih =>
      obtain ⟨hk, hrest⟩ := List.nodup_cons.mp hkeys
      by_cases heq : k = key
      · subst heq
        have hsame : ∀ k' ∈ keys, k' ≠ k := fun k' hk' h => hk (h ▸ hk')
        simpa [replace] using fun k' hk' h => absurd h (hsame k' hk')
      · have hne : key ≠ k := fun h => heq h.symm
        rw [List.map_cons, replace, if_neg heq, ih hrest]
        by_cases hmem : key ∈ keys <;> simp [hmem, heq, hne]

theorem lookup_map (key : κ) (keys : List κ) (f : κ → α) :
    lookup key (keys.map fun k => (k, f k)) = if key ∈ keys then some (f key) else none := by
  induction keys with
  | nil => simp [lookup]
  | cons k keys ih =>
      by_cases heq : k = key
      · simp [lookup, heq]
      · have hne : key ≠ k := fun h => heq h.symm
        simp [lookup, heq, hne, ih]

end Register

end NestedPascal
