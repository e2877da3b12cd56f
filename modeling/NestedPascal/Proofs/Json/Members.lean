import Mathlib.Data.List.Induction
import NestedPascal.Json.Reader

/-!
# Members of an object

An object that is read has, under each name, the value that its text gives last.
-/

namespace NestedPascal

theorem Register.lookup_foldl_set {κ α : Type} [DecidableEq κ] (key : κ) (listed : List (κ × α))
    (before : Register κ α) :
    Register.lookup key (listed.foldl (fun r m => r.set m.1 m.2) before).entries =
      ((listed.filter (·.1 = key)).getLast?.map (·.2)).or (before.get? key) := by
  induction listed using List.reverseRecOn with
  | nil => rfl
  | append_singleton listed m ih =>
      rw [List.foldl_append, List.foldl_cons, List.foldl_nil, List.filter_append]
      change (Register.set _ m.1 m.2).get? key = _
      rw [Register.get?_set]
      by_cases hkey : m.1 = key
      · simp [hkey]
      · rw [if_neg hkey]
        change Register.lookup key _ = _
        simp [hkey, ih]

theorem map_eq_ok {ε α β : Type} {f : α → β} {x : Except ε α} {b : β} (h : x.map f = .ok b) :
    ∃ a, x = .ok a ∧ f a = b := by
  cases x with
  | error e => contradiction
  | ok a => exact ⟨a, rfl, Except.ok.inj h⟩

namespace Json

/-- The last of the listed values under a name. -/
def lastListed (name : String) (listed : List (Text × Json)) : Option Json :=
  (listed.filter (·.1 = Text.ofString name)).getLast?.map (·.2)

theorem member?_settle (name : String) (listed : List (Text × Json)) :
    member? name (settle listed) = lastListed name listed := by
  rw [member?, settle, Register.lookup_foldl_set]
  exact Option.or_none

/-- The members that a text lists, up to the closing brace. -/
inductive Lists (cs : List Char) : List (Text × Json) → Prop where
  | none {rest : List Char} (h : skipSpace cs = '\x7d' :: rest) : Lists cs []
  | some {r : Read (List (Text × Json)) cs.length} (h : readMembers .memberOrBrace cs = .ok r) :
      Lists cs r.value

theorem number_of_readMagnitude {negative : Bool} {cs : List Char} {r : Read Json cs.length}
    (h : readMagnitude negative cs = .ok r) : ∃ x, r.value = .number x := by
  unfold readMagnitude at h
  split at h
  next => contradiction
  next =>
    split at h
    next => contradiction
    next =>
      split at h
      next => contradiction
      next =>
        split at h
        next => contradiction
        next =>
          cases h
          exact ⟨_, rfl⟩

theorem value_of_readWord {word cs : List Char} {value : Json} {r : Read Json cs.length}
    (h : readWord word value cs = .ok r) : r.value = value := by
  unfold readWord at h
  split at h
  next =>
    cases h
    rfl
  next => contradiction

/-- An object in a text has the members that the text lists, each name once. -/
theorem lists_of_readValue {cs : List Char} {r : Read Json cs.length}
    {members : List (Text × Json)} (h : readValue cs = .ok r) (hobject : r.value = .object members) :
    ∃ rest listed, cs = '\x7b' :: rest ∧ Lists rest listed ∧ members = settle listed := by
  unfold readValue at h
  split at h
  next =>
    obtain ⟨text, -, rfl⟩ := map_eq_ok h
    contradiction
  next =>
    split at h
    next =>
      cases h
      contradiction
    next =>
      obtain ⟨items, -, rfl⟩ := map_eq_ok h
      contradiction
  next rest =>
    split at h
    next hempty =>
      cases h
      cases hobject
      exact ⟨rest, [], rfl, .none hempty, rfl⟩
    next =>
      obtain ⟨listed, hlisted, rfl⟩ := map_eq_ok h
      cases hobject
      exact ⟨rest, listed.value, rfl, .some hlisted, rfl⟩
  next =>
    obtain ⟨number, hnumber, rfl⟩ := map_eq_ok h
    obtain ⟨x, hx⟩ := number_of_readMagnitude hnumber
    rw [Read.weaken, hx] at hobject
    contradiction
  next =>
    rw [value_of_readWord h] at hobject
    contradiction
  next =>
    rw [value_of_readWord h] at hobject
    contradiction
  next =>
    rw [value_of_readWord h] at hobject
    contradiction
  next =>
    obtain ⟨x, hx⟩ := number_of_readMagnitude h
    rw [hx] at hobject
    contradiction

theorem readValue_of_read {cs : List Char} {root : Json} (h : read cs = .ok root) :
    ∃ r, readValue (skipSpace cs) = .ok r ∧ r.value = root := by
  rw [read, readWhole] at h
  cases hvalue : readValue (skipSpace cs) with
  | error e =>
      rw [hvalue] at h
      contradiction
  | ok r =>
      simp only [hvalue] at h
      split at h
      next =>
        cases h
        exact ⟨r, rfl, rfl⟩
      next => contradiction

end Json

end NestedPascal
