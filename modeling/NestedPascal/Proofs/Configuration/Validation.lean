import NestedPascal.Config
import NestedPascal.Proofs.Binary64.Integers
import NestedPascal.Proofs.Run.Evaluation

/-!
# What a configuration must satisfy

The checks of a configuration, stated for each place apart from the function that makes them.  It
accepts a value exactly if every check is passed where there is something, and what it then yields is
what is given at the places.  Otherwise it reports the first place where a check fails, and of that
the first check.
-/

namespace NestedPascal

/-- The first element of a list that has a property. -/
def FirstWith {α : Type} (P : α → Prop) (l : List α) (a : α) : Prop :=
  ∃ before after, l = before ++ a :: after ∧ (∀ b ∈ before, ¬ P b) ∧ P a

/-- One requirement on a value. -/
inductive ConfigCheck where
  | object
  | number
  | integer
  | positive

namespace ConfigCheck

/-- Integrality and sign are required of numbers only. -/
def Passes : ConfigCheck → Json → Prop
  | object, v => ∃ members, v = .object members
  | number, v => ∃ x, v = .number x
  | integer, v => ∀ x, v = .number x → ∃ n, x.toInt? = some n
  | positive, v => ∀ x, v = .number x → (Binary64.zero false).lt x = true

/-- What is said of a value that does not pass. -/
def fault : ConfigCheck → Json → ConfigFault
  | object, v => .type "object" v.typeName
  | number, v => .type "number" v.typeName
  | integer, _ => .notInteger
  | positive, _ => .notPositive

end ConfigCheck

namespace ConfigPlace

def all : List ConfigPlace :=
  [root, version, limits, maxCallDepth]

/-- The value at a place, if there is one. -/
def find? (config : Json) : ConfigPlace → Option Json
  | root => some config
  | version => member? "version" config
  | limits => member? "limits" config
  | maxCallDepth => (member? "limits" config).bind (member? "maxCallDepth")
where
  member? (name : String) : Json → Option Json
    | .object members => Json.member? name members
    | _ => none

def checks : ConfigPlace → List ConfigCheck
  | root | limits => [.object]
  | version | maxCallDepth => [.number, .integer, .positive]

/-- There is a value at the place, and it fails a check. -/
def Fails (config : Json) (place : ConfigPlace) : Prop :=
  ∃ v check, place.find? config = some v ∧ check ∈ place.checks ∧ ¬ check.Passes v

/-- The place has the given integer or, where nothing is, the other one. -/
def Gives (config : Json) (place : ConfigPlace) (absent n : Nat) : Prop :=
  (place.find? config = none ∧ n = absent) ∨
    ∃ x, place.find? config = some (.number x) ∧ x.toInt? = some (n : Int) ∧ 0 < n

end ConfigPlace

namespace Config

/-- The configuration keeps all checks and has the values of the text. -/
structure Accepts (root : Json) (c : Config) : Prop where
  checks : ∀ place, ¬ ConfigPlace.Fails root place
  version : ConfigPlace.version.Gives root 1 c.version
  maxCallDepth : ConfigPlace.maxCallDepth.Gives root 512 c.maxCallDepth

/-- The first place that fails, what is there, and the first check that fails on it. -/
structure FirstFailure (root : Json) (place : ConfigPlace) (v : Json) (check : ConfigCheck) :
    Prop where
  firstPlace : FirstWith (ConfigPlace.Fails root) ConfigPlace.all place
  value : place.find? root = some v
  firstCheck : FirstWith (fun c => ¬ c.Passes v) place.checks check

end Config

/-! ## The checks of a number -/

namespace ConfigPlace

variable {root : Json} {place : ConfigPlace} {absent n : Nat}

theorem find?_maxCallDepth_of_none (h : limits.find? root = none) :
    maxCallDepth.find? root = none := by
  change (limits.find? root).bind _ = _
  rw [h, Option.bind_none]

theorem find?_maxCallDepth_of_object {members : List (Text × Json)}
    (h : limits.find? root = some (.object members)) :
    maxCallDepth.find? root = Json.member? "maxCallDepth" members := by
  change (limits.find? root).bind _ = _
  rw [h, Option.bind_some]
  rfl

theorem not_fails_of_none (h : place.find? root = none) : ¬ place.Fails root := by
  rintro ⟨v, check, hv, -⟩
  rw [h] at hv
  contradiction

theorem not_fails_of_object {members : List (Text × Json)} (hchecks : place.checks = [.object])
    (h : place.find? root = some (.object members)) : ¬ place.Fails root := by
  rintro ⟨v, check, hv, hmem, hfails⟩
  rw [h] at hv
  cases hv
  rw [hchecks, List.mem_singleton] at hmem
  subst hmem
  exact hfails ⟨members, rfl⟩

theorem fails_of_first {v : Json} {check : ConfigCheck} (hv : place.find? root = some v)
    (h : FirstWith (fun c => ¬ c.Passes v) place.checks check) : place.Fails root := by
  obtain ⟨before, after, heq, -, hfails⟩ := h
  exact ⟨v, check, hv, heq ▸ List.mem_append_right _ List.mem_cons_self, hfails⟩

theorem first_object {v : Json} (hchecks : place.checks = [.object])
    (h : ∀ members, v ≠ .object members) :
    FirstWith (fun c => ¬ c.Passes v) place.checks .object := by
  rw [hchecks]
  exact ⟨[], [], rfl, by simp, fun ⟨members, hobject⟩ => h members hobject⟩

theorem Gives.unique {m : Nat} (hn : place.Gives root absent n) (hm : place.Gives root absent m) :
    n = m := by
  rcases hn with ⟨hnone, rfl⟩ | ⟨x, hx, hn, -⟩ <;> rcases hm with ⟨hnone', rfl⟩ | ⟨y, hy, hm, -⟩
  · rfl
  · rw [hnone] at hy
    contradiction
  · rw [hnone'] at hx
    contradiction
  · rw [hx] at hy
    cases hy
    rw [hn] at hm
    exact Int.ofNat.inj (Option.some.inj hm)

theorem Gives.toInt?_ofInt (h : place.Gives root absent n) (habsent : absent ≤ 2 ^ 53) :
    (Binary64.ofInt n).toInt? = some (n : Int) := by
  rcases h with ⟨-, rfl⟩ | ⟨x, -, hx, -⟩
  · exact Binary64.toInt?_ofInt habsent
  · exact Binary64.toInt?_ofInt_of_toInt? hx

theorem Gives.positive (h : place.Gives root absent n) (habsent : 0 < absent) : 0 < n := by
  rcases h with ⟨-, rfl⟩ | ⟨x, -, -, hn⟩
  · exact habsent
  · exact hn

end ConfigPlace

namespace Config

variable {root : Json} {place : ConfigPlace} {absent n : Nat} {cause : ConfigCause}

/-- A number that is accepted is the one given, and no check fails at its place. -/
theorem positive_ok (hchecks : place.checks = [.number, .integer, .positive])
    (h : positive place absent (place.find? root) = .ok n) :
    place.Gives root absent n ∧ ¬ place.Fails root := by
  unfold positive at h
  split at h
  next hnone =>
    cases h
    exact ⟨.inl ⟨hnone, rfl⟩, ConfigPlace.not_fails_of_none hnone⟩
  next x hx =>
    split at h
    next => contradiction
    next m hm =>
      split at h
      next hpositive =>
        cases h
        have hnat : x.toInt? = some (m.toNat : Int) := by rw [hm, Int.toNat_of_nonneg (by omega)]
        refine ⟨.inr ⟨x, hx, hnat, by omega⟩, ?_⟩
        rintro ⟨v, check, hv, hmem, hfails⟩
        rw [hx] at hv
        cases hv
        rw [hchecks] at hmem
        apply hfails
        simp only [List.mem_cons, List.not_mem_nil, or_false] at hmem
        rcases hmem with rfl | rfl | rfl
        · exact ⟨x, rfl⟩
        · rintro y hy
          cases hy
          exact ⟨m, hm⟩
        · rintro y hy
          cases hy
          exact (Binary64.zero_lt_iff_of_toInt? hm).mpr hpositive
      next => contradiction
  next => contradiction

/-- A number that is not accepted fails a check, and the cause names the first. -/
theorem positive_error (hchecks : place.checks = [.number, .integer, .positive])
    (h : positive place absent (place.find? root) = .error cause) :
    ∃ v check, place.find? root = some v ∧
      FirstWith (fun c => ¬ c.Passes v) place.checks check ∧
      cause = .invalid place (check.fault v) := by
  rw [hchecks]
  unfold positive at h
  split at h
  next => contradiction
  next x hx =>
    have hnumber : ConfigCheck.number.Passes (.number x) := ⟨x, rfl⟩
    split at h
    next hnone =>
      cases h
      refine ⟨.number x, .integer, hx, ⟨[.number], [.positive], rfl, ?_, ?_⟩, rfl⟩
      · simpa using hnumber
      · intro hpasses
        obtain ⟨n, hn⟩ := hpasses x rfl
        rw [hnone] at hn
        contradiction
    next m hm =>
      split at h
      next => contradiction
      next hsign =>
        cases h
        refine ⟨.number x, .positive, hx, ⟨[.number, .integer], [], rfl, ?_, ?_⟩, rfl⟩
        · have hinteger : ConfigCheck.integer.Passes (.number x) := by
            rintro y hy
            cases hy
            exact ⟨m, hm⟩
          simpa using ⟨hnumber, hinteger⟩
        · exact fun hpasses => hsign ((Binary64.zero_lt_iff_of_toInt? hm).mp (hpasses x rfl))
  next v hnumber hv =>
    cases h
    refine ⟨v, .number, hv, ⟨[], [.integer, .positive], rfl, by simp, ?_⟩, rfl⟩
    rintro ⟨x, rfl⟩
    exact hnumber x rfl

theorem depthOfLimits_ok (h : depthOfLimits (ConfigPlace.limits.find? root) = .ok n) :
    ConfigPlace.maxCallDepth.Gives root 512 n ∧ ¬ ConfigPlace.limits.Fails root ∧
      ¬ ConfigPlace.maxCallDepth.Fails root := by
  unfold depthOfLimits at h
  split at h
  next hlimits =>
    have hdepth := ConfigPlace.find?_maxCallDepth_of_none hlimits
    cases h
    exact ⟨.inl ⟨hdepth, rfl⟩, ConfigPlace.not_fails_of_none hlimits,
      ConfigPlace.not_fails_of_none hdepth⟩
  next limits hlimits =>
    rw [← ConfigPlace.find?_maxCallDepth_of_object hlimits] at h
    obtain ⟨hgives, hkeeps⟩ := positive_ok rfl h
    exact ⟨hgives, ConfigPlace.not_fails_of_object rfl hlimits, hkeeps⟩
  next => contradiction

theorem depthOfLimits_error (h : depthOfLimits (ConfigPlace.limits.find? root) = .error cause) :
    ∃ place v check, FirstWith (ConfigPlace.Fails root) [.limits, .maxCallDepth] place ∧
      place.find? root = some v ∧ FirstWith (fun c => ¬ c.Passes v) place.checks check ∧
      cause = .invalid place (check.fault v) := by
  unfold depthOfLimits at h
  split at h
  next => contradiction
  next limits hlimits =>
    rw [← ConfigPlace.find?_maxCallDepth_of_object hlimits] at h
    obtain ⟨v, check, hv, hfirst, hcause⟩ := positive_error rfl h
    refine ⟨.maxCallDepth, v, check, ⟨[.limits], [], rfl, ?_, ?_⟩, hv, hfirst, hcause⟩
    · simpa using ConfigPlace.not_fails_of_object rfl hlimits
    · exact ConfigPlace.fails_of_first hv hfirst
  next v hobject hv =>
    cases h
    have hfirst : FirstWith (fun c => ¬ c.Passes v) ConfigPlace.limits.checks .object :=
      ConfigPlace.first_object rfl hobject
    exact ⟨.limits, v, .object, ⟨[], [.maxCallDepth], rfl, by simp,
      ConfigPlace.fails_of_first hv hfirst⟩, hv, hfirst, rfl⟩

theorem ofJson_object (members : List (Text × Json)) :
    ofJson (.object members) = (do
      let version ← positive .version Config.default.version
        (ConfigPlace.version.find? (.object members))
      let maxCallDepth ← depthOfLimits (ConfigPlace.limits.find? (.object members))
      .ok ⟨version, maxCallDepth⟩) :=
  rfl

theorem ofJson_ok {c : Config} (h : ofJson root = .ok c) : Accepts root c := by
  cases root with
  | object members =>
      rw [ofJson_object] at h
      obtain ⟨version, hversion, h⟩ := bind_eq_ok_iff.mp h
      obtain ⟨maxCallDepth, hdepth, h⟩ := bind_eq_ok_iff.mp h
      cases h
      obtain ⟨hgives, hkeeps⟩ := positive_ok rfl hversion
      obtain ⟨hgives', hlimits, hkeeps'⟩ := depthOfLimits_ok hdepth
      refine ⟨fun place => ?_, hgives, hgives'⟩
      cases place with
      | root => exact ConfigPlace.not_fails_of_object rfl rfl
      | version => exact hkeeps
      | limits => exact hlimits
      | maxCallDepth => exact hkeeps'
  | _ => contradiction

theorem ofJson_error (h : ofJson root = .error cause) :
    ∃ place v check, FirstFailure root place v check ∧ cause = .invalid place (check.fault v) := by
  by_cases hobject : ∃ members, root = .object members
  · obtain ⟨members, rfl⟩ := hobject
    rw [ofJson_object] at h
    have hroot : ¬ ConfigPlace.root.Fails (.object members) :=
      ConfigPlace.not_fails_of_object rfl rfl
    rcases bind_eq_error_iff.mp h with hversion | ⟨version, hversion, h⟩
    · obtain ⟨v, check, hv, hfirst, hcause⟩ := positive_error rfl hversion
      refine ⟨.version, v, check,
        ⟨⟨[.root], [.limits, .maxCallDepth], rfl, ?_, ?_⟩, hv, hfirst⟩, hcause⟩
      · simpa using hroot
      · exact ConfigPlace.fails_of_first hv hfirst
    · have hkeeps := (positive_ok rfl hversion).2
      rcases bind_eq_error_iff.mp h with hdepth | ⟨_, -, h⟩
      · obtain ⟨place, v, check, ⟨before, after, heq, hbefore, hfails⟩, hv, hfirst, hcause⟩ :=
          depthOfLimits_error hdepth
        refine ⟨place, v, check,
          ⟨⟨.root :: .version :: before, after, ?_, ?_, hfails⟩, hv, hfirst⟩, hcause⟩
        · rw [List.cons_append, List.cons_append, ← heq, ConfigPlace.all]
        · simpa using ⟨hroot, hkeeps, hbefore⟩
      · contradiction
  · have hcause : cause = .invalid .root (.type "object" root.typeName) := by
      cases root with
      | object members => exact absurd ⟨members, rfl⟩ hobject
      | _ => cases h; rfl
    have hfirst : FirstWith (fun c => ¬ c.Passes root) ConfigPlace.root.checks .object :=
      ConfigPlace.first_object rfl fun members heq => hobject ⟨members, heq⟩
    exact ⟨.root, root, .object, ⟨⟨[], [.version, .limits, .maxCallDepth], rfl, by simp,
      ConfigPlace.fails_of_first rfl hfirst⟩, rfl, hfirst⟩, hcause⟩

/-- A value is accepted exactly if all checks are passed, and then as the configuration it gives. -/
theorem ofJson_ok_iff {c : Config} : ofJson root = .ok c ↔ Accepts root c := by
  refine ⟨ofJson_ok, fun haccepts => ?_⟩
  cases h : ofJson root with
  | ok d =>
      have hd := ofJson_ok h
      obtain ⟨version, maxCallDepth⟩ := c
      obtain ⟨version', maxCallDepth'⟩ := d
      have hversion := hd.version.unique haccepts.version
      have hdepth := hd.maxCallDepth.unique haccepts.maxCallDepth
      simp_all
  | error cause =>
      obtain ⟨place, -, -, ⟨⟨-, -, -, -, hfails⟩, -, -⟩, -⟩ := ofJson_error h
      exact absurd hfails (haccepts.checks place)

end Config

/-! ## Unknown names -/

namespace Config

/-- The members of the given names. -/
def keep (names : List String) (members : List (Text × Json)) : List (Text × Json) :=
  members.filter fun m => m.1 ∈ names.map Text.ofString

/-- The limits without the members that no check looks at. -/
def knownLimits : Json → Json
  | .object limits => .object (keep ["maxCallDepth"] limits)
  | v => v

/-- What checks look at in a member of the configuration. -/
def knownValue (name : Text) (v : Json) : Json :=
  if name = Text.ofString "limits" then knownLimits v else v

/-- The configuration without the members that no check looks at. -/
def known : Json → Json
  | .object members =>
    .object ((keep ["version", "limits"] members).map fun m => (m.1, knownValue m.1 m.2))
  | v => v

theorem lookup_filter {α : Type} {key : Text} {keys : List Text} (hkey : key ∈ keys)
    (entries : List (Text × α)) :
    Register.lookup key (entries.filter fun m => m.1 ∈ keys) = Register.lookup key entries := by
  induction entries with
  | nil => rfl
  | cons e rest ih =>
      by_cases hmem : e.1 ∈ keys
      · rw [List.filter_cons_of_pos (by simpa using hmem), Register.lookup, Register.lookup, ih]
      · have hne : e.1 ≠ key := fun heq => hmem (heq ▸ hkey)
        rw [List.filter_cons_of_neg (by simpa using hmem), Register.lookup, if_neg hne, ih]

theorem lookup_map_value {α β : Type} (key : Text) (f : Text → α → β) (entries : List (Text × α)) :
    Register.lookup key (entries.map fun m => (m.1, f m.1 m.2)) =
      (Register.lookup key entries).map (f key) := by
  induction entries with
  | nil => rfl
  | cons e rest ih =>
      rw [List.map_cons, Register.lookup, Register.lookup, ih]
      split
      next heq => rw [← heq, Option.map_some]
      next => rfl

theorem member?_known (name : String) (hname : name ∈ ["version", "limits"])
    (members : List (Text × Json)) :
    Json.member? name
        ((keep ["version", "limits"] members).map fun m => (m.1, knownValue m.1 m.2)) =
      (Json.member? name members).map (knownValue (Text.ofString name)) := by
  rw [Json.member?, lookup_map_value, keep, lookup_filter (List.mem_map_of_mem hname), Json.member?]

theorem depthOfLimits_known (limits : Option Json) :
    depthOfLimits (limits.map knownLimits) = depthOfLimits limits := by
  cases limits with
  | none => rfl
  | some v =>
      cases v with
      | object members =>
          have hmember : Json.member? "maxCallDepth" (keep ["maxCallDepth"] members) =
              Json.member? "maxCallDepth" members := lookup_filter (by simp) members
          simp only [Option.map_some, knownLimits, depthOfLimits, hmember]
      | _ => rfl

/-- Members that no check looks at change nothing. -/
theorem ofJson_known (root : Json) : ofJson (known root) = ofJson root := by
  cases root with
  | object members =>
      have hversion : knownValue (Text.ofString "version") = id := by
        funext v
        exact if_neg (by decide)
      have hlimits : knownValue (Text.ofString "limits") = knownLimits := by
        funext v
        exact if_pos rfl
      rw [known, ofJson, ofJson, member?_known "version" (by simp), hversion, Option.map_id, id,
        member?_known "limits" (by simp), hlimits, depthOfLimits_known]
  | _ => rfl

end Config

end NestedPascal
