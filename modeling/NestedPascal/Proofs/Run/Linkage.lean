import Mathlib.Data.List.Infix
import NestedPascal.Run.CallStack
import NestedPascal.Scope.Symbol

/-!
# How frames are linked

Each frame of a stack runs the block of a declaration, and its link leads to the nearest frame below
it that runs the block around that declaration.  Nearest says more than most recent: in between no
frame runs a block around that one either.  That is what lets links be followed one after another,
from the top to the most recent activation of each block around the one that runs there.
-/

namespace NestedPascal

/-- The topmost place under a bound whose frame runs the block of a declaration. -/
def MostRecent (declarations : List DeclarationPath) (d : DeclarationPath) (bound k : Nat) : Prop :=
  k < bound ∧ declarations[k]? = some d ∧ ∀ j, k < j → j < bound → declarations[j]? ≠ some d

/-- Above that place and under the bound no frame runs the block of the declaration or one around
it. -/
def Nearest (declarations : List DeclarationPath) (d : DeclarationPath) (bound k : Nat) : Prop :=
  k < bound ∧ declarations[k]? = some d ∧
    ∀ j, k < j → j < bound → ∀ b, declarations[j]? = some b → ¬ b <+: d

theorem Nearest.mostRecent {declarations : List DeclarationPath} {d : DeclarationPath}
    {bound k : Nat} (h : Nearest declarations d bound k) : MostRecent declarations d bound k := by
  obtain ⟨hbound, hget, hbetween⟩ := h
  refine ⟨hbound, hget, ?_⟩
  intro j hkj hj hd
  exact hbetween j hkj hj d hd List.prefix_rfl

theorem Nearest.append {declarations : List DeclarationPath} {d : DeclarationPath} {bound k : Nat}
    (h : Nearest declarations d bound k) (hbound : bound ≤ declarations.length)
    (more : List DeclarationPath) : Nearest (declarations ++ more) d bound k := by
  obtain ⟨hk, hget, hbetween⟩ := h
  refine ⟨hk, ?_, ?_⟩
  · rw [List.getElem?_append_left (by omega)]
    exact hget
  · intro j hkj hj b hb
    rw [List.getElem?_append_left (by omega)] at hb
    exact hbetween j hkj hj b hb

theorem Nearest.of_append {declarations : List DeclarationPath} {d : DeclarationPath}
    {bound k : Nat} {more : List DeclarationPath} (h : Nearest (declarations ++ more) d bound k)
    (hbound : bound ≤ declarations.length) : Nearest declarations d bound k := by
  obtain ⟨hk, hget, hbetween⟩ := h
  refine ⟨hk, ?_, ?_⟩
  · rw [List.getElem?_append_left (by omega)] at hget
    exact hget
  · intro j hkj hj b hb
    refine hbetween j hkj hj b ?_
    rw [List.getElem?_append_left (by omega)]
    exact hb

/-! ## Frames beside declarations -/

namespace CallStack

variable {stack : CallStack (Frame Nat)} {declarations : List DeclarationPath} {d e : DeclarationPath}
  {f g : Frame Nat} {i : Nat}

theorem frame_of_set {place : Nat} {name : String} {value : Value}
    (hg : (stack.set place name value).frames[i]? = some g) :
    ∃ f, stack.frames[i]? = some f ∧ (i = place ∧ g = f.set name value ∨ i ≠ place ∧ g = f) := by
  simp only [set, Array.getElem?_modify] at hg
  split at hg
  next hplace =>
    obtain ⟨f, hf, rfl⟩ := Option.map_eq_some_iff.mp hg
    exact ⟨f, hf, .inl ⟨hplace.symm, rfl⟩⟩
  next hplace => exact ⟨g, hg, .inr ⟨Ne.symm hplace, rfl⟩⟩

theorem frame_of_push (hdepth : stack.depth = declarations.length)
    (hg : (stack.push f).frames[i]? = some g) (he : (declarations ++ [d])[i]? = some e) :
    i = declarations.length ∧ g = f ∧ e = d ∨
      stack.frames[i]? = some g ∧ declarations[i]? = some e := by
  rw [depth] at hdepth
  rw [push, Array.getElem?_push] at hg
  split at hg
  next hi =>
    cases hg
    rw [hi, hdepth, List.getElem?_concat_length, Option.some.injEq] at he
    exact .inl ⟨hi.trans hdepth, rfl, he.symm⟩
  next =>
    have hlt : i < declarations.length := by
      obtain ⟨hlt, -⟩ := Array.getElem?_eq_some_iff.mp hg
      omega
    rw [List.getElem?_append_left hlt] at he
    exact .inr ⟨hg, he⟩

theorem frame_of_pop (hg : stack.pop.frames[i]? = some g) (he : declarations[i]? = some e)
    (d : DeclarationPath) : stack.frames[i]? = some g ∧ (declarations ++ [d])[i]? = some e := by
  rw [pop, Array.getElem?_pop] at hg
  split at hg
  next =>
    obtain ⟨hlt, -⟩ := List.getElem?_eq_some_iff.mp he
    rw [List.getElem?_append_left hlt]
    exact ⟨hg, he⟩
  next => contradiction

end CallStack

/-! ## Links -/

/-- Which frame holds a level is told by the levels and links of frames alone. -/
theorem CallStack.holder?_congr {s s' : CallStack (Frame Nat)} (hdepth : s'.depth = s.depth)
    (hlinks : ∀ i : Nat, s'.frames[i]?.map (fun f => (f.level, f.link)) =
      s.frames[i]?.map fun f => (f.level, f.link)) (level : Nat) :
    s'.holder? level = s.holder? level := by
  have hfrom (place : Nat) : s'.holderFrom? level place = s.holderFrom? level place := by
    -- A link leads to a lower place.
    induction place using Nat.strongRecOn with
    | ind place ih =>
        have hhere := hlinks place
        rw [holderFrom?, holderFrom?]
        cases hf : s.frames[place]? with
        | none =>
            rw [hf, Option.map_none, Option.map_eq_none_iff] at hhere
            rw [hhere]
        | some f =>
            rw [hf, Option.map_some, Option.map_eq_some_iff] at hhere
            obtain ⟨g, hg, hsame⟩ := hhere
            rw [Prod.mk.injEq] at hsame
            simp only [hg, hsame.1, hsame.2]
            cases f.link with
            | none => rfl
            | some next =>
                by_cases hnext : next < place
                · simp only [if_pos hnext, ih next hnext]
                · simp only [if_neg hnext]
  rw [holder?, holder?, hdepth, hfrom]

/-- What the frame at a place must be like. -/
structure Frame.LinkedAt (f : Frame Nat) (declarations : List DeclarationPath) (i : Nat)
    (d : DeclarationPath) : Prop where
  nesting : f.nesting = i + 1
  level : f.level = d.length + 1
  bottom : i = 0 → f.role = .program ∧ d = [] ∧ f.link = none
  link : 0 < i → f.role = .procedure ∧ ∃ parent place k, d = parent ++ [place] ∧
    f.link = some k ∧ Nearest declarations parent i k

/-- Links lead down. -/
theorem Frame.LinkedAt.link_lt {f : Frame Nat} {declarations : List DeclarationPath} {i k : Nat}
    {d : DeclarationPath} (h : f.LinkedAt declarations i d) (hk : f.link = some k) : k < i := by
  have hpositive : 0 < i := by
    rw [Nat.pos_iff_ne_zero]
    intro hzero
    rw [(h.bottom hzero).2.2] at hk
    contradiction
  obtain ⟨-, -, -, k', -, hk', hbelow, -⟩ := h.link hpositive
  rw [hk, Option.some.injEq] at hk'
  exact hk' ▸ hbelow

/-- Each frame runs the block of a declaration and is linked as it must be. -/
structure CallStack.Linked (stack : CallStack (Frame Nat)) (declarations : List DeclarationPath) :
    Prop where
  depth : stack.depth = declarations.length
  frames : ∀ (i : Nat) (f : Frame Nat) d, stack.frames[i]? = some f → declarations[i]? = some d →
    f.LinkedAt declarations i d

namespace CallStack.Linked

variable {stack : CallStack (Frame Nat)} {declarations : List DeclarationPath}

theorem exists_frame (h : stack.Linked declarations) {i : Nat} {d : DeclarationPath}
    (hd : declarations[i]? = some d) :
    ∃ f, stack.frames[i]? = some f ∧ f.LinkedAt declarations i d := by
  have hi : i < stack.frames.size := by
    obtain ⟨hlt, -⟩ := List.getElem?_eq_some_iff.mp hd
    have hdepth := h.depth
    rw [CallStack.depth] at hdepth
    omega
  have hf : stack.frames[i]? = some stack.frames[i] := Array.getElem?_eq_getElem hi
  exact ⟨stack.frames[i], hf, h.frames i _ d hf hd⟩

theorem exists_declaration (h : stack.Linked declarations) {i : Nat} {f : Frame Nat}
    (hf : stack.frames[i]? = some f) :
    ∃ d, declarations[i]? = some d ∧ f.LinkedAt declarations i d := by
  have hi : i < declarations.length := by
    obtain ⟨hlt, -⟩ := Array.getElem?_eq_some_iff.mp hf
    have hdepth := h.depth
    rw [CallStack.depth] at hdepth
    omega
  have hd : declarations[i]? = some declarations[i] := List.getElem?_eq_getElem hi
  exact ⟨declarations[i], hd, h.frames i f _ hf hd⟩

theorem set (h : stack.Linked declarations) (place : Nat) (name : String) (value : Value) :
    (stack.set place name value).Linked declarations := by
  constructor
  · rw [← h.depth]
    simp [CallStack.depth, CallStack.set]
  · intro i g d hg hd
    obtain ⟨f, hf, ⟨-, rfl⟩ | ⟨-, rfl⟩⟩ := CallStack.frame_of_set hg
    · have hlinked := h.frames i f d hf hd
      exact ⟨hlinked.nesting, hlinked.level, hlinked.bottom, hlinked.link⟩
    · exact h.frames i g d hf hd

theorem push (h : stack.Linked declarations) {f : Frame Nat} {d : DeclarationPath}
    (hf : f.LinkedAt declarations stack.depth d) :
    (stack.push f).Linked (declarations ++ [d]) := by
  rw [h.depth] at hf
  have hmore {i : Nat} {g : Frame Nat} {e : DeclarationPath} (hi : i ≤ declarations.length)
      (hg : g.LinkedAt declarations i e) : g.LinkedAt (declarations ++ [d]) i e := by
    refine ⟨hg.nesting, hg.level, hg.bottom, ?_⟩
    intro hpositive
    obtain ⟨hrole, parent, place, k, heq, hlink, hnearest⟩ := hg.link hpositive
    exact ⟨hrole, parent, place, k, heq, hlink, hnearest.append hi [d]⟩
  constructor
  · rw [List.length_append, List.length_singleton, ← h.depth]
    simp [CallStack.depth, CallStack.push]
  · intro i g e hg he
    rcases CallStack.frame_of_push h.depth hg he with ⟨rfl, rfl, rfl⟩ | ⟨hg, he⟩
    · exact hmore (Nat.le_refl _) hf
    · obtain ⟨hlt, -⟩ := List.getElem?_eq_some_iff.mp he
      exact hmore (Nat.le_of_lt hlt) (h.frames i g e hg he)

theorem pop {d : DeclarationPath} (h : stack.Linked (declarations ++ [d])) :
    stack.pop.Linked declarations := by
  constructor
  · have hdepth := h.depth
    rw [CallStack.depth, List.length_append, List.length_singleton] at hdepth
    simp [CallStack.depth, CallStack.pop, hdepth]
  · intro i f e hf he
    obtain ⟨hlt, -⟩ := List.getElem?_eq_some_iff.mp he
    obtain ⟨hf, he⟩ := CallStack.frame_of_pop hf he d
    have hlinked := h.frames i f e hf he
    refine ⟨hlinked.nesting, hlinked.level, hlinked.bottom, ?_⟩
    intro hpositive
    obtain ⟨hrole, parent, place, k, heq, hlink, hnearest⟩ := hlinked.link hpositive
    exact ⟨hrole, parent, place, k, heq, hlink, hnearest.of_append (Nat.le_of_lt hlt)⟩

/-- What following links from a frame to one of a block around it comes to, step by step. -/
theorem follow (h : stack.Linked declarations) {a : DeclarationPath}
    {P : Nat → DeclarationPath → Nat → Prop} (hhere : ∀ i, declarations[i]? = some a → P i a i)
    (hstep : ∀ i f parent place next k, stack.frames[i]? = some f →
      declarations[i]? = some (parent ++ [place]) → f.link = some next →
      Nearest declarations parent i next → a <+: parent → P next parent k →
      P i (parent ++ [place]) k)
    {i : Nat} {d : DeclarationPath} (hd : declarations[i]? = some d) (ha : a <+: d) :
    ∃ k, stack.holderFrom? (a.length + 1) i = some k ∧ P i d k := by
  -- Each link leads down, and so to a frame for which this is known.
  induction i using Nat.strong_induction_on generalizing d with
  | _ i ih =>
      obtain ⟨f, hf, hlinked⟩ := h.exists_frame hd
      rw [CallStack.holderFrom?, hf]
      simp only [hlinked.level]
      by_cases hsame : a = d
      · subst a
        exact ⟨i, by simp, hhere i hd⟩
      · have hshorter : a.length < d.length := by
          have hle := ha.length_le
          have hne : a.length ≠ d.length := fun heq => hsame (ha.eq_of_length heq)
          omega
        have hpositive : 0 < i := by
          rw [Nat.pos_iff_ne_zero]
          intro hzero
          have hempty := (hlinked.bottom hzero).2.1
          simp [hempty] at hshorter
        obtain ⟨-, parent, place, next, rfl, hlink, hnearest⟩ := hlinked.link hpositive
        have haround : a <+: parent := by
          rcases List.prefix_concat_iff.mp ha with hall | hparent
          · exact absurd hall hsame
          · exact hparent
        obtain ⟨k, hk, hP⟩ := ih next hnearest.1 hnearest.2.1 haround
        refine ⟨k, ?_, hstep i f parent place next k hf hd hlink hnearest haround hP⟩
        rw [if_pos (by omega), hlink]
        simp only [if_pos hnearest.1]
        exact hk

/-- Links lead from a frame to the nearest activation of each block around the one it runs. -/
theorem holderFrom?_eq (h : stack.Linked declarations) {i : Nat} {d a : DeclarationPath}
    (hd : declarations[i]? = some d) (ha : a <+: d) :
    ∃ k, stack.holderFrom? (a.length + 1) i = some k ∧ Nearest declarations a (i + 1) k := by
  apply h.follow (P := fun i _ k => Nearest declarations a (i + 1) k) ?_ ?_ hd ha
  · intro i hi
    refine ⟨Nat.lt_succ_self i, hi, ?_⟩
    intro j hij hj
    omega
  · intro i f parent place next k _ hi _ ⟨hnext, _, hbetween⟩ haround ⟨hk, hka, hkbetween⟩
    refine ⟨by omega, hka, ?_⟩
    intro j hkj hj b hb hba
    by_cases hupper : j < i
    · by_cases hlower : j ≤ next
      · exact hkbetween j hkj (by omega) b hb hba
      · exact hbetween j (by omega) hupper b hb (hba.trans haround)
    · obtain rfl : j = i := by omega
      rw [hi, Option.some.injEq] at hb
      subst b
      have hle := (hba.trans haround).length_le
      rw [List.length_append, List.length_singleton] at hle
      omega

theorem holder?_eq {d a : DeclarationPath} (h : stack.Linked (declarations ++ [d])) (ha : a <+: d) :
    ∃ k, stack.holder? (a.length + 1) = some k ∧
      Nearest (declarations ++ [d]) a stack.depth k := by
  have hdepth := h.depth
  rw [List.length_append, List.length_singleton] at hdepth
  have hlast : (declarations ++ [d])[stack.depth - 1]? = some d := by
    rw [hdepth, Nat.add_sub_cancel, List.getElem?_concat_length]
  obtain ⟨k, hk, hnearest⟩ := h.holderFrom?_eq hlast ha
  refine ⟨k, ?_, ?_⟩
  · rw [CallStack.holder?, if_neg (by omega)]
    exact hk
  · rw [hdepth] at hnearest ⊢
    exact hnearest

end CallStack.Linked

end NestedPascal
