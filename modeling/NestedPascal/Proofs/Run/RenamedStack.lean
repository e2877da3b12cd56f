import NestedPascal.Proofs.Run.TypedEvaluation
import NestedPascal.Proofs.Scope.Renaming

/-!
# Stacks under renaming

A frame is named after the procedure that it runs, and its members after the variables of that
procedure.  So how a renaming changes a frame depends on the declaration whose block the frame runs;
what it leaves alone are levels, links, the order of members and their values.
-/

namespace NestedPascal

def Register.mapKeys {κ κ' α : Type} (f : κ → κ') (r : Register κ α) : Register κ' α :=
  ⟨r.entries.map fun e => (f e.1, e.2)⟩

/-- The frame of an activation of a declaration. -/
def Frame.rename (ρ : Renaming) (declaration : DeclarationPath) (f : Frame Nat) : Frame Nat :=
  { f with
    name := match f.role with
      | .program => f.name
      | .procedure => ρ.key declaration.dropLast f.name
    members := f.members.mapKeys (ρ.key declaration) }

/-- The frames of activations of declarations, bottom first. -/
def CallStack.rename (ρ : Renaming) (declarations : List DeclarationPath)
    (s : CallStack (Frame Nat)) : CallStack (Frame Nat) :=
  ⟨(List.zipWith (Frame.rename ρ) declarations s.frames.toList).toArray⟩

/-! ## Members -/

namespace Register

variable {κ κ' α : Type} [DecidableEq κ] [DecidableEq κ'] {f : κ → κ'} {r : Register κ α} {key : κ}

/-- No other key of the register is taken to what the key is taken to. -/
def KeepsApart (r : Register κ α) (f : κ → κ') (key : κ) : Prop :=
  ∀ e ∈ r.entries, f e.1 = f key → e.1 = key

theorem get?_mapKeys (h : r.KeepsApart f key) : (r.mapKeys f).get? (f key) = r.get? key := by
  obtain ⟨entries⟩ := r
  simp only [get?, mapKeys]
  induction entries with
  | nil => rfl
  | cons e rest ih =>
      obtain ⟨hfirst, hrest⟩ := List.forall_mem_cons.mp h
      have hiff : f e.1 = f key ↔ e.1 = key := ⟨hfirst, congrArg f⟩
      simp only [List.map_cons, lookup, hiff, ih hrest]

theorem set_mapKeys (h : r.KeepsApart f key) (value : α) :
    (r.mapKeys f).set (f key) value = (r.set key value).mapKeys f := by
  obtain ⟨entries⟩ := r
  simp only [set, mapKeys, mk.injEq]
  induction entries with
  | nil => rfl
  | cons e rest ih =>
      obtain ⟨hfirst, hrest⟩ := List.forall_mem_cons.mp h
      have hiff : f e.1 = f key ↔ e.1 = key := ⟨hfirst, congrArg f⟩
      simp only [List.map_cons, replace, hiff, ih hrest]
      split <;> rfl

theorem keepsApart_key {ρ : Renaming} {d : DeclarationPath} {members : Register String Value}
    {name : String} (hmembers : ∀ e ∈ members.entries, e.1 ≠ canonicalName ρ.fresh)
    (hname : name ≠ canonicalName ρ.fresh) : members.KeepsApart (ρ.key d) name :=
  fun e he heq => Renaming.key_inj (hmembers e he) hname heq

end Register

/-! ## Frames -/

section

variable {ρ : Renaming} {stack : CallStack (Frame Nat)} {declarations : List DeclarationPath}
  {d : DeclarationPath}

namespace CallStack

theorem getElem?_rename (i : Nat) :
    (stack.rename ρ declarations).frames[i]? =
      declarations[i]?.bind fun d => stack.frames[i]?.map (·.rename ρ d) := by
  simp only [rename, List.getElem?_toArray, List.getElem?_zipWith, Array.getElem?_toList]
  cases declarations[i]? <;> cases stack.frames[i]? <;> rfl

theorem depth_rename (h : stack.depth = declarations.length) :
    (stack.rename ρ declarations).depth = stack.depth := by
  rw [depth] at h ⊢
  simp [rename, depth, h]

theorem rename_push (h : stack.depth = declarations.length) (f : Frame Nat) :
    (stack.push f).rename ρ (declarations ++ [d]) =
      (stack.rename ρ declarations).push (f.rename ρ d) := by
  have hlength : declarations.length = stack.frames.toList.length := by simpa [depth] using h.symm
  simp [rename, push, List.zipWith_append hlength]

theorem rename_pop (h : stack.depth = declarations.length + 1) :
    (stack.rename ρ (declarations ++ [d])).pop = stack.pop.rename ρ declarations := by
  have hsize : (stack.rename ρ (declarations ++ [d])).frames.size = declarations.length + 1 := by
    have hlength : stack.depth = (declarations ++ [d]).length := by simpa using h
    have hdepth := depth_rename (ρ := ρ) hlength
    exact hdepth.trans h
  have hframes : ∀ i : Nat, (stack.rename ρ (declarations ++ [d])).pop.frames[i]? =
      (stack.pop.rename ρ declarations).frames[i]? := by
    intro i
    have hstack : stack.frames.size = declarations.length + 1 := h
    rw [getElem?_rename, pop, pop, Array.getElem?_pop, Array.getElem?_pop, getElem?_rename, hsize,
      hstack, Nat.add_sub_cancel]
    by_cases hi : i < declarations.length
    · rw [if_pos hi, if_pos hi, List.getElem?_append_left hi]
    · rw [if_neg hi, List.getElem?_eq_none (Nat.not_lt.mp hi), Option.bind_none]
  exact congrArg CallStack.mk (Array.ext_getElem? hframes)

theorem holder?_rename (h : stack.depth = declarations.length) (level : Nat) :
    (stack.rename ρ declarations).holder? level = stack.holder? level := by
  refine holder?_congr (depth_rename h) (fun i => ?_) level
  rw [getElem?_rename]
  cases hf : stack.frames[i]? with
  | none => cases declarations[i]? <;> rfl
  | some f =>
      obtain ⟨hlt, -⟩ := Array.getElem?_eq_some_iff.mp hf
      rw [depth] at h
      rw [List.getElem?_eq_getElem (by omega : i < declarations.length)]
      rfl

theorem rename_set {k : Nat} (hd : declarations[k]? = some d) {name : String}
    (hapart : ∀ f, stack.frames[k]? = some f → f.members.KeepsApart (ρ.key d) name)
    (value : Value) :
    (stack.set k name value).rename ρ declarations =
      (stack.rename ρ declarations).set k (ρ.key d name) value := by
  have hframes : ∀ i : Nat, ((stack.set k name value).rename ρ declarations).frames[i]? =
      ((stack.rename ρ declarations).set k (ρ.key d name) value).frames[i]? := by
    intro i
    simp only [getElem?_rename, set, Array.getElem?_modify]
    split
    next hi =>
      subst i
      rw [hd]
      cases hf : stack.frames[k]? with
      | none => rfl
      | some f =>
          simp only [Option.map_some, Option.bind_some, Frame.set, Frame.rename,
            Register.set_mapKeys (hapart f hf)]
    next => rfl
  exact congrArg CallStack.mk (Array.ext_getElem? hframes)

end CallStack

end

end NestedPascal
