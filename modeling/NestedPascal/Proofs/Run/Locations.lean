import NestedPascal.Proofs.Run.LexicalEnvironment
import NestedPascal.Proofs.Run.TypedEvaluation

/-!
# Members and locations

The members of a frame and the locations of an activation keep the same: a member is there exactly
where a location is assigned, and has its value.  This outlives what happens in other locations, and
an assignment to a variable on both sides.
-/

namespace NestedPascal

namespace Store

variable {store : Store} {l l' : Nat} {v : Value}

theorem read?_write_self (h : l < store.cells.length) : (store.write l v).read? l = some v := by
  simp [read?, write, h]

theorem read?_write_of_ne (h : l ≠ l') : (store.write l v).read? l' = store.read? l' := by
  simp [read?, write, h]

theorem length_write : (store.write l v).cells.length = store.cells.length := by
  simp [write]

theorem length_allocate (count : Nat) :
    (store.allocate count).cells.length = store.cells.length + count := by
  simp [allocate]

theorem read?_of_le (h : store.cells.length ≤ l) : store.read? l = none := by
  simp [read?, List.getElem?_eq_none h]

/-- A new location holds no value, as if it were not there. -/
theorem read?_allocate (count : Nat) : (store.allocate count).read? l = store.read? l := by
  by_cases h : l < store.cells.length
  · rw [read?, allocate, List.getElem?_append_left h, read?]
  · have hle : store.cells.length ≤ l := by omega
    rw [read?_of_le hle, read?, allocate, List.getElem?_append_right hle]
    by_cases hnew : l - store.cells.length < count
    · rw [List.getElem?_replicate, if_pos hnew]
      rfl
    · rw [List.getElem?_replicate, if_neg hnew]
      rfl

end Store

/-! ## Slots of an activation -/

theorem Instance.mem_slots_of_location? {inst : Instance} {v : VariableSymbol} {l : Nat}
    (h : inst.location? v = some l) :
    (v, l) ∈ inst.slots := by
  obtain ⟨slot, hslot, rfl⟩ := Option.map_eq_some_iff.mp h
  have hsymbol : slot.1 = v := by simpa using List.find?_some hslot
  rw [← hsymbol]
  exact List.mem_of_find?_eq_some hslot

namespace LexicalScope

variable {s : LexicalScope}

theorem Resolved.nodup_locals (h : s.Resolved) : (s.locals.map VariableSymbol.name).Nodup := by
  have hsublist : (s.locals.map ScopeSymbol.variable).Sublist s.offered := by
    rw [locals, offered, hoisted, List.map_append]
    exact (List.sublist_append_left _ _).append (List.Sublist.refl _)
  have hnames := h.nodup.sublist (hsublist.map ScopeSymbol.name)
  rw [List.map_map] at hnames
  exact hnames

theorem mem_slots_iff {base l : Nat} {v : VariableSymbol} :
    (v, l) ∈ (s.instanceAt base).slots ↔ base ≤ l ∧ s.locals[l - base]? = some v := by
  rw [instanceAt]
  exact List.mk_mem_zipIdx_iff_le_and_getElem?_sub

theorem lt_of_mem_slots {base l : Nat} {v : VariableSymbol}
    (h : (v, l) ∈ (s.instanceAt base).slots) : l < base + s.locals.length := by
  obtain ⟨hle, hget⟩ := mem_slots_iff.mp h
  obtain ⟨hlt, -⟩ := List.getElem?_eq_some_iff.mp hget
  omega

theorem mem_locals_of_mem_slots {base l : Nat} {v : VariableSymbol}
    (h : (v, l) ∈ (s.instanceAt base).slots) : v ∈ s.locals :=
  List.mem_of_getElem? (mem_slots_iff.mp h).2

theorem eq_of_mem_slots {base l : Nat} {v w : VariableSymbol}
    (hv : (v, l) ∈ (s.instanceAt base).slots) (hw : (w, l) ∈ (s.instanceAt base).slots) : v = w := by
  have heq := (mem_slots_iff.mp hv).2
  rw [(mem_slots_iff.mp hw).2, Option.some.injEq] at heq
  exact heq.symm

/-- No name is that of two locations. -/
theorem Resolved.slot_eq (h : s.Resolved) {base l l' : Nat} {v w : VariableSymbol}
    (hv : (v, l) ∈ (s.instanceAt base).slots) (hw : (w, l') ∈ (s.instanceAt base).slots)
    (hname : v.name = w.name) : v = w ∧ l = l' := by
  obtain ⟨hvbase, hvget⟩ := mem_slots_iff.mp hv
  obtain ⟨hwbase, hwget⟩ := mem_slots_iff.mp hw
  have heq := h.local_eq (List.mem_of_getElem? hvget) (List.mem_of_getElem? hwget) hname
  refine ⟨heq, ?_⟩
  obtain ⟨hlt, -⟩ := List.getElem?_eq_some_iff.mp hvget
  have hindex : l - base = l' - base := by
    apply (List.getElem?_inj hlt (List.Nodup.of_map _ h.nodup_locals)).mp
    rw [hvget, hwget, heq]
  omega

theorem location?_eq_some (base : Nat) {v : VariableSymbol} (hv : v ∈ s.locals) :
    ∃ l, (s.instanceAt base).location? v = some l ∧ (v, l) ∈ (s.instanceAt base).slots := by
  obtain ⟨i, hi⟩ := List.mem_iff_getElem?.mp hv
  have hmem : (v, base + i) ∈ (s.instanceAt base).slots := by
    rw [mem_slots_iff, Nat.add_sub_cancel_left]
    exact ⟨Nat.le_add_right base i, hi⟩
  have hsome : ((s.instanceAt base).slots.find? (·.1 = v)).isSome := by
    rw [List.find?_isSome]
    exact ⟨(v, base + i), hmem, by simp⟩
  obtain ⟨slot, hslot⟩ := Option.isSome_iff_exists.mp hsome
  have hlocation : (s.instanceAt base).location? v = some slot.2 := by
    rw [Instance.location?, hslot]
    rfl
  exact ⟨slot.2, hlocation, Instance.mem_slots_of_location? hlocation⟩

theorem location?_eq_none {base : Nat} {v : VariableSymbol} (hv : v ∉ s.locals) :
    (s.instanceAt base).location? v = none := by
  rw [Instance.location?, Option.map_eq_none_iff, List.find?_eq_none]
  intro slot hslot
  have hlocal : slot.1 ∈ s.locals := mem_locals_of_mem_slots (l := slot.2) hslot
  intro hsymbol
  exact hv (of_decide_eq_true hsymbol ▸ hlocal)

end LexicalScope

/-! ## What frames and locations keep -/

/-- The members are the assigned locations of the activation, by name. -/
structure Instance.KeptBy (inst : Instance) (members : Register String Value) (store : Store) :
    Prop where
  keys : (members.entries.map Prod.fst).Nodup
  named : ∀ name ∈ members.entries.map Prod.fst, ∃ v l, (v, l) ∈ inst.slots ∧ v.name = name
  values : ∀ v l, (v, l) ∈ inst.slots → members.get? v.name = store.read? l

namespace Instance.KeptBy

variable {inst : Instance} {members : Register String Value} {store : Store}

theorem write_elsewhere (h : inst.KeptBy members store) {l : Nat} (hl : ∀ v, (v, l) ∉ inst.slots)
    (value : Value) : inst.KeptBy members (store.write l value) := by
  refine ⟨h.keys, h.named, ?_⟩
  intro v l' hslot
  have hne : l ≠ l' := by
    intro heq
    subst l'
    exact hl v hslot
  rw [Store.read?_write_of_ne hne]
  exact h.values v l' hslot

/-- What happens at new locations is nothing to an activation that was there before. -/
theorem of_read?_eq (h : inst.KeptBy members store) {store' : Store}
    (hlt : ∀ v l, (v, l) ∈ inst.slots → l < store.cells.length)
    (hsame : ∀ l < store.cells.length, store'.read? l = store.read? l) :
    inst.KeptBy members store' := by
  refine ⟨h.keys, h.named, ?_⟩
  intro v l hslot
  rw [hsame l (hlt v l hslot)]
  exact h.values v l hslot

theorem fresh (s : LexicalScope) (store : Store) :
    (s.activate store).1.KeptBy .empty (s.activate store).2 := by
  refine ⟨List.nodup_nil, ?_, ?_⟩
  · intro name hname
    contradiction
  · intro v l hslot
    have hle := (LexicalScope.mem_slots_iff.mp hslot).1
    rw [LexicalScope.activate, Store.read?_allocate, Store.read?_of_le hle]
    rfl

theorem set {s : LexicalScope} {base : Nat} (hs : s.Resolved)
    (h : (s.instanceAt base).KeptBy members store) {v : VariableSymbol} {l : Nat}
    (hslot : (v, l) ∈ (s.instanceAt base).slots) (hl : l < store.cells.length) (value : Value) :
    (s.instanceAt base).KeptBy (members.set v.name value) (store.write l value) := by
  refine ⟨?_, ?_, ?_⟩
  · rw [Register.set, Register.keys_replace]
    split
    next => exact h.keys
    next hnew =>
      rw [← List.concat_eq_append, List.nodup_concat]
      exact ⟨hnew, h.keys⟩
  · intro name hname
    rw [Register.set, Register.keys_replace] at hname
    split at hname
    next => exact h.named name hname
    next =>
      rcases List.mem_append.mp hname with hold | hnew
      · exact h.named name hold
      · rw [List.mem_singleton] at hnew
        exact ⟨v, l, hslot, hnew.symm⟩
  · intro w l' hslot'
    rw [Register.get?_set]
    by_cases hname : v.name = w.name
    · obtain ⟨-, rfl⟩ := hs.slot_eq hslot hslot' hname
      rw [if_pos hname, Store.read?_write_self hl]
    · have hne : l ≠ l' := by
        intro heq
        subst l'
        exact hname (congrArg VariableSymbol.name (LexicalScope.eq_of_mem_slots hslot hslot'))
      rw [if_neg hname, Store.read?_write_of_ne hne]
      exact h.values w l' hslot'

end Instance.KeptBy

/-! ## Binding of parameters -/

namespace Instance

variable {inst : Instance} {store : Store} {params : List VariableSymbol} {values : List Value}

theorem length_bind : (inst.bind store params values).cells.length = store.cells.length := by
  induction params generalizing store values with
  | nil => rfl
  | cons param params ih =>
      cases values with
      | nil => rfl
      | cons value values =>
          rw [bind, ih]
          split
          next => exact Store.length_write
          next => rfl

theorem read?_bind_of_not_mem {l : Nat} (hl : ∀ v, (v, l) ∉ inst.slots) :
    (inst.bind store params values).read? l = store.read? l := by
  induction params generalizing store values with
  | nil => rfl
  | cons param params ih =>
      cases values with
      | nil => rfl
      | cons value values =>
          rw [bind, ih]
          split
          next location hlocation =>
            apply Store.read?_write_of_ne
            intro heq
            subst l
            exact hl param (mem_slots_of_location? hlocation)
          next => rfl

end Instance

end NestedPascal
