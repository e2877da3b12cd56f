import NestedPascal.Proofs.Run.Locations

/-!
# Stacks and environments

A stack simulates environments when each frame keeps what the locations of one activation keep, and
its link leads to the frame of the environment around that activation.  Following links by levels
then finds what an environment finds by looking for a declaration.
-/

namespace NestedPascal

/-- A frame runs the scope of a declaration, in an environment that begins with the activation that
the frame is of. -/
def Frame.Simulates (f : Frame Nat) (p : Program) (environments : List Environment) (store : Store)
    (i : Nat) (d : DeclarationPath) : Prop :=
  ∃ s base outer, p.scope? d = some s ∧ environments[i]? = some (s.instanceAt base :: outer) ∧
    base + s.locals.length ≤ store.cells.length ∧
    (s.instanceAt base).KeptBy f.members store ∧
    ∀ k, f.link = some k → environments[k]? = some outer

/-- The frames are those of the activations at the heads of environments, whose locations come in the
order of the frames. -/
structure CallStack.Simulates (stack : CallStack (Frame Nat)) (p : Program)
    (declarations : List DeclarationPath) (environments : List Environment) (store : Store) :
    Prop where
  linked : stack.Linked declarations
  length : environments.length = declarations.length
  frames : ∀ (i : Nat) f d, stack.frames[i]? = some f → declarations[i]? = some d →
    f.Simulates p environments store i d
  ordered : ∀ (i j : Nat) inst outer inst' outer' v w l l', i < j →
    environments[i]? = some (inst :: outer) → environments[j]? = some (inst' :: outer') →
    (v, l) ∈ inst.slots → (w, l') ∈ inst'.slots → l < l'

/-- An environment goes on to another one past activations of scopes deeper than a level only. -/
inductive Environment.EndsIn (level : Nat) : Environment → Environment → Prop where
  | refl {env} : EndsIn level env env
  | cons {env inner} (s : LexicalScope) (base : Nat) :
      EndsIn level env inner → level < s.level → EndsIn level (s.instanceAt base :: env) inner

namespace Environment.EndsIn

theorem location?_eq {env inner : Environment} {v : VariableSymbol} (h : EndsIn v.level env inner) :
    env.location? v = inner.location? v := by
  induction h with
  | refl => rfl
  | cons s base _ hlevel ih =>
      have hnot : v ∉ s.locals := by
        intro hv
        have hsame := LexicalScope.level_of_mem_locals hv
        omega
      rw [location?, List.findSome?_cons, LexicalScope.location?_eq_none hnot]
      exact ih

theorem closure?_eq {env inner : Environment} {q : ProcedureSymbol} (h : EndsIn q.level env inner) :
    env.closure? q = inner.closure? q := by
  induction h with
  | refl => rfl
  | cons s base _ hlevel ih =>
      have hnot : q ∉ (s.instanceAt base).procedures := by
        intro hq
        have hsame := LexicalScope.level_of_mem_procedures hq
        omega
      rw [closure?, if_neg hnot]
      exact ih

end Environment.EndsIn

namespace CallStack.Simulates

variable {stack : CallStack (Frame Nat)} {p : Program} {declarations : List DeclarationPath}
  {environments : List Environment} {store : Store}

/-- Links lead where the environment ends in that of an enclosing block. -/
theorem descend (h : stack.Simulates p declarations environments store) {i : Nat}
    {d a : DeclarationPath} {env : Environment} (hd : declarations[i]? = some d)
    (henv : environments[i]? = some env) (ha : a <+: d) :
    ∃ k inner, stack.holderFrom? (a.length + 1) i = some k ∧ declarations[k]? = some a ∧
      environments[k]? = some inner ∧ Environment.EndsIn (a.length + 1) env inner := by
  have hfollow : ∃ k, stack.holderFrom? (a.length + 1) i = some k ∧ declarations[k]? = some a ∧
      ∀ env, environments[i]? = some env →
        ∃ inner, environments[k]? = some inner ∧ Environment.EndsIn (a.length + 1) env inner := by
    apply h.linked.follow (P := fun i _ k => declarations[k]? = some a ∧
      ∀ env, environments[i]? = some env →
        ∃ inner, environments[k]? = some inner ∧ Environment.EndsIn (a.length + 1) env inner)
      ?_ ?_ hd ha
    · intro i hi
      exact ⟨hi, fun env henv => ⟨env, henv, .refl⟩⟩
    · intro i f parent place next k hf hi hlink _ haround ⟨hka, hends⟩
      refine ⟨hka, ?_⟩
      intro env henv
      obtain ⟨s, base, outer, hs, henv', -, -, houter⟩ := h.frames i f _ hf hi
      rw [henv, Option.some.injEq] at henv'
      subst env
      obtain ⟨inner, hinner, hends⟩ := hends outer (houter next hlink)
      refine ⟨inner, hinner, hends.cons s base ?_⟩
      have hle := haround.length_le
      rw [Program.level_of_scope? hs, List.length_append, List.length_singleton]
      omega
  obtain ⟨k, hk, hka, hends⟩ := hfollow
  obtain ⟨inner, hinner, hends⟩ := hends env henv
  exact ⟨k, inner, hk, hka, hinner, hends⟩

section

variable {path : DeclarationPath} {env : Environment} {s : LexicalScope}

theorem descend_top
    (h : stack.Simulates p (declarations ++ [path]) (environments ++ [env]) store)
    {a : DeclarationPath} (ha : a <+: path) :
    ∃ k inner, stack.holder? (a.length + 1) = some k ∧ (declarations ++ [path])[k]? = some a ∧
      (environments ++ [env])[k]? = some inner ∧ Environment.EndsIn (a.length + 1) env inner := by
  have hdepth := h.linked.depth
  rw [List.length_append, List.length_singleton] at hdepth
  have hlength : environments.length = declarations.length := by simpa using h.length
  have hlast : (declarations ++ [path])[stack.depth - 1]? = some path := by
    rw [hdepth, Nat.add_sub_cancel, List.getElem?_concat_length]
  have hlastEnv : (environments ++ [env])[stack.depth - 1]? = some env := by
    rw [hdepth, Nat.add_sub_cancel, ← hlength, List.getElem?_concat_length]
  obtain ⟨k, inner, hk, hrest⟩ := h.descend hlast hlastEnv ha
  refine ⟨k, inner, ?_, hrest⟩
  rw [CallStack.holder?, if_neg (by omega)]
  exact hk

/-- A visible variable is in the frame that links lead to and at the location that the environment
has for it, and the same is kept there. -/
theorem slot_of_denote
    (h : stack.Simulates p (declarations ++ [path]) (environments ++ [env]) store)
    (hs : p.scope? path = some s) {name : String} {v : VariableSymbol}
    (hdenote : s.visible.denote name = some (.variable v)) :
    ∃ k l f inst outer, stack.holder? v.level = some k ∧ stack.frames[k]? = some f ∧
      (environments ++ [env])[k]? = some (inst :: outer) ∧ (v, l) ∈ Instance.slots inst ∧
      env.location? v = some l ∧ f.get? v.name = store.read? l := by
  obtain ⟨-, above, t, hprefix, ht, hlocal, hlevel⟩ := Program.local_of_denote hs hdenote
  obtain ⟨k, inner, hk, hka, hinner, hends⟩ := h.descend_top hprefix
  obtain ⟨f, hf, -⟩ := h.linked.exists_frame hka
  obtain ⟨t', base, outer, ht', henv, -, hkept, -⟩ := h.frames k f above hf hka
  rw [ht, Option.some.injEq] at ht'
  subst t'
  obtain ⟨l, hl, hslot⟩ := LexicalScope.location?_eq_some base hlocal
  rw [← hlevel] at hk hends
  refine ⟨k, l, f, t.instanceAt base, outer, hk, hf, henv, hslot, ?_, hkept.values v l hslot⟩
  rw [hends.location?_eq, Option.some.inj (hinner.symm.trans henv), Environment.location?,
    List.findSome?_cons, hl]

/-- The closure of a visible procedure is its declaration with the environment of the frame that
links lead to. -/
theorem closure_of_denote
    (h : stack.Simulates p (declarations ++ [path]) (environments ++ [env]) store)
    (hs : p.scope? path = some s) {name : String} {q : ProcedureSymbol}
    (hdenote : s.visible.denote name = some (.procedure q)) :
    ∃ k inner, stack.holder? q.level = some k ∧ (environments ++ [env])[k]? = some inner ∧
      env.closure? q = some ⟨q.declaration, inner⟩ := by
  obtain ⟨-, above, t, hprefix, ht, hmem⟩ := Program.offered_of_denote hs hdenote
  have hprocedure := LexicalScope.procedure_mem_offered.mp hmem
  have hlevel : q.level = above.length + 1 := by
    rw [LexicalScope.level_of_mem_procedures hprocedure, Program.level_of_scope? ht]
  obtain ⟨k, inner, hk, hka, hinner, hends⟩ := h.descend_top hprefix
  obtain ⟨f, hf, -⟩ := h.linked.exists_frame hka
  obtain ⟨t', base, outer, ht', henv, -⟩ := h.frames k f above hf hka
  rw [ht, Option.some.injEq] at ht'
  subst t'
  rw [← hlevel] at hk hends
  refine ⟨k, inner, hk, hinner, ?_⟩
  rw [hends.closure?_eq, Option.some.inj (hinner.symm.trans henv)]
  exact if_pos hprocedure

end

/-! ## What happens on both sides -/

/-- The frame of an environment keeps what the activation at its head keeps. -/
theorem frame_of_environment (h : stack.Simulates p declarations environments store) {i : Nat}
    {inst : Instance} {outer : Environment} (henv : environments[i]? = some (inst :: outer)) :
    ∃ f d s base, stack.frames[i]? = some f ∧ declarations[i]? = some d ∧ p.scope? d = some s ∧
      inst = s.instanceAt base ∧ base + s.locals.length ≤ store.cells.length := by
  have hi : i < declarations.length := by
    obtain ⟨hlt, -⟩ := List.getElem?_eq_some_iff.mp henv
    rw [← h.length]
    exact hlt
  have hd : declarations[i]? = some declarations[i] := List.getElem?_eq_getElem hi
  obtain ⟨f, hf, -⟩ := h.linked.exists_frame hd
  obtain ⟨s, base, outer', hs, henv', hsize, -⟩ := h.frames i f _ hf hd
  rw [henv, Option.some.injEq, List.cons.injEq] at henv'
  exact ⟨f, _, s, base, hf, hd, hs, henv'.1, hsize⟩

theorem slot_lt (h : stack.Simulates p declarations environments store) {i l : Nat}
    {inst : Instance} {outer : Environment} {v : VariableSymbol}
    (henv : environments[i]? = some (inst :: outer)) (hslot : (v, l) ∈ inst.slots) :
    l < store.cells.length := by
  obtain ⟨-, -, s, base, -, -, -, rfl, hsize⟩ := h.frame_of_environment henv
  have hlt := LexicalScope.lt_of_mem_slots hslot
  omega

theorem eq_of_mem_slots (h : stack.Simulates p declarations environments store) {i j l : Nat}
    {inst inst' : Instance} {outer outer' : Environment} {v w : VariableSymbol}
    (hi : environments[i]? = some (inst :: outer)) (hj : environments[j]? = some (inst' :: outer'))
    (hv : (v, l) ∈ inst.slots) (hw : (w, l) ∈ inst'.slots) : i = j := by
  rcases Nat.lt_trichotomy i j with hlt | heq | hlt
  · have hless := h.ordered i j _ _ _ _ v w l l hlt hi hj hv hw
    omega
  · exact heq
  · have hless := h.ordered j i _ _ _ _ w v l l hlt hj hi hw hv
    omega

theorem set (hp : p.Resolved) (h : stack.Simulates p declarations environments store) {k l : Nat}
    {inst : Instance} {outer : Environment} {v : VariableSymbol}
    (henv : environments[k]? = some (inst :: outer)) (hslot : (v, l) ∈ inst.slots) (value : Value) :
    (stack.set k v.name value).Simulates p declarations environments (store.write l value) := by
  refine ⟨h.linked.set k v.name value, h.length, ?_, h.ordered⟩
  intro i g d hg hd
  rw [Frame.Simulates, Store.length_write]
  obtain ⟨f, hf, ⟨rfl, rfl⟩ | ⟨hi, rfl⟩⟩ := CallStack.frame_of_set hg
  · obtain ⟨s, base, outer', hs, henv', hsize, hkept, hlink⟩ := h.frames i f d hf hd
    rw [henv, Option.some.injEq, List.cons.injEq] at henv'
    obtain ⟨rfl, rfl⟩ := henv'
    exact ⟨s, base, outer, hs, henv, hsize,
      hkept.set (hp d s hs) hslot (h.slot_lt henv hslot) value, hlink⟩
  · obtain ⟨s, base, outer', hs, henv', hsize, hkept, hlink⟩ := h.frames i g d hf hd
    refine ⟨s, base, outer', hs, henv', hsize, hkept.write_elsewhere ?_ value, hlink⟩
    intro w hw
    exact hi (h.eq_of_mem_slots henv' henv hw hslot)

theorem pop {d : DeclarationPath} {env : Environment}
    (h : stack.Simulates p (declarations ++ [d]) (environments ++ [env]) store) :
    stack.pop.Simulates p declarations environments store := by
  have hlength : environments.length = declarations.length := by simpa using h.length
  have hlinked := h.linked.pop
  have hbelow {i : Nat} (hi : i < declarations.length) :
      (environments ++ [env])[i]? = environments[i]? := by
    rw [List.getElem?_append_left (by omega)]
  refine ⟨hlinked, hlength, ?_, ?_⟩
  · intro i f e hf he
    have hat := hlinked.frames i f e hf he
    obtain ⟨hlt, -⟩ := List.getElem?_eq_some_iff.mp he
    obtain ⟨hf, he⟩ := CallStack.frame_of_pop hf he d
    obtain ⟨s, base, outer, hs, henv, hsize, hkept, hlink⟩ := h.frames i f e hf he
    rw [hbelow hlt] at henv
    refine ⟨s, base, outer, hs, henv, hsize, hkept, ?_⟩
    intro k hk
    rw [← hbelow (Nat.lt_trans (hat.link_lt hk) hlt)]
    exact hlink k hk
  · intro i j inst outer inst' outer' v w l l' hij hi hj
    obtain ⟨hilt, -⟩ := List.getElem?_eq_some_iff.mp hi
    obtain ⟨hjlt, -⟩ := List.getElem?_eq_some_iff.mp hj
    rw [hlength] at hilt hjlt
    rw [← hbelow hilt] at hi
    rw [← hbelow hjlt] at hj
    exact h.ordered i j inst outer inst' outer' v w l l' hij hi hj

theorem push (h : stack.Simulates p declarations environments store) {d : DeclarationPath}
    {s : LexicalScope} (hs : p.scope? d = some s) {f : Frame Nat} {outer : Environment}
    (hlinked : (stack.push f).Linked (declarations ++ [d])) {store' : Store}
    (hsize : store'.cells.length = store.cells.length + s.locals.length)
    (hsame : ∀ l < store.cells.length, store'.read? l = store.read? l)
    (hkept : (s.instanceAt store.cells.length).KeptBy f.members store')
    (hlink : ∀ k, f.link = some k → environments[k]? = some outer) :
    (stack.push f).Simulates p (declarations ++ [d])
      (environments ++ [s.instanceAt store.cells.length :: outer]) store' := by
  have hold {i : Nat} {env : Environment} (henv : environments[i]? = some env) :
      (environments ++ [s.instanceAt store.cells.length :: outer])[i]? = some env := by
    obtain ⟨hlt, -⟩ := List.getElem?_eq_some_iff.mp henv
    rw [List.getElem?_append_left hlt]
    exact henv
  refine ⟨hlinked, ?_, ?_, ?_⟩
  · simp [h.length]
  · intro i g e hg he
    rcases CallStack.frame_of_push h.linked.depth hg he with ⟨rfl, rfl, rfl⟩ | ⟨hg, he⟩
    · refine ⟨s, store.cells.length, outer, hs, ?_, ?_, hkept, fun k hk => hold (hlink k hk)⟩
      · rw [← h.length, List.getElem?_concat_length]
      · rw [hsize]
    · obtain ⟨t, base, outer', ht, henv, hbound, hkept', hlink'⟩ := h.frames i g e hg he
      refine ⟨t, base, outer', ht, hold henv, by omega, hkept'.of_read?_eq ?_ hsame,
        fun k hk => hold (hlink' k hk)⟩
      intro v l hslot
      exact h.slot_lt henv hslot
  · intro i j inst outer₁ inst' outer₂ v w l l' hij hi hj hv hw
    obtain ⟨hjlt, -⟩ := List.getElem?_eq_some_iff.mp hj
    rw [List.length_append, List.length_singleton] at hjlt
    rw [List.getElem?_append_left (by omega)] at hi
    -- The new locations come after all that there were.
    by_cases hnew : j = environments.length
    · subst j
      rw [List.getElem?_concat_length, Option.some.injEq, List.cons.injEq] at hj
      obtain ⟨rfl, -⟩ := hj
      have hbelow := h.slot_lt hi hv
      have habove := (LexicalScope.mem_slots_iff.mp hw).1
      omega
    · rw [List.getElem?_append_left (by omega)] at hj
      exact h.ordered i j _ _ _ _ v w l l' hij hi hj hv hw

end CallStack.Simulates

end NestedPascal
