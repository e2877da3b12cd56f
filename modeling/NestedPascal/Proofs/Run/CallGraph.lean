import Mathlib.Data.List.Perm.Subperm
import NestedPascal.Proofs.Run.Unfolding
import NestedPascal.Proofs.Scope.Inference
import NestedPascal.Proofs.Scope.Outline

/-!
# The call graph

A run that succeeds tells the unfolding of calls to its end.  The unfolding of a body is longer than
that of each body it calls, so one that ends never comes back to itself: no procedure is active twice
at a time, and a program that gets to a procedure which calls itself, directly or through others,
fails under every limit.
-/

namespace NestedPascal

open Relation

/-- The block of one declaration has a call of the other in its text. -/
def Program.Calls (p : Program) (caller callee : DeclarationPath) : Prop :=
  ∃ site ∈ callSites (p.bodyOf caller), site.procedure.declaration = callee

/-! ## Unfoldings that end -/

theorem ofList_of_append_eq {s t : Stream'.Seq Event} {told : List Event}
    (h : s.append t = .ofList told) :
    ∃ front back, s = .ofList front ∧ t = .ofList back ∧ told = front ++ back := by
  induction told generalizing s with
  | nil =>
      induction s using Stream'.Seq.recOn with
      | nil => exact ⟨[], [], rfl, by simpa using h, rfl⟩
      | cons e s => simp at h
  | cons e told ih =>
      induction s using Stream'.Seq.recOn with
      | nil => exact ⟨[], e :: told, rfl, by simpa using h, rfl⟩
      | cons e' s =>
          rw [Stream'.Seq.cons_append, Stream'.Seq.ofList_cons] at h
          obtain ⟨rfl, hrest⟩ := Stream'.Seq.cons_injective2 h
          obtain ⟨front, back, rfl, rfl, rfl⟩ := ih hrest
          exact ⟨e' :: front, back, by simp, rfl, rfl⟩

namespace Program

variable {p : Program} {limit : DepthLimit} {d d' : DeclarationPath} {depth : Nat}
  {told : List Event}

/-- What a call comes to is part of what the body comes to that it stands in. -/
theorem Calls.unfolding (h : p.Calls d d') (htold : p.unfolding (p.bodyOf d) depth = .ofList told) :
    ∃ inner, p.unfolding (p.bodyOf d') (depth + 1) = .ofList inner ∧
      inner.length < told.length := by
  obtain ⟨site, hsite, rfl⟩ := h
  obtain ⟨front, back, hsplit⟩ := List.append_of_mem hsite
  have hbody : bodyTasks (p.bodyOf d) depth =
      front.map (.call · depth) ++ .call site depth :: back.map (.call · depth) := by
    simp [bodyTasks, hsplit]
  rw [Program.unfolding, hbody, unfold_append] at htold
  obtain ⟨before, after, -, hafter, rfl⟩ := ofList_of_append_eq htold
  rw [p.unfold_of_tell rfl, unfold_append] at hafter
  cases after with
  | nil => simp at hafter
  | cons e after =>
      rw [Stream'.Seq.ofList_cons] at hafter
      obtain ⟨inner, rest, hinner, -, rfl⟩ :=
        ofList_of_append_eq (Stream'.Seq.cons_injective2 hafter).2
      refine ⟨inner, hinner, ?_⟩
      simp only [List.length_append, List.length_cons]
      omega

theorem unfolding_of_transGen (h : TransGen p.Calls d d')
    (htold : p.unfolding (p.bodyOf d) depth = .ofList told) :
    ∃ depth' inner, p.unfolding (p.bodyOf d') depth' = .ofList inner ∧
      inner.length < told.length := by
  induction h with
  | single hcalls =>
      obtain ⟨inner, hinner, hlt⟩ := hcalls.unfolding htold
      exact ⟨depth + 1, inner, hinner, hlt⟩
  | tail _ hcalls ih =>
      obtain ⟨depth', outer, houter, hlt⟩ := ih
      obtain ⟨inner, hinner, hlt'⟩ := hcalls.unfolding houter
      exact ⟨depth' + 1, inner, hinner, hlt'.trans hlt⟩

/-- A body whose unfolding ends never comes back to itself. -/
theorem not_transGen_of_unfolding (htold : p.unfolding (p.bodyOf d) depth = .ofList told) :
    ¬ TransGen p.Calls d d := by
  -- Another unfolding of the same body would be shorter, and so on without end.
  induction hlength : told.length using Nat.strong_induction_on generalizing depth told with
  | _ n ih =>
      intro hcycle
      obtain ⟨depth', inner, hinner, hlt⟩ := unfolding_of_transGen hcycle htold
      exact ih inner.length (hlength ▸ hlt) hinner rfl hcycle

theorem not_transGen_of_reachable (htold : p.unfolding p.block.body 1 = .ofList told)
    (hd : ReflTransGen p.Calls [] d) : ¬ TransGen p.Calls d d := by
  have hbody : p.unfolding (p.bodyOf []) 1 = .ofList told := htold
  rcases reflTransGen_iff_eq_or_transGen.mp hd with rfl | hcalls
  · exact not_transGen_of_unfolding hbody
  · obtain ⟨depth', inner, hinner, -⟩ := unfolding_of_transGen hcalls hbody
    exact not_transGen_of_unfolding hinner

end Program

/-! ## Activations along the call graph -/

/-- Whoever is active was called from the text of the one below. -/
structure Configuration.Called (p : Program) (c : Configuration) : Prop where
  sites : ∀ a ∈ c.activations, callSites a.todo ⊆ callSites (p.bodyOf a.declaration)
  reachable : ∀ a ∈ c.activations, ReflTransGen p.Calls [] a.declaration
  chain : c.activations.Pairwise fun inner outer =>
    TransGen p.Calls outer.declaration inner.declaration

namespace Configuration

variable {p : Program} {limit : DepthLimit} {c c' : Configuration}

theorem Called.start (p : Program) : p.start.Called p := by
  refine ⟨?_, ?_, ?_⟩
  · simp [Program.start, Program.bodyOf, Block.at?]
  · simpa [Program.start] using ReflTransGen.refl
  · simp [Program.start]

theorem Called.goOn {m m' : Machine} {declaration : DeclarationPath}
    {call : Option (String × Span)} {todo todo' : List Statement} {below : List Activation}
    (h : Called p ⟨m, ⟨declaration, call, todo⟩ :: below⟩)
    (htodo : callSites todo' ⊆ callSites todo) :
    Called p ⟨m', ⟨declaration, call, todo'⟩ :: below⟩ := by
  obtain ⟨hfirst, hbelow⟩ := List.forall_mem_cons.mp h.sites
  refine ⟨List.forall_mem_cons.mpr ⟨List.Subset.trans htodo hfirst, hbelow⟩, ?_, ?_⟩
  · simpa using h.reachable
  · simpa using h.chain

theorem Called.step (h : c.Called p) (hstep : Step p.block limit c c') : c'.Called p := by
  cases hstep with
  | leave =>
      exact ⟨(List.forall_mem_cons.mp h.sites).2, (List.forall_mem_cons.mp h.reachable).2,
        (List.pairwise_cons.mp h.chain).2⟩
  | compound =>
      apply h.goOn
      simp
  | assignment =>
      apply h.goOn
      simp
  | @call m m' declaration call callee entered rest below henter =>
      obtain ⟨q, k, members, hsymbol, -, -, -, -, rfl⟩ := Call.enter_eq_ok henter
      have hcalls : p.Calls declaration q.declaration := by
        refine ⟨⟨q, callee.span⟩, ?_, rfl⟩
        apply (List.forall_mem_cons.mp h.sites).1
        simp [callSites_call hsymbol]
      have hrest : Called p ⟨m', ⟨declaration, call, rest⟩ :: below⟩ := by
        apply h.goOn
        simp [callSites_call hsymbol]
      obtain ⟨hfirst, hbelow⟩ := List.pairwise_cons.mp hrest.chain
      refine ⟨List.forall_mem_cons.mpr ⟨List.Subset.refl _, hrest.sites⟩,
        List.forall_mem_cons.mpr ⟨?_, hrest.reachable⟩, List.pairwise_cons.mpr ⟨?_, hrest.chain⟩⟩
      · exact (List.forall_mem_cons.mp hrest.reachable).1.tail hcalls
      · simp only [List.forall_mem_cons]
        exact ⟨.single hcalls, fun outer houter => (hfirst outer houter).tail hcalls⟩

theorem called_of_reaches (hc : p.Reaches limit c) : c.Called p := by
  induction hc with
  | refl => exact .start p
  | tail _ hstep ih => exact ih.step (step_of_eq_next hstep)

/-- Where the unfolding ends no declaration is active twice. -/
theorem Called.nodup (h : c.Called p) {told : List Event}
    (htold : p.unfolding p.block.body 1 = .ofList told) : c.declarations.Nodup := by
  rw [declarations, List.nodup_reverse, List.Nodup, List.pairwise_map]
  apply h.chain.imp_of_mem
  intro inner outer hinner houter hcalls heq
  rw [heq] at hcalls
  exact Program.not_transGen_of_reachable htold (h.reachable outer houter) hcalls

end Configuration

/-! ## How many declarations there are -/

/-- Without a declaration twice on it a stack is no deeper than there are declarations. -/
theorem Configuration.StaticallyLinked.depth_le {p : Program} {limit : DepthLimit}
    {c : Configuration} (h : c.StaticallyLinked p limit) (hnodup : c.declarations.Nodup) :
    c.machine.stack.depth ≤ 1 + p.block.procedureCount := by
  have hsubset : c.declarations ⊆ [] :: p.block.procedurePaths := by
    intro d hd
    obtain ⟨s, hs⟩ := h.declared d hd
    exact Program.mem_scopePaths_iff.mpr ⟨s, hs⟩
  have hle := (List.subperm_of_subset hnodup hsubset).length_le
  rw [h.depth]
  simpa [Block.length_procedurePaths, Nat.add_comm] using hle

namespace Program

variable {p : Program}

/-- Every call of a program that was resolved denotes a procedure of the program. -/
theorem Resolved.exists_callee (hp : p.Resolved) {path : DeclarationPath} {s : LexicalScope}
    (hs : p.scope? path = some s) {c : Call} (hc : .call c ∈ simpleStatements s.block.body) :
    ∃ q callee, c.symbol = some q ∧ q.name = canonicalName c.name ∧
      p.scope? q.declaration = some callee := by
  obtain ⟨q, hq⟩ := statementsFit_simple s.block.body (hp path s hs).fit _ hc
  obtain ⟨hname, -, -, callee, -, -, -, hcallee, -⟩ := procedure_of_denote hs hq.denote
  exact ⟨q, callee, hq.symbol, hname, hcallee⟩

/-- A run of an accepted program tells the unfolding of the program's calls, all of it if it succeeds
and the first events of it if it fails.  So it fails under every limit if a procedure that it comes to
leads back to itself. -/
theorem run_unfolds_calls {source : List Char} {file : String} {detailed : Bool}
    (hparse : parse source file detailed = .ok p)
    (haccepted : ∃ scopes, p.analyze.scopes = .ok scopes) (limit : DepthLimit) :
    (∀ path s, p.analyze.program.scope? path = some s →
      ∀ c, .call c ∈ simpleStatements s.block.body → ∃ q callee, c.symbol = some q ∧
        q.name = canonicalName c.name ∧ p.analyze.program.scope? q.declaration = some callee) ∧
      (p.analyze.program.run limit).events.toList =
        ⟨.runStart p.name p.file, p.span⟩ :: ((p.analyze.program.run limit).callEvents ++
          [⟨(p.analyze.program.run limit).ending, p.span⟩]) ∧
      ((p.analyze.program.run limit).error = none →
        p.analyze.program.unfolding p.analyze.program.block.body 1 =
            .ofList (p.analyze.program.run limit).callEvents ∧
          (∀ c, p.analyze.program.Reaches limit c → c.declarations.Nodup ∧
            c.machine.stack.depth ≤ 1 + p.analyze.program.block.procedureCount) ∧
          ∀ d, ReflTransGen p.analyze.program.Calls [] d → ¬ TransGen p.analyze.program.Calls d d) ∧
      ((p.analyze.program.run limit).error ≠ none →
        ∃ rest, p.analyze.program.unfolding p.analyze.program.block.body 1 =
          (Stream'.Seq.ofList (p.analyze.program.run limit).callEvents).append rest) ∧
      ∀ d, ReflTransGen p.analyze.program.Calls [] d → TransGen p.analyze.program.Calls d d →
        (p.analyze.program.run limit).error ≠ none := by
  have hsource := fromSource_of_parse hparse
  have hannotated := annotated_of_analyze hsource
  obtain ⟨rest, hunfolding, hrest⟩ := unfolding_eq_append hannotated limit
  have hall (hnone : (p.analyze.program.run limit).error = none) :
      p.analyze.program.unfolding p.analyze.program.block.body 1 =
        .ofList (p.analyze.program.run limit).callEvents := by
    rw [hunfolding, hrest hnone, Stream'.Seq.append_nil]
  refine ⟨?_, run_events p.analyze.program limit, ?_, fun _ => ⟨rest, hunfolding⟩, ?_⟩
  · intro path s hs c hc
    exact (resolved_of_analyze hsource haccepted).exists_callee hs hc
  · intro hnone
    refine ⟨hall hnone, ?_, fun d hd => not_transGen_of_reachable (hall hnone) hd⟩
    intro c hc
    have hnodup := (Configuration.called_of_reaches hc).nodup (hall hnone)
    have hlinked := (Configuration.consistent_of_reaches hannotated hc).staticallyLinked
      (Configuration.depth_le_of_reaches hc)
    exact ⟨hnodup, hlinked.depth_le hnodup⟩
  · intro d hd hcycle hnone
    exact not_transGen_of_reachable (hall hnone) hd hcycle

theorem calls_of_any {caller callee : DeclarationPath}
    (h : (callSites (p.bodyOf caller)).any (·.procedure.declaration = callee) = true) :
    p.Calls caller callee := by
  simpa [Calls] using h

/-- Two calls of a procedure are four events; two procedures that call each other never get to an
end. -/
theorem run_unfolds_calls_of_two_programs :
    (∃ p, parse "program p; procedure q; begin end; begin q(); q() end.".toList "p.pas" false =
        .ok p ∧ (p.analyze.program.run (.ofInt 2)).callEvents.length = 4 ∧
      p.analyze.program.unfolding p.analyze.program.block.body 1 =
        .ofList (p.analyze.program.run (.ofInt 2)).callEvents) ∧
      ∃ p, parse ("program p; procedure a; begin b() end; procedure b; begin a() end; " ++
          "begin a() end.").toList "p.pas" false = .ok p ∧
        (∃ scopes, p.analyze.scopes = .ok scopes) ∧
        ∀ limit, (p.analyze.program.run limit).error ≠ none := by
  have htwice : (parse "program p; procedure q; begin end; begin q(); q() end.".toList "p.pas"
      false).toOption.any (fun p => p.analyze.scopes.isOk &&
        (p.analyze.program.run (.ofInt 2)).error.isNone &&
        (p.analyze.program.run (.ofInt 2)).callEvents.length = 4) = true := by decide +kernel
  have hmutual : (parse ("program p; procedure a; begin b() end; procedure b; begin a() end; " ++
      "begin a() end.").toList "p.pas" false).toOption.any (fun p => p.analyze.scopes.isOk &&
        (callSites (p.analyze.program.bodyOf [])).any (·.procedure.declaration = [0]) &&
        (callSites (p.analyze.program.bodyOf [0])).any (·.procedure.declaration = [1]) &&
        (callSites (p.analyze.program.bodyOf [1])).any (·.procedure.declaration = [0])) = true := by
    decide +kernel
  constructor
  · obtain ⟨p, hp, htest⟩ := parse_of_any htwice
    simp only [Bool.and_eq_true, decide_eq_true_eq, Option.isNone_iff_eq_none] at htest
    obtain ⟨⟨hok, hnone⟩, hlength⟩ := htest
    obtain ⟨-, -, hsucceeds, -⟩ := run_unfolds_calls hp (exists_scopes_of_isOk hok) (.ofInt 2)
    exact ⟨p, hp, hlength, (hsucceeds hnone).1⟩
  · obtain ⟨p, hp, htest⟩ := parse_of_any hmutual
    simp only [Bool.and_eq_true] at htest
    obtain ⟨⟨⟨hok, hmain⟩, hab⟩, hba⟩ := htest
    refine ⟨p, hp, exists_scopes_of_isOk hok, ?_⟩
    intro limit
    obtain ⟨-, -, -, -, hrecursion⟩ := run_unfolds_calls hp (exists_scopes_of_isOk hok) limit
    apply hrecursion [0]
    · exact .single (calls_of_any hmain)
    · exact .tail (.single (calls_of_any hab)) (calls_of_any hba)

end Program

end NestedPascal
