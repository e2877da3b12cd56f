import NestedPascal.Proofs.Grammar.SourceTree
import NestedPascal.Proofs.Run.Events
import NestedPascal.Proofs.Value.Range
import NestedPascal.Scope.Analysis

/-!
# Runs under a greater limit

A limit on the depth of the stack does nothing but refuse calls.  What a run does under a limit it
therefore does under every greater one too, and the two part ways only at a call that the first one
refuses.
-/

namespace NestedPascal

namespace DepthLimit

/-- Limits are ordered as their numbers are; what is no number compares to nothing. -/
instance : LE DepthLimit :=
  ⟨fun l l' => l.number ≠ .nan ∧ l'.number ≠ .nan ∧ l'.number.lt l.number = false⟩

instance (l l' : DepthLimit) : Decidable (l ≤ l') :=
  inferInstanceAs (Decidable (_ ∧ _ ∧ _))

/-- An infinite limit allows more frames than any number does. -/
theorem frames_finite_le {units : Nat} (grid : Binary64.OnGrid units) :
    frames ⟨.finite false units grid⟩ ≤ frames ⟨.infinity false⟩ := by
  have hlimit : Binary64.limit = Binary64.one * Nat.pow 2 1024 := by decide +kernel
  have hunits := grid.1
  have hle : (units + (Binary64.one - 1)) / Binary64.one ≤ Nat.pow 2 1024 := by
    rw [Nat.div_le_iff_le_mul_add_pred Binary64.one_pos]
    omega
  unfold frames
  exact hle

/-- Fewer frames fill a stack under a smaller limit. -/
theorem frames_le_of_le {l l' : DepthLimit} (h : l ≤ l') : l.frames ≤ l'.frames := by
  obtain ⟨x⟩ := l
  obtain ⟨y⟩ := l'
  obtain ⟨hx, hy, hlt⟩ := h
  simp only at hx hy hlt
  cases x with
  | nan => exact absurd rfl hx
  | infinity negative =>
      cases negative with
      | true => exact Nat.zero_le _
      | false =>
          cases y with
          | nan => exact absurd rfl hy
          | infinity negative =>
              cases negative
              · exact Nat.le_refl _
              · simp [Binary64.lt] at hlt
          | finite negative units grid => simp [Binary64.lt] at hlt
  | finite negative units grid =>
      cases negative with
      | true => exact Nat.zero_le _
      | false =>
          cases y with
          | nan => exact absurd rfl hy
          | infinity negative =>
              cases negative
              · exact frames_finite_le grid
              · simp [Binary64.lt] at hlt
          | finite negative units' grid' =>
              simp only [Binary64.lt, decide_eq_false_iff_not, Bool.false_eq_true, if_false] at hlt
              cases negative with
              | true =>
                  have hzero : units = 0 := by
                    simp only [if_true] at hlt
                    omega
                  have hrest : (Binary64.one - 1) / Binary64.one = 0 :=
                    Nat.div_eq_of_lt (Nat.sub_lt Binary64.one_pos Nat.one_pos)
                  simp [frames, hzero, hrest]
              | false =>
                  have hle : units ≤ units' := by
                    simp only [Bool.false_eq_true, if_false] at hlt
                    omega
                  exact Nat.div_le_div_right (Nat.add_le_add_right hle _)

end DepthLimit

section

variable {program : Block} {limit limit' : DepthLimit}

/-- A call goes as well under a greater limit, unless it is refused for the limit. -/
theorem Call.enter_eq_of_le (hle : limit ≤ limit') {c : Call} {m : Machine}
    (h : ∀ e, c.enter program limit m = .error e → e.cause.code = .evaluation) :
    c.enter program limit' m = c.enter program limit m := by
  have hframes := DepthLimit.frames_le_of_le hle
  unfold Call.enter at h ⊢
  cases hsymbol : c.symbol with
  | none => rfl
  | some q =>
      by_cases hfull : limit.frames ≤ m.stack.depth
      · simp [hsymbol, hfull, EvaluationCause.code] at h
      · have hroom : ¬ limit'.frames ≤ m.stack.depth := by omega
        simp [hfull, hroom]

namespace Configuration

variable {c c' : Configuration}

theorem step_eq_of_le (hle : limit ≤ limit')
    (h : ∀ e, c.step program limit = .failed e → e.cause.code = .evaluation) :
    c.step program limit' = c.step program limit := by
  have henter (a : Activation) (below : List Activation) (callee : Call) (rest : List Statement)
      (hactivations : c.activations = a :: below) (htodo : a.todo = .call callee :: rest) :
      callee.enter program limit' c.machine = callee.enter program limit c.machine := by
    apply Call.enter_eq_of_le hle
    intro e he
    apply h e
    simp [step, hactivations, htodo, he]
  unfold step
  split
  · rfl
  next a below hactivations =>
    split
    · rfl
    · rfl
    · rfl
    next callee rest htodo => rw [henter a below callee rest hactivations htodo]

theorem Reaches.of_le (hle : limit ≤ limit') (h : Reaches program limit c c') :
    Reaches program limit' c c' := by
  apply Relation.ReflTransGen.mono _ c c' h
  intro c c' hstep
  rw [step_eq_of_le hle (by simp [hstep]), hstep]

/-- Steps that do not end at the limit end in the same way under a greater one. -/
theorem EndsWith.of_le (hle : limit ≤ limit') {error : Option EvaluationError}
    (h : c.EndsWith program limit error)
    (hcode : ∀ e, error = some e → e.cause.code = .evaluation) :
    c.EndsWith program limit' error := by
  cases error with
  | none =>
      obtain ⟨hfinished, hlength⟩ := h
      refine ⟨?_, hlength⟩
      rw [step_eq_of_le hle (by simp [hfinished]), hfinished]
  | some e =>
      have hfailed : c.step program limit = .failed e := h
      have hsame : c.step program limit' = c.step program limit := by
        apply step_eq_of_le hle
        simpa [hfailed] using hcode
      exact hsame.trans hfailed

end Configuration

end

namespace Program

/-- A greater limit changes nothing about a run that the smaller one does not cut short, with or
without an error.  Of a run that the smaller one does cut short it tells the same until then. -/
theorem run_cut_short_by_limit (p : Program) {limit limit' : DepthLimit} (hle : limit ≤ limit') :
    ((p.run limit).error = none → p.run limit' = p.run limit) ∧
      (∀ e, (p.run limit).error = some e → e.cause.code = .evaluation →
        p.run limit' = p.run limit) ∧
      ∀ e, (p.run limit).error = some e → e.cause.code = .callDepth →
        ∃ told told',
          (p.run limit).events.toList = told ++ [⟨(p.run limit).ending, p.span⟩] ∧
          (p.run limit').events.toList = told' ++ [⟨(p.run limit').ending, p.span⟩] ∧
          told <+: told' := by
  obtain ⟨c, hc, -, hend, hrun⟩ := p.run_eq_result limit
  have hc' := Configuration.Reaches.of_le hle hc
  have hsame (hcode : ∀ e, (p.run limit).error = some e → e.cause.code = .evaluation) :
      p.run limit' = p.run limit := by
    rw [run_eq_of_endsWith hc' (hend.of_le hle hcode), ← hrun]
  refine ⟨?_, ?_, ?_⟩
  · intro hnone
    apply hsame
    simp [hnone]
  · intro e he hcode
    apply hsame
    simpa [he] using hcode
  · intro e _ _
    obtain ⟨final, -, hall, -, hrun'⟩ := p.run_eq_result limit'
    have hprefix := Configuration.Reaches.events_isPrefix (hall c hc')
    exact ⟨_, _, events_of_result hrun, events_of_result hrun', hprefix⟩

/-- Of three programs one is done with two frames, one divides by zero with as many, and one calls
itself on and on. -/
theorem runs_under_two_limits :
    DepthLimit.ofInt 2 ≤ DepthLimit.ofInt 4 ∧
      (∃ p, parse "program p; procedure q; begin end; begin q() end.".toList "p.pas" false = .ok p ∧
        (p.analyze.program.run (.ofInt 2)).error = none ∧
        p.analyze.program.run (.ofInt 4) = p.analyze.program.run (.ofInt 2)) ∧
      (∃ p, parse "program p; var x : integer; begin x := 1 div 0 end.".toList "p.pas" false = .ok p ∧
        (p.analyze.program.run (.ofInt 2)).error.map (·.cause.code) = some .evaluation ∧
        p.analyze.program.run (.ofInt 4) = p.analyze.program.run (.ofInt 2)) ∧
      ∃ p, parse "program p; procedure q; begin q() end; begin q() end.".toList "p.pas" false =
          .ok p ∧
        (p.analyze.program.run (.ofInt 2)).error.map (·.cause.code) = some .callDepth ∧
        ∃ told told',
          (p.analyze.program.run (.ofInt 2)).events.toList =
            told ++ [⟨(p.analyze.program.run (.ofInt 2)).ending, p.analyze.program.span⟩] ∧
          (p.analyze.program.run (.ofInt 4)).events.toList =
            told' ++ [⟨(p.analyze.program.run (.ofInt 4)).ending, p.analyze.program.span⟩] ∧
          told <+: told' ∧ told.length = 2 ∧ told'.length = 4 := by
  have hle : DepthLimit.ofInt 2 ≤ DepthLimit.ofInt 4 := by decide +kernel
  have hdone : (parse "program p; procedure q; begin end; begin q() end.".toList "p.pas"
      false).toOption.any (fun p => (p.analyze.program.run (.ofInt 2)).error.isNone) = true := by
    decide +kernel
  have hdivides : (parse "program p; var x : integer; begin x := 1 div 0 end.".toList "p.pas"
      false).toOption.any (fun p => (p.analyze.program.run (.ofInt 2)).error.map (·.cause.code) =
        some .evaluation) = true := by
    decide +kernel
  have hrecurs : (parse "program p; procedure q; begin q() end; begin q() end.".toList "p.pas"
      false).toOption.any (fun p => (p.analyze.program.run (.ofInt 2)).error.map (·.cause.code) =
          some .callDepth &&
        (p.analyze.program.run (.ofInt 2)).events.size = 3 &&
        (p.analyze.program.run (.ofInt 4)).events.size = 5) = true := by
    decide +kernel
  refine ⟨hle, ?_, ?_, ?_⟩
  · obtain ⟨p, hp, hnone⟩ := parse_of_any hdone
    rw [Option.isNone_iff_eq_none] at hnone
    exact ⟨p, hp, hnone, (run_cut_short_by_limit p.analyze.program hle).1 hnone⟩
  · obtain ⟨p, hp, hcode⟩ := parse_of_any hdivides
    have hcode := of_decide_eq_true hcode
    obtain ⟨e, he, hevaluation⟩ := Option.map_eq_some_iff.mp hcode
    exact ⟨p, hp, hcode, (run_cut_short_by_limit p.analyze.program hle).2.1 e he hevaluation⟩
  · obtain ⟨p, hp, htest⟩ := parse_of_any hrecurs
    simp only [Bool.and_eq_true, decide_eq_true_eq] at htest
    obtain ⟨⟨hcode, hsize⟩, hsize'⟩ := htest
    obtain ⟨e, he, hdepth⟩ := Option.map_eq_some_iff.mp hcode
    obtain ⟨told, told', htold, htold', hprefix⟩ :=
      (run_cut_short_by_limit p.analyze.program hle).2.2 e he hdepth
    rw [← Array.length_toList, htold] at hsize
    rw [← Array.length_toList, htold'] at hsize'
    simp only [List.length_append, List.length_singleton] at hsize hsize'
    exact ⟨p, hp, hcode, told, told', htold, htold', hprefix, by omega, by omega⟩

end Program

end NestedPascal
