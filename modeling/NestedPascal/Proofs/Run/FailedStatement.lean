import NestedPascal.Proofs.Grammar.SourceTree
import NestedPascal.Proofs.Run.Events
import NestedPascal.Scope.Analysis

/-!
# Where a run fails

A run fails in one assignment or one call.  What it leaves is the machine as it stood before that
statement began: an assignment stores nothing until its value and its place are known, a call pushes
no frame until all its arguments are, and none of the statements around it does anything more.
-/

namespace NestedPascal

/-- How an assignment or a call fails on a stack.  What comes before the cause has succeeded. -/
inductive Statement.FailsOn (limit : DepthLimit) (stack : CallStack (Frame Nat)) :
    Statement → EvaluationError → Prop where
  | value {span target value e} :
    value.eval stack = .error e → FailsOn limit stack (.assignment span target value) e
  | target {span target value v e} :
    value.eval stack = .ok v → target.locate stack = .error e →
    FailsOn limit stack (.assignment span target value) e
  | unresolved {c : Call} :
    c.symbol = none → FailsOn limit stack (.call c) ⟨.unresolvedCall c.name, c.span⟩
  | depth {c : Call} {q} :
    c.symbol = some q → limit.frames ≤ stack.depth →
    FailsOn limit stack (.call c) ⟨.depthLimit limit c.name q.name, c.span⟩
  | link {c : Call} {q} :
    c.symbol = some q → stack.depth < limit.frames → stack.holder? q.level = none →
    FailsOn limit stack (.call c) ⟨.noActiveFrame q.name q.level, c.span⟩
  | argument {c : Call} {q place arg e} {i : Nat} :
    c.symbol = some q → stack.depth < limit.frames → stack.holder? q.level = some place →
    i < q.params.length → EvaluateUpTo stack c.args i → c.args[i]? = some arg →
    arg.eval stack = .error e → FailsOn limit stack (.call c) e
  | missing {c : Call} {q place param} {i : Nat} :
    c.symbol = some q → stack.depth < limit.frames → stack.holder? q.level = some place →
    EvaluateUpTo stack c.args i → c.args[i]? = none → q.params[i]? = some param →
    FailsOn limit stack (.call c) ⟨.missingArgument param.name c.name, c.span⟩

/-- The statement that is about to begin, if the innermost activation has one left. -/
def Configuration.next? (c : Configuration) : Option Statement :=
  c.activations.head?.bind (·.todo.head?)

/-- What a run that fails promises of the statement in which it does, when it is about to begin in
a configuration. -/
structure Program.FailsIn (p : Program) (limit : DepthLimit) (e : EvaluationError)
    (c : Configuration) (s : Statement) : Prop where
  reached : p.Reaches limit c
  next : c.next? = some s
  cause : s.FailsOn limit c.machine.stack e
  /-- The stack that the run leaves is the one from before the statement. -/
  stack : (p.run limit).stack = c.machine.stack
  /-- Nothing more is told than that the run ends. -/
  events : (p.run limit).events.toList =
    c.machine.events.toList ++ [⟨(p.run limit).ending, p.span⟩]
  /-- Every call that has been entered and not left still has its frame. -/
  frames : (p.run limit).stack.depth = c.activations.length
  /-- The statement, executed from there, fails and leaves the machine as it is. -/
  execution : s.execute (Call.execute p.block limit (limit.frames - c.machine.stack.depth))
    c.machine = .error ⟨e, c.machine⟩
  /-- So does every statement around it, and what was done since that one began stays done. -/
  callers : ∀ c' s' failure, p.Reaches limit c' → c'.next? = some s' →
    s'.execute (Call.execute p.block limit (limit.frames - c'.machine.stack.depth)) c'.machine =
      .error failure → failure = ⟨e, c.machine⟩

section

variable {limit : DepthLimit} {stack : CallStack (Frame Nat)} {e : EvaluationError}

theorem Machine.failsOn_of_assign {m : Machine} {span : Span} {target : VariableRef} {value : Expr}
    {failure : Machine.Failure} (h : m.assign target value = .error failure) :
    (Statement.assignment span target value).FailsOn limit m.stack failure.error := by
  unfold assign withResult at h
  split at h
  next v hvalue =>
    split at h
    next => contradiction
    next e hlocated =>
      cases h
      exact .target hvalue hlocated
  next e hvalue =>
    cases h
    exact .value hvalue

theorem Call.failsOn_of_enter {program : Block} {c : Call} {m : Machine}
    (h : c.enter program limit m = .error e) : (Statement.call c).FailsOn limit m.stack e := by
  unfold enter at h
  split at h
  next hsymbol =>
    cases h
    exact .unresolved hsymbol
  next q hsymbol =>
    split at h
    next hfull =>
      cases h
      exact .depth hsymbol hfull
    next hroom =>
      have hroom : m.stack.depth < limit.frames := by omega
      split at h
      next e' hframe =>
        cases h
        unfold Call.frame at hframe
        split at hframe
        next hplace =>
          cases hframe
          exact .link hsymbol hroom hplace
        next place hplace =>
          rcases bind_eq_error_iff.mp hframe with hmembers | ⟨members, -, hframe⟩
          · obtain ⟨i, param, hparam, hbefore, ⟨hnone, rfl⟩ | ⟨arg, harg, hfailed⟩⟩ :=
              bindArguments_stops hmembers
            · exact .missing hsymbol hroom hplace hbefore hnone hparam
            · have hi := (List.getElem?_eq_some_iff.mp hparam).1
              exact .argument hsymbol hroom hplace hi hbefore harg hfailed
          · contradiction
      next => contradiction

end

namespace Configuration

section

variable {program : Block} {limit : DepthLimit} {c c' : Configuration} {s : Statement}
  {e : EvaluationError}

theorem next?_eq_some (h : c.next? = some s) : ∃ (a : Activation) (below : List Activation)
    (rest : List Statement), c = ⟨c.machine, { a with todo := s :: rest } :: below⟩ := by
  obtain ⟨a, ha, hs⟩ := Option.bind_eq_some_iff.mp h
  obtain ⟨below, hbelow⟩ := List.head?_eq_some_iff.mp ha
  obtain ⟨rest, hrest⟩ := List.head?_eq_some_iff.mp hs
  refine ⟨a, below, rest, ?_⟩
  rw [← hrest, ← hbelow]

theorem failsOn_of_step_failed (h : c.step program limit = .failed e) :
    ∃ s, c.next? = some s ∧ s.FailsOn limit c.machine.stack e := by
  obtain ⟨declaration, call, rest, below, ⟨span, target, value, hactivations, -⟩ |
    ⟨callee, hactivations, henter⟩⟩ := eq_of_step_failed h
  · refine ⟨.assignment span target value, by simp [next?, hactivations], ?_⟩
    simp only [step, hactivations] at h
    split at h
    next failure hassign =>
      cases h
      exact Machine.failsOn_of_assign hassign
    next => contradiction
  · exact ⟨.call callee, by simp [next?, hactivations], Call.failsOn_of_enter henter⟩

/-- Where a step fails there is no way on. -/
theorem Reaches.eq_of_step_failed (hc : Reaches program limit c c')
    (hfailed : c.step program limit = .failed e) : c' = c := by
  rcases Relation.ReflTransGen.cases_head hc with heq | ⟨c'', hstep, -⟩
  · exact heq.symm
  · rw [hfailed] at hstep
    contradiction

theorem execute_stepsTo (s : Statement) (m : Machine) :
    StepsTo program limit [s] m
      (s.execute (Call.execute program limit (limit.frames - m.stack.depth)) m) :=
  Statement.execute_stepsTo
    (fun call m' hm' => Call.execute_stepsTo _ call m' (by rw [hm'])) s m rfl

/-- A statement that fails leaves the machine as it is where the steps fail. -/
theorem failure_of_execute {failure : Machine.Failure} (hnext : c.next? = some s)
    (hc : Reaches program limit c c') (hfailed : c'.step program limit = .failed e)
    (h : s.execute (Call.execute program limit (limit.frames - c.machine.stack.depth)) c.machine =
      .error failure) : failure = ⟨e, c'.machine⟩ := by
  obtain ⟨a, below, rest, hactivations⟩ := next?_eq_some hnext
  obtain ⟨activations, hreaches, hfails⟩ :=
    (execute_stepsTo s c.machine).fails failure h a below rest
  rw [List.singleton_append, ← hactivations] at hreaches
  have hend (c'' : Configuration) : c'.step program limit ≠ .next c'' := by
    simp [hfailed]
  have heq := (reaches_end hreaches hc hend).eq_of_step_failed hfails
  rw [heq, hfails] at hfailed
  cases hfailed
  rw [heq]

/-- A statement whose first step fails does nothing at all. -/
theorem execute_of_step_failed (hnext : c.next? = some s)
    (hfailed : c.step program limit = .failed e) :
    s.execute (Call.execute program limit (limit.frames - c.machine.stack.depth)) c.machine =
      .error ⟨e, c.machine⟩ := by
  cases hresult : s.execute (Call.execute program limit (limit.frames - c.machine.stack.depth))
      c.machine with
  | error failure => rw [failure_of_execute hnext .refl hfailed hresult]
  | ok m =>
      obtain ⟨a, below, rest, hactivations⟩ := next?_eq_some hnext
      have hreaches := ((execute_stepsTo s c.machine).passes m hresult).2 a below rest
      rw [List.singleton_append, ← hactivations] at hreaches
      -- The statement would be done, but no step is taken.
      have heq := hreaches.eq_of_step_failed hfailed
      rw [hactivations] at heq
      simp at heq

end

end Configuration

namespace Program

/-- A run that fails leaves the stack as it stood before the assignment or the call began in which
it failed. -/
theorem failing_statement_leaves_no_trace (p : Program) (limit : DepthLimit) {e : EvaluationError}
    (h : (p.run limit).error = some e) : ∃ c s, p.FailsIn limit e c s := by
  obtain ⟨c, hc, hall, hend, hresult⟩ := p.run_eq_result limit
  rw [h] at hend
  have hfailed : c.step p.block limit = .failed e := hend
  have hstack : (p.run limit).stack = c.machine.stack := by
    rw [hresult]
    rfl
  obtain ⟨s, hnext, hcause⟩ := Configuration.failsOn_of_step_failed hfailed
  refine ⟨c, s, hc, hnext, hcause, hstack, events_of_result hresult, ?_,
    Configuration.execute_of_step_failed hnext hfailed, ?_⟩
  · rw [hstack, Configuration.depth_eq_of_reaches hc]
  · intro c' s' failure hc' hnext' hexecute
    exact Configuration.failure_of_execute hnext' (hall c' hc') hfailed hexecute

/-- The second argument of a call divides by zero.  The caller's frame and what the program has
assigned are still there, and the callee has no frame. -/
theorem argument_division_leaves_no_trace :
    ∃ p e c s, parse ("program p; var x : integer; procedure q(a, b : integer); begin end; " ++
        "procedure r; begin x := 1; q(x, x div 0) end; begin r() end.").toList "p.pas" false =
        .ok p ∧
      (p.analyze.program.run (.ofInt 9)).error = some e ∧ e.cause = .divisionByZero ∧
      (p.analyze.program.run (.ofInt 9)).stack.frames.toList.map (fun f => (f.name, f.link)) =
        [("p", none), ("r", some 0)] ∧
      (p.analyze.program.run (.ofInt 9)).stack.frames[0]?.bind (·.get? "x") = some (.ofInt 1) ∧
      p.analyze.program.FailsIn (.ofInt 9) e c s := by
  have hruns : (parse ("program p; var x : integer; procedure q(a, b : integer); begin end; " ++
      "procedure r; begin x := 1; q(x, x div 0) end; begin r() end.").toList "p.pas"
      false).toOption.any (fun p =>
        ((p.analyze.program.run (.ofInt 9)).error.map (·.cause) = some .divisionByZero) &&
        ((p.analyze.program.run (.ofInt 9)).stack.frames.toList.map (fun f => (f.name, f.link)) =
          [("p", none), ("r", some 0)]) &&
        ((p.analyze.program.run (.ofInt 9)).stack.frames[0]?.bind (·.get? "x") =
          some (.ofInt 1))) = true := by decide +kernel
  obtain ⟨p, hp, htest⟩ := parse_of_any hruns
  simp only [Bool.and_eq_true, decide_eq_true_eq] at htest
  obtain ⟨⟨hcause, hframes⟩, hmember⟩ := htest
  obtain ⟨e, he, hcause⟩ := Option.map_eq_some_iff.mp hcause
  obtain ⟨c, s, hfails⟩ := failing_statement_leaves_no_trace p.analyze.program (.ofInt 9) he
  exact ⟨p, e, c, s, hp, he, hcause, hframes, hmember, hfails⟩

end Program

end NestedPascal
