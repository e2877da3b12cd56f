import NestedPascal.Proofs.Run.Transition

/-!
# Events of a run

A run tells that it starts, then of each call that it enters and of each that it leaves, and in the
end that it ends.  A step tells of one call at most and never takes anything back.
-/

namespace NestedPascal

/-- The events between the start and the end of a run. -/
def RunResult.callEvents (r : RunResult) : List Event :=
  r.events.toList.tail.dropLast

/-- How a run tells that it ended. -/
def RunResult.ending (r : RunResult) : EventKind :=
  .runEnd r.stack.depth (r.error.map fun e => (e.cause.code.text, e.cause.message))

/-- What a run comes to that ends in a configuration. -/
def Configuration.result (p : Program) (c : Configuration) (error : Option EvaluationError) :
    RunResult :=
  let reason := error.map fun e => (e.cause.code.text, e.cause.message)
  ⟨c.machine.stack, (c.machine.emit (.runEnd c.machine.stack.depth reason) p.span).events, error⟩

/-- No step leads on, for the given reason if there is one. -/
def Configuration.EndsWith (program : Block) (limit : DepthLimit) (c : Configuration) :
    Option EvaluationError → Prop
  | none => c.step program limit = .finished ∧ c.activations.length = 1
  | some e => c.step program limit = .failed e

theorem Configuration.EndsWith.step_ne {program : Block} {limit : DepthLimit} {c : Configuration}
    {error : Option EvaluationError} (h : c.EndsWith program limit error) (c' : Configuration) :
    c.step program limit ≠ .next c' := by
  cases error with
  | none => simp [h.1]
  | some e =>
      have hfailed : c.step program limit = .failed e := h
      simp [hfailed]

theorem Configuration.EndsWith.unique {program : Block} {limit : DepthLimit} {c : Configuration}
    {error error' : Option EvaluationError} (h : c.EndsWith program limit error)
    (h' : c.EndsWith program limit error') : error = error' := by
  cases error <;> cases error' <;> simp_all [EndsWith]

theorem Call.enter_events {program : Block} {limit : DepthLimit} {c : Call} {m m' : Machine}
    {entered : Activation} (h : c.enter program limit m = .ok (m', entered)) :
    ∃ q, c.symbol = some q ∧ m'.stack.depth = m.stack.depth + 1 ∧
      m'.events = m.events.push ⟨.callStart q.name (m.stack.depth + 1), c.span⟩ := by
  unfold enter at h
  split at h
  next => contradiction
  next q hsymbol =>
    split at h
    next => contradiction
    next =>
      split at h
      next => contradiction
      next frame hframe =>
        cases h
        have hdepth : (m.stack.push frame).depth = m.stack.depth + 1 := by
          simp [CallStack.depth, CallStack.push]
        exact ⟨q, hsymbol, hdepth, by simp [Machine.emit, hdepth]⟩

namespace Configuration

variable {program : Block} {limit : DepthLimit} {c c' : Configuration}

theorem Step.events_isPrefix (h : Step program limit c c') :
    c.machine.events.toList <+: c'.machine.events.toList := by
  cases h with
  | leave => simp [Machine.leave, Machine.emit]
  | compound => exact List.prefix_rfl
  | assignment hassign =>
      obtain ⟨v, symbol, place, -, -, rfl⟩ := Machine.assign_eq_ok hassign
      exact List.prefix_rfl
  | call henter =>
      obtain ⟨q, -, -, hevents⟩ := Call.enter_events henter
      simp [hevents]

theorem Reaches.events_isPrefix (h : Reaches program limit c c') :
    c.machine.events.toList <+: c'.machine.events.toList := by
  induction h with
  | refl => exact List.prefix_rfl
  | tail _ hstep ih => exact ih.trans (step_of_eq_next hstep).events_isPrefix

end Configuration

namespace Program

variable {p : Program} {limit : DepthLimit}

/-- What a run has told first is that it started. -/
theorem events_of_reaches {c : Configuration} (h : p.Reaches limit c) :
    ∃ told, c.machine.events.toList = ⟨.runStart p.name p.file, p.span⟩ :: told := by
  obtain ⟨told, htold⟩ := Configuration.Reaches.events_isPrefix h
  exact ⟨told, htold.symm⟩

theorem back?_run_events (p : Program) (limit : DepthLimit) :
    (p.run limit).events.back? = some ⟨(p.run limit).ending, p.span⟩ := by
  rw [run]
  split
  · simp [Machine.emit, RunResult.ending]
  · simp [Machine.emit, RunResult.ending]

/-- A run comes to what the configuration makes of it in which its steps end. -/
theorem run_eq_result (p : Program) (limit : DepthLimit) :
    ∃ c, p.Reaches limit c ∧
      (∀ c', p.Reaches limit c' → Configuration.Reaches p.block limit c' c) ∧
      c.EndsWith p.block limit (p.run limit).error ∧
      p.run limit = c.result p (p.run limit).error := by
  obtain ⟨c, hc, hall, hstack, ⟨last, hevents⟩, hend⟩ := p.run_reaches limit
  refine ⟨c, hc, hall, ?_, ?_⟩
  · cases herror : (p.run limit).error with
    | none =>
        rw [herror] at hend
        exact hend
    | some e =>
        rw [herror] at hend
        exact hend
  · have hlast := p.back?_run_events limit
    rw [hevents, Array.back?_push, Option.some.injEq] at hlast
    rw [hlast] at hevents
    cases hrun : p.run limit with
    | mk stack events error =>
        simp only [hrun] at hstack hevents
        simp [Configuration.result, Machine.emit, RunResult.ending, hstack, hevents]

/-- The last event tells of the end, those before it of the way there. -/
theorem events_of_result {c : Configuration} {error : Option EvaluationError}
    (h : p.run limit = c.result p error) :
    (p.run limit).events.toList =
      c.machine.events.toList ++ [⟨(p.run limit).ending, p.span⟩] := by
  simp [h, Configuration.result, Machine.emit, RunResult.ending]

/-- A run ends where its steps do. -/
theorem run_eq_of_endsWith {c : Configuration} {error : Option EvaluationError}
    (hc : p.Reaches limit c) (hend : c.EndsWith p.block limit error) :
    p.run limit = c.result p error := by
  obtain ⟨final, -, hall, hfinal, hrun⟩ := p.run_eq_result limit
  have heq : c = final := by
    rcases Relation.ReflTransGen.cases_head (hall c hc) with heq | ⟨c', hstep, -⟩
    · exact heq
    · exact absurd hstep (hend.step_ne c')
  rw [← heq] at hfinal hrun
  rw [hrun, hfinal.unique hend]

/-- The events of a run are its start, those of calls, and its end. -/
theorem run_events (p : Program) (limit : DepthLimit) :
    (p.run limit).events.toList = ⟨.runStart p.name p.file, p.span⟩ ::
      ((p.run limit).callEvents ++ [⟨(p.run limit).ending, p.span⟩]) := by
  obtain ⟨c, hc, -, -, hresult⟩ := p.run_eq_result limit
  obtain ⟨told, htold⟩ := events_of_reaches hc
  simp [RunResult.callEvents, events_of_result hresult, htold]

/-- What a configuration has told since the start is told of calls if the run ends there. -/
theorem callEvents_of_result {c : Configuration} {error : Option EvaluationError}
    (h : p.run limit = c.result p error) :
    (p.run limit).callEvents = c.machine.events.toList.tail := by
  rw [RunResult.callEvents, events_of_result h]
  cases c.machine.events.toList with
  | nil => rfl
  | cons e told => simp

end Program

end NestedPascal
