import NestedPascal.Proofs.CommandLine.FileTree
import NestedPascal.Proofs.CommandLine.Reading
import NestedPascal.Proofs.Run.TracedExecution
import NestedPascal.Proofs.Scope.TracedAnalysis
import NestedPascal.Proofs.Text.Utf8

/-!
# Traces that are written as a run goes on

A run on a host tells its events to a file while it goes on, and every one of them can fail to be
written.  If none does, the run comes to what it comes to without a trace, and what was written is
the lines of its events, in order, each with the time that the clock showed when it was told.
-/

namespace NestedPascal

namespace ProgramAnalysis

/-- The events of a run of a program that is analysed, if analysis went through. -/
def runEvents (analysis : ProgramAnalysis) (limit : DepthLimit) : List Event :=
  match analysis.scopes with
  | .error _ => []
  | .ok _ => (analysis.program.run limit).events.toList

/-- The reply to a run of a program that is analysed, if nothing fails that is told. -/
def finalReply (analysis : ProgramAnalysis) (file : String) (limit : DepthLimit) (pretty : Bool) :
    Reply :=
  match analysis.scopes with
  | .error e => .ofSemanticError file e pretty
  | .ok _ => .ofRun file (analysis.program.run limit) pretty

end ProgramAnalysis

/-- The events that the trace of a run tells. -/
def Program.traceEvents (p : Program) (limit : DepthLimit) : List Event :=
  p.analyze.events ++ p.analyze.runEvents limit

/-! ## Failures are not forgotten -/

/-- The computation goes on from a failure to a failure. -/
def KeepsFailure (x : StateM World α) : Prop :=
  ∀ w, w.hasFailed = true → (x.run w).2.hasFailed = true

namespace KeepsFailure

variable {x : StateM World α} {f : α → StateM World β}

theorem pure (a : α) : KeepsFailure (Pure.pure a : StateM World α) :=
  fun _ h => h

theorem bind (hx : KeepsFailure x) (hf : ∀ a, KeepsFailure (f a)) : KeepsFailure (x >>= f) :=
  fun w h => hf _ _ (hx w h)

theorem forResults {ε : Type} {f : Except ε α → StateM World β}
    (herror : ∀ e, KeepsFailure (f (.error e))) (hok : ∀ a, KeepsFailure (f (.ok a)))
    (r : Except ε α) : KeepsFailure (f r) := by
  cases r with
  | error e => exact herror e
  | ok a => exact hok a

theorem bindOk {ε : Type} {x : ExceptT ε (StateM World) α} {f : α → ExceptT ε (StateM World) β}
    (hx : KeepsFailure x.run) (hf : ∀ a, KeepsFailure (f a).run) : KeepsFailure (x >>= f).run := by
  rw [ExceptT.run_bind]
  exact hx.bind (forResults (fun e => .pure _) hf)

end KeepsFailure

namespace Surroundings

variable {around : Surroundings} {trace : Option Place} {file : String}

/-! ## What is written of an event -/

/-- The world after an event was told, to the file at a place if there is a trace. -/
def record (around : Surroundings) (trace : Option Place) (file : String) (w : World)
    (e : TimedEvent) : World :=
  match trace with
  | none => w
  | some place => around.put place (e.line file around.runId ++ "\n") w

theorem put_readings (place : Place) (text : String) (w : World) (n : Nat) :
    around.put place text { w with readings := n } =
      { around.put place text w with readings := n } := by
  rw [put, put]
  split <;> rfl

theorem record_readings (w : World) (e : TimedEvent) (n : Nat) :
    around.record trace file { w with readings := n } e =
      { around.record trace file w e with readings := n } := by
  cases trace with
  | none => rfl
  | some place => exact put_readings place _ w n

theorem foldl_record_readings (told : List TimedEvent) (w : World) (n : Nat) :
    told.foldl (around.record trace file) { w with readings := n } =
      { told.foldl (around.record trace file) w with readings := n } := by
  induction told generalizing w with
  | nil => rfl
  | cons e told ih => rw [List.foldl_cons, List.foldl_cons, record_readings, ih]

theorem put_hasFailed (place : Place) (text : String) (w : World) :
    (around.put place text w).hasFailed = w.hasFailed := by
  rw [put]
  split <;> rfl

theorem foldl_record_hasFailed (told : List TimedEvent) (w : World) :
    (told.foldl (around.record trace file) w).hasFailed = w.hasFailed := by
  induction told generalizing w with
  | nil => rfl
  | cons e told ih =>
      rw [List.foldl_cons, ih]
      cases trace with
      | none => rfl
      | some place => exact put_hasFailed place _ w

theorem foldl_record_none (told : List TimedEvent) (w : World) :
    told.foldl (around.record none file) w = w := by
  induction told with
  | nil => rfl
  | cons e told ih => exact ih

/-! ## Computations that tell events -/

/-- A time between two readings of the clock, or no time at all. -/
def IsMeasured (around : Surroundings) (duration : Time.Duration) : Prop :=
  duration = .zero ∨ ∃ j k, duration = (around.clock k).since (around.clock j)

/-- What an event is told with are readings of the clock. -/
structure IsStamped (around : Surroundings) (e : TimedEvent) : Prop where
  time : ∃ k, e.time = around.clock k
  duration : around.IsMeasured e.duration

/-- Writing a trace can fail. -/
def MayFail (around : Surroundings) (trace : Option Place) : Prop :=
  ∃ place w e, trace = some place ∧ around.fault place w = some e

/-- The computation comes to a result and tells events one after the other, each with the time that
the clock shows, unless writing them fails. -/
structure Tells (around : Surroundings) (trace : Option Place) (file : String) (x : StateM World α)
    (a : α) (events : List Event) : Prop where
  keepsFailure : KeepsFailure x
  run_eq : ∀ w, (around.MayFail trace → (x.run w).2.hasFailed = false) →
    ∃ (told : List TimedEvent) (n : Nat), told.map TimedEvent.event = events ∧
      (∀ e ∈ told, around.IsStamped e) ∧
      x.run w = (a, { told.foldl (around.record trace file) w with readings := n })

namespace Tells

variable {x : StateM World α} {a : α} {b : β} {events events' : List Event}

theorem pure (a : α) : Tells around trace file (Pure.pure a : StateM World α) a [] :=
  ⟨.pure a, fun w _ => ⟨[], w.readings, rfl, nofun, rfl⟩⟩

theorem bind {f : α → StateM World β} (hx : Tells around trace file x a events)
    (hf : Tells around trace file (f a) b events') (hkeeps : ∀ a, KeepsFailure (f a)) :
    Tells around trace file (x >>= f) b (events ++ events') := by
  refine ⟨hx.keepsFailure.bind hkeeps, fun w hw => ?_⟩
  change around.MayFail trace → ((f (x.run w).1).run (x.run w).2).2.hasFailed = false at hw
  have hw₁ (hmay : around.MayFail trace) : (x.run w).2.hasFailed = false := by
    refine Bool.eq_false_iff.mpr fun hfailed => ?_
    have hlast := hw hmay
    rw [hkeeps _ _ hfailed] at hlast
    contradiction
  obtain ⟨told, n, htold, hstamped, hrun⟩ := hx.run_eq w hw₁
  rw [hrun] at hw
  obtain ⟨told', n', htold', hstamped', hrun'⟩ := hf.run_eq _ hw
  refine ⟨told ++ told', n', by rw [List.map_append, htold, htold'],
    List.forall_mem_append.mpr ⟨hstamped, hstamped'⟩, ?_⟩
  change (f (x.run w).1).run (x.run w).2 = _
  rw [hrun, hrun', foldl_record_readings, List.foldl_append]

theorem map (f : α → β) (h : Tells around trace file x a events) :
    Tells around trace file (f <$> x) (f a) events := by
  rw [map_eq_pure_bind, ← List.append_nil events]
  exact h.bind (.pure _) fun a => .pure _

/-- Reading the clock tells nothing, whatever it shows. -/
theorem clock_bind {f : Time.Instant → StateM World α}
    (h : ∀ k, Tells around trace file (f (around.clock k)) a events) :
    Tells around trace file (around.host.clock >>= f) a events := by
  have hclock (w : World) : (around.host.clock >>= f).run w =
      (f (around.clock w.readings)).run { w with readings := w.readings + 1 } := rfl
  refine ⟨fun w hw => ?_, fun w hw => ?_⟩
  · rw [hclock]
    exact (h _).keepsFailure _ hw
  · rw [hclock] at hw ⊢
    obtain ⟨told, n, htold, hstamped, hrun⟩ := (h _).run_eq _ hw
    exact ⟨told, n, htold, hstamped, by rw [hrun, foldl_record_readings]⟩

/-! ### Computations that may be given up -/

variable {ε ε' : Type}

theorem bindOk {x : ExceptT ε (StateM World) α} {f : α → ExceptT ε (StateM World) β}
    {r : Except ε β} (hx : Tells around trace file x.run (.ok a) events)
    (hf : Tells around trace file (f a).run r events') (hkeeps : ∀ a, KeepsFailure (f a).run) :
    Tells around trace file (x >>= f).run r (events ++ events') := by
  rw [ExceptT.run_bind]
  exact hx.bind hf (KeepsFailure.forResults (fun e => .pure _) hkeeps)

theorem lift_bindOk {x : StateM World α} {f : α → ExceptT ε (StateM World) β} {r : Except ε β}
    (hx : Tells around trace file x a events)
    (hf : Tells around trace file (f a).run r events') (hkeeps : ∀ a, KeepsFailure (f a).run) :
    Tells around trace file ((x : ExceptT ε (StateM World) α) >>= f).run r (events ++ events') := by
  change Tells around trace file (ExceptT.lift x >>= f).run r (events ++ events')
  rw [ExceptT.run_bind_lift]
  exact hx.bind hf hkeeps

theorem clock_bindOk {f : Time.Instant → ExceptT ε (StateM World) α} {r : Except ε α}
    (h : ∀ k, Tells around trace file (f (around.clock k)).run r events) :
    Tells around trace file ((around.host.clock : ExceptT ε (StateM World) _) >>= f).run r events := by
  change Tells around trace file (ExceptT.lift around.host.clock >>= f).run r events
  rw [ExceptT.run_bind_lift]
  exact clock_bind h

theorem forM_run {α : Type} {f : α → ExceptT ε (StateM World) Unit} {g : α → Event}
    (h : ∀ a, Tells around trace file (f a).run (.ok ()) [g a]) (l : List α) :
    Tells around trace file (forM l f).run (.ok ()) (l.map g) := by
  induction l with
  | nil => exact .pure _
  | cons a l ih =>
      rw [List.forM_cons]
      exact (h a).bindOk ih fun _ => ih.keepsFailure

theorem adapt (f : ε → ε') {x : ExceptT ε (StateM World) α}
    (h : Tells around trace file x.run (.ok a) events) :
    Tells around trace file (x.adapt f).run (.ok a) events :=
  h.map (Except.mapError f)

end Tells

/-! ## The tracer of a run -/

/-- The tracer of a run, which writes to what is at a place if there is a trace. -/
def tracer (around : Surroundings) (trace : Option Place) (file : String) :
    Tracer (StateM World) :=
  around.host.tracer file around.runId (trace.map around.openFile)

theorem attempt_run (place : Place) (act : World → World) (w : World) :
    (around.attempt place act).run w = match around.fault place w with
      | some e => (.error e, { w with hasFailed := true })
      | none => (.ok (), act w) := by
  cases hfault : around.fault place w <;>
    simp only [attempt, StateT.run_bind, StateT.run_get, pure_bind, hfault] <;>
    rfl

variable (around trace file)

/-- What is done to an open file tells the events that it writes. -/
theorem tells_attempt {place : Place} {act : World → World} (told : List TimedEvent)
    (hact : ∀ w, act w = told.foldl (around.record (some place) file) w)
    (hstamped : ∀ e ∈ told, around.IsStamped e) :
    Tells around (some place) file (around.attempt place act) (.ok ())
      (told.map TimedEvent.event) := by
  refine ⟨fun w hw => ?_, fun w hw => ?_⟩
  · rw [attempt_run]
    split
    next => rfl
    next => rw [hact, foldl_record_hasFailed, hw]
  · rw [attempt_run] at hw ⊢
    split
    next hfault => simpa [hfault] using hw ⟨place, _, _, rfl, hfault⟩
    next =>
      have hkept : act w = { told.foldl (around.record (some place) file) w with
          readings := w.readings } := (hact w).trans (foldl_record_readings told w w.readings)
      exact ⟨told, w.readings, rfl, hstamped, congrArg (Prod.mk _) hkept⟩

theorem tells_close (place : Place) :
    Tells around (some place) file (around.attempt place id) (.ok ()) [] :=
  around.tells_attempt file [] (fun _ => rfl) nofun

theorem tells_tell (e : Event) {duration : Time.Duration} (hduration : around.IsMeasured duration) :
    Tells around trace file ((around.tracer trace file).tell e duration).run (.ok ()) [e] := by
  have hstamped (k : Nat) :
      ∀ told ∈ [(⟨e, around.clock k, duration⟩ : TimedEvent)], around.IsStamped told :=
    List.forall_mem_singleton.mpr ⟨⟨k, rfl⟩, hduration⟩
  cases trace with
  | none =>
      exact ⟨.pure _, fun w _ => ⟨[⟨e, around.clock 0, duration⟩], w.readings, rfl, hstamped 0, rfl⟩⟩
  | some place =>
      exact .clock_bindOk fun k =>
        (around.tells_attempt file _ (fun _ => rfl) (hstamped k)).map (Except.mapError _)

theorem tells_analyze (p : Program) :
    Tells around trace file (p.analyzeTraced (around.tracer trace file).tell).run (.ok p.analyze)
      p.analyze.events := by
  rw [Program.analyzeTraced_eq]
  have htold := Tells.forM_run (fun e => around.tells_tell trace file e (.inl rfl)) p.analyze.events
  have hall := htold.bindOk (f := fun _ => pure p.analyze) (.pure _) fun _ => .pure _
  rwa [List.map_id', List.append_nil] at hall

theorem tells_tellAt (depth : Nat) (e : Event) {duration : Time.Duration}
    (hduration : around.IsMeasured duration) :
    Tells around trace file ((around.tracer trace file).tellAt depth e duration).run (.ok ())
      [e] :=
  (around.tells_tell trace file e hduration).adapt _

theorem tells_tellEnd (p : Program) (j depth : Nat) (reason : Option (String × String)) :
    Tells around trace file (p.tellEnd (around.tracer trace file) (around.clock j) depth reason).run
      (.ok ()) [⟨.runEnd depth reason, p.span⟩] :=
  .clock_bindOk fun k => around.tells_tellAt trace file depth _ (.inr ⟨j, k, rfl⟩)

theorem tells_executeAll (p : Program) (limit : DepthLimit) :
    ∃ r, p.run limit = .ofStep p r ∧
      Tells around trace file (executeAllTraced (Call.executeTraced
        ((around.tracer trace file).tellAt · ·) p.block limit limit.calls) p.block.body
        p.initialMachine).run.run (.ok r) (p.run limit).callEvents := by
  obtain ⟨r, told, hresult, hcalls, hrun⟩ :=
    p.executeAllTraced_run limit ((around.tracer trace file).tellAt · ·)
  refine ⟨r, hresult, ?_⟩
  have htold := Tells.forM_run (fun e => around.tells_tellAt trace file e.1 e.2 (.inl rfl)) told
  have hall := htold.bindOk (f := fun _ => pure r) (.pure _) fun _ => .pure _
  rwa [hcalls, hrun, ← List.append_nil (told.map _)]

/-- The statements of a program are told, and if they are done the end of the run is. -/
theorem tells_body (p : Program) (limit : DepthLimit) (j : Nat) :
    (∃ s, p.run limit = .ofStep p (.ok s) ∧
      Tells around trace file (p.bodyTraced (around.tracer trace file) (around.clock j) limit).run
        (.ok (.ok (s.emit (.runEnd s.stack.depth none) p.span)))
        ((p.run limit).callEvents ++ [⟨.runEnd s.stack.depth none, p.span⟩])) ∨
    ∃ failure, p.run limit = .ofStep p (.error failure) ∧
      Tells around trace file (p.bodyTraced (around.tracer trace file) (around.clock j) limit).run
        (.ok (.error failure)) (p.run limit).callEvents := by
  obtain ⟨r, hresult, hstatements⟩ := around.tells_executeAll trace file p limit
  have hend (s : Machine) :
      Tells around trace file (do
        p.tellEnd (around.tracer trace file) (around.clock j) s.stack.depth none
        pure (.ok (s.emit (.runEnd s.stack.depth none) p.span)) :
          ExceptT Untold (StateM World) Machine.Step).run
        (.ok (.ok (s.emit (.runEnd s.stack.depth none) p.span)))
        [⟨.runEnd s.stack.depth none, p.span⟩] :=
    (around.tells_tellEnd trace file p j s.stack.depth none).bindOk (.pure _) fun _ => .pure _
  cases r with
  | ok s =>
      refine .inl ⟨s, hresult, hstatements.bindOk (hend s) ?_⟩
      exact KeepsFailure.forResults (fun _ => .pure _) fun s => (hend s).keepsFailure
  | error failure =>
      refine .inr ⟨failure, hresult, ?_⟩
      rw [← List.append_nil (p.run limit).callEvents]
      refine hstatements.bindOk (.pure _) ?_
      exact KeepsFailure.forResults (fun _ => .pure _) fun s => (hend s).keepsFailure

theorem keepsFailure_conclude (p : Program) (j : Nat)
    (r : Except Untold Machine.Step) :
    KeepsFailure (p.concludeTraced (around.tracer trace file) (around.clock j) r).run := by
  have hend (depth : Nat) (reason : Option (String × String)) :=
    ((around.tells_tellEnd trace file p j depth reason).adapt Untold.message).keepsFailure
  rcases r with untold | failure | s
  · exact (hend _ _).bindOk fun _ => .pure _
  · exact (hend _ _).bindOk fun _ => .pure _
  · exact .pure _

/-- A run that is told comes to what the run without a trace comes to. -/
theorem tells_run (p : Program) (limit : DepthLimit) :
    Tells around trace file (p.runTraced (around.tracer trace file) limit).run (.ok (p.run limit))
      (p.run limit).events.toList := by
  rw [p.run_events limit, Program.runTraced, ← List.singleton_append]
  refine Tells.clock_bindOk fun j => ?_
  have hkeeps := around.keepsFailure_conclude trace file p j
  have hrest : Tells around trace file
      (((p.bodyTraced (around.tracer trace file) (around.clock j) limit).run :
          ExceptT String (StateM World) _) >>=
        p.concludeTraced (around.tracer trace file) (around.clock j)).run (.ok (p.run limit))
      ((p.run limit).callEvents ++ [⟨(p.run limit).ending, p.span⟩]) := by
    rcases around.tells_body trace file p limit j with
      ⟨s, hresult, hbody⟩ | ⟨failure, hresult, hbody⟩
    · rw [hresult] at hbody ⊢
      rw [← List.append_nil (_ ++ [_])]
      exact hbody.lift_bindOk (.pure _) hkeeps
    · refine hbody.lift_bindOk ?_ hkeeps
      rw [hresult]
      exact ((around.tells_tellEnd trace file p j _ _).adapt Untold.message).bindOk (.pure _)
        fun _ => .pure _
  exact (around.tells_tell trace file _ (.inl rfl)).bindOk hrest fun _ => hrest.keepsFailure

theorem tells_analyzedReply (analysis : ProgramAnalysis) (replyFile : String) (limit : DepthLimit)
    (pretty : Bool) :
    Tells around trace file
      (analysis.runReply (around.tracer trace file) replyFile limit pretty).run
      (.ok (analysis.finalReply replyFile limit pretty)) (analysis.runEvents limit) := by
  rw [ProgramAnalysis.runReply, ProgramAnalysis.finalReply, ProgramAnalysis.runEvents]
  cases analysis.scopes with
  | error e => exact .pure _
  | ok scopes =>
      rw [← List.append_nil (Array.toList _)]
      exact (around.tells_run trace file analysis.program limit).bindOk (.pure _) fun _ => .pure _

/-- The reply to a run is what it is without a trace, unless telling of the run fails. -/
theorem tells_runReply (p : Program) (limit : DepthLimit) (pretty : Bool) :
    Tells around trace file (p.runReply (around.tracer trace file) limit pretty)
      (p.analyze.finalReply p.file limit pretty) (p.traceEvents limit) := by
  rw [Program.runReply, ← List.append_nil (p.traceEvents limit)]
  have hreply := (around.tells_analyze trace file p).bindOk
    (around.tells_analyzedReply trace file p.analyze p.file limit pretty)
    fun analysis => (around.tells_analyzedReply trace file analysis p.file limit pretty).keepsFailure
  refine hreply.bind (.pure _) fun told => ?_
  cases told <;> exact .pure _

/-! ## Runs of a program -/

/-- The world in which what is at a place is open for writing. -/
def opened (around : Surroundings) (place : Place) (w : World) : World :=
  if (around.streams.get? place).isNone then { w with files := w.files.create place } else w

/-- Without a trace, the reply to a run is that to the run, and no file changes. -/
theorem runProgram_none {w : World} (p : Program) (limit : DepthLimit) (pretty : Bool) :
    ∃ n, (around.host.runProgram p none limit pretty).run w =
      (p.analyze.finalReply p.file limit pretty, { w with readings := n }) := by
  obtain ⟨told, n, -, -, hrun⟩ := (around.tells_runReply none p.file p limit pretty).run_eq w nofun
  rw [foldl_record_none] at hrun
  exact ⟨n, hrun⟩

theorem create_run {w : World} {path : String} {place : Place}
    (h : w.files.placeToWrite around.current path = .ok place) :
    (around.host.create path).run w =
      (.ok (around.openFile place), around.opened place w) := by
  change (around.create path).run w = _
  simp only [create, StateT.run_bind, StateT.run_get, pure_bind, h, opened]
  split <;> rfl

/-- A run with a trace that is written replies what it does without one, and what it leaves is what
was written of its events. -/
theorem runProgram_some {w : World} {path : String} {place : Place}
    (hplace : w.files.placeToWrite around.current path = .ok place) (p : Program)
    (limit : DepthLimit) (pretty : Bool)
    (hwritten : around.MayFail (some place) →
      ((around.host.runProgram p (some path) limit pretty).run w).2.hasFailed = false) :
    ∃ (told : List TimedEvent) (n : Nat), told.map TimedEvent.event = p.traceEvents limit ∧
      (∀ e ∈ told, around.IsStamped e) ∧
      (around.host.runProgram p (some path) limit pretty).run w =
        (p.analyze.finalReply p.file limit pretty,
          { told.foldl (around.record (some place) p.file) (around.opened place w) with
            readings := n }) := by
  have hpath : path ≠ "" := by
    rintro rfl
    contradiction
  have hrun : (around.host.runProgram p (some path) limit pretty).run w =
      (p.runReply (around.tracer (some place) p.file) limit pretty >>= fun reply =>
        around.attempt place id >>= fun closed => pure (reply.closing closed pretty)).run
        (around.opened place w) := by
    have hfilter : (some path).filter (· ≠ "") = some path := by simp [hpath]
    rw [Host.runProgram, hfilter, StateT.run_bind, around.create_run hplace]
    rfl
  have hclose (reply : Reply) := (around.tells_close p.file place).map (reply.closing · pretty)
  have htells := (around.tells_runReply (some place) p.file p limit pretty).bind (hclose _)
    fun reply => (hclose reply).keepsFailure
  rw [List.append_nil] at htells
  rw [hrun] at hwritten ⊢
  exact htells.run_eq _ hwritten

theorem opened_hasFailed (place : Place) (w : World) :
    (around.opened place w).hasFailed = w.hasFailed := by
  rw [opened]
  split <;> rfl

/-- Nothing fails where nothing can. -/
theorem runProgram_hasFailed {w : World} {path : String} {place : Place}
    (hplace : w.files.placeToWrite around.current path = .ok place)
    (hfault : ∀ w, around.fault place w = none) (p : Program) (limit : DepthLimit)
    (pretty : Bool) :
    ((around.host.runProgram p (some path) limit pretty).run w).2.hasFailed = w.hasFailed := by
  have hmay : ¬around.MayFail (some place) := by
    rintro ⟨_, w, e, ⟨⟩, he⟩
    rw [hfault w] at he
    contradiction
  obtain ⟨told, n, -, -, hrun⟩ := around.runProgram_some hplace p limit pretty fun h => absurd h hmay
  rw [hrun]
  exact (foldl_record_hasFailed told _).trans (around.opened_hasFailed place w)

/-! ## What a trace leaves -/

end Surroundings

theorem traceText_cons (file runId : String) (e : TimedEvent) (told : List TimedEvent) :
    traceText file runId (e :: told) = e.line file runId ++ "\n" ++ traceText file runId told := by
  simp [traceText, String.join_cons]

/-- A reply with a text before it on one of the outputs, if any. -/
def Reply.preceded (r : Reply) (stream : Option OutputStream) (text : String) : Reply :=
  match stream with
  | none => r
  | some .output => { r with output := text ++ r.output }
  | some .errors => { r with errors := text ++ r.errors }

namespace Surroundings

variable {around : Surroundings} {place : Place}

/-- A trace on an output of the program stands before what the program prints there. -/
theorem shown_record (around : Surroundings) (place : Place) (file : String)
    (told : List TimedEvent) (w : World) (r : Reply) :
    (told.foldl (around.record (some place) file) w).shown r =
      w.shown (r.preceded (around.streams.get? place) (traceText file around.runId told)) := by
  induction told generalizing w with
  | nil =>
      rcases around.streams.get? place with _ | _ | _ <;>
        simp [Reply.preceded, World.shown, traceText]
  | cons e told ih =>
      rw [List.foldl_cons, ih, traceText_cons, record, put]
      rcases around.streams.get? place with _ | _ | _ <;>
        simp [Reply.preceded, World.shown, String.append_assoc]

/-- A trace in a file is the lines of its events, and nothing else in the tree of files changes. -/
theorem files_record (hplace : around.streams.get? place = none) (file : String)
    (told : List TimedEvent) {w : World} (hfile : w.files.isFile place = true) :
    let left := (told.foldl (around.record (some place) file) w).files
    FileTree.DiffersAt place w.files left ∧ left.isFile place = true ∧
      left.bytesAt place =
        w.files.bytesAt place ++ (traceText file around.runId told).toUTF8.toList := by
  induction told generalizing w with
  | nil => exact ⟨.refl place _, hfile, by simp [traceText, Utf8.toList_eq_data]⟩
  | cons e told ih =>
      have hput : around.record (some place) file w e =
          { w with files := w.files.append place (e.line file around.runId ++ "\n") } := by
        rw [record, put, hplace]
      obtain ⟨hsame, hkept, hbytes⟩ := ih (w := around.record (some place) file w e) (by
        rw [hput]
        exact FileTree.isFile_append ..)
      rw [List.foldl_cons]
      refine ⟨?_, hkept, ?_⟩
      · rw [hput] at hsame ⊢
        exact FileTree.DiffersAt.trans (.set ..) hsame
      · rw [hbytes, hput, FileTree.bytesAt_append, traceText_cons]
        simp [Utf8.toList_eq_data]

/-- Nothing fails in a run with a trace where writing the trace cannot fail. -/
theorem after_run_hasFailed {t : FileTree} {limit : Option DepthLimit} {depth : DepthLimit}
    {path : String} (hdepth : around.callDepth t limit = .ok depth)
    (hplace : t.placeToWrite around.current path = .ok place)
    (hfault : ∀ w, around.fault place w = none) (file : String) (pretty detailed : Bool) :
    (around.after t (.run file (some path) limit pretty detailed)).hasFailed = false := by
  rw [after, perform_run hdepth]
  cases Program.load file (around.source t file) pretty detailed with
  | error reply => rfl
  | ok p => exact around.runProgram_hasFailed (w := .ofFiles t) hplace hfault p depth pretty

end Surroundings

end NestedPascal
