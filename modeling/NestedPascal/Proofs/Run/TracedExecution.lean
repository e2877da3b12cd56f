import NestedPascal.Proofs.Run.Events
import NestedPascal.Run.TracedExecution

/-!
# Telling the events of a run

A run that tells its events as they happen tells those of the run, in order, and comes to the same.
-/

namespace NestedPascal

namespace Machine.Step

/-- The machine on which something was done or given up. -/
def reached : Machine.Step → Machine
  | .ok s => s
  | .error failure => failure.machine

variable {m : Type → Type} [Monad m] {tell : Nat → Event → m Unit}

/-- A part of a run that starts on a machine tells one by one what it adds to the events, and comes to
what it comes to without a trace. -/
def IsTraced (tell : Nat → Event → m Unit) (s : Machine) (r : Machine.Step)
    (x : Machine.TracedStep m) : Prop :=
  ∃ told : List (Nat × Event), r.reached.events.toList = s.events.toList ++ told.map Prod.snd ∧
    x.run = forM told (fun e => tell e.1 e.2) >>= fun _ => Pure.pure r

variable [LawfulMonad m]

namespace IsTraced

variable {s : Machine} {r : Machine.Step} {x : Machine.TracedStep m}

theorem of_events_eq (h : r.reached.events = s.events) : IsTraced tell s r r.traced :=
  ⟨[], by simp [h], by simp [traced]⟩

theorem bind {next : Machine → Machine.Step} {tracedNext : Machine → Machine.TracedStep m}
    (hx : IsTraced tell s r x)
    (hnext : ∀ s', IsTraced tell s' (next s') (tracedNext s')) :
    IsTraced tell s (r >>= next) (x >>= tracedNext) := by
  obtain ⟨told, hevents, hrun⟩ := hx
  cases r with
  | error failure =>
      refine ⟨told, hevents, ?_⟩
      rw [ExceptT.run_bind, hrun, bind_assoc]
      simp only [pure_bind]
      rfl
  | ok s' =>
      obtain ⟨told', hevents', hrun'⟩ := hnext s'
      refine ⟨told ++ told', ?_, ?_⟩
      · change (next s').reached.events.toList = _
        change s'.events.toList = _ at hevents
        rw [hevents', hevents, List.map_append, List.append_assoc]
      · rw [ExceptT.run_bind, hrun, List.forM_append, bind_assoc, bind_assoc]
        simp only [pure_bind, hrun']
        rfl

/-- Something is told, and then the run goes on on a machine that has it. -/
theorem tell_bind {s' : Machine} {e : Event} (depth : Nat)
    (hevents : s'.events.toList = s.events.toList ++ [e]) (hx : IsTraced tell s' r x) :
    IsTraced tell s r ((tell depth e : ExceptT Machine.Failure m Unit) >>= fun _ => x) := by
  obtain ⟨told, htold, hrun⟩ := hx
  refine ⟨(depth, e) :: told, ?_, ?_⟩
  · rw [htold, hevents, List.append_assoc, List.map_cons, List.singleton_append]
  · simp [ExceptT.run_bind, hrun]

end IsTraced

end Machine.Step

open Machine.Step

variable {m : Type → Type} [Monad m] [LawfulMonad m] {tell : Nat → Event → m Unit}

theorem Machine.assign_reached_events (s : Machine) (target : VariableRef) (value : Expr) :
    (reached (s.assign target value)).events = s.events := by
  rw [Machine.assign]
  cases value.eval s.stack with
  | error e => rfl
  | ok v =>
      cases target.locate s.stack <;> rfl

section

variable {onCall : Call → Machine → Machine.Step} {tracedCall : Call → Machine → Machine.TracedStep m}

mutual

theorem Statement.executeTraced_isTraced
    (hcall : ∀ c s, IsTraced tell s (onCall c s) (tracedCall c s)) :
    ∀ (statement : Statement) (s : Machine),
      IsTraced tell s (statement.execute onCall s) (statement.executeTraced tracedCall s)
  | .compound _ children, s => by
      rw [Statement.execute, Statement.executeTraced]
      exact executeAllTraced_isTraced hcall children s
  | .assignment _ target value, s => by
      rw [Statement.execute, Statement.executeTraced]
      exact .of_events_eq (s.assign_reached_events target value)
  | .call c, s => by
      rw [Statement.execute, Statement.executeTraced]
      exact hcall c s

theorem executeAllTraced_isTraced
    (hcall : ∀ c s, IsTraced tell s (onCall c s) (tracedCall c s)) :
    ∀ (statements : List Statement) (s : Machine),
      IsTraced tell s (executeAll onCall statements s) (executeAllTraced tracedCall statements s)
  | [], s => by
      rw [executeAll, executeAllTraced]
      exact .of_events_eq rfl
  | statement :: rest, s => by
      rw [executeAll, executeAllTraced]
      exact (statement.executeTraced_isTraced hcall s).bind (executeAllTraced_isTraced hcall rest)

end

end

theorem Call.executeTraced_isTraced (tell : Nat → Event → m Unit) (program : Block)
    (limit : DepthLimit) : ∀ (allowed : Nat) (c : Call) (s : Machine), IsTraced tell s
      (c.execute program limit allowed s) (c.executeTraced tell program limit allowed s) := by
  intro allowed
  induction allowed with
  | zero =>
      intro c s
      rw [Call.execute, Call.executeTraced]
      cases c.symbol <;> exact .of_events_eq rfl
  | succ allowed ih =>
      intro c s
      rw [Call.execute, Call.executeTraced]
      cases c.symbol with
      | none => exact .of_events_eq rfl
      | some p =>
          dsimp only
          cases hframe : c.frame p s.stack with
          | error e => exact .of_events_eq rfl
          | ok frame =>
              have hbody := executeAllTraced_isTraced ih
                (((program.at? p.declaration).map Block.body).getD [])
              refine .tell_bind _ ?_ ((hbody _).bind fun s' => .tell_bind _ ?_ (.of_events_eq rfl))
              · simp [Machine.emit]
              · simp [Machine.emit, reached]

/-- What a run comes to once its statements are done or given up. -/
def RunResult.ofStep (p : Program) : Machine.Step → RunResult
  | .ok s =>
    let s := s.emit (.runEnd s.stack.depth none) p.span
    ⟨s.stack, s.events, none⟩
  | .error ⟨e, s⟩ =>
    let s := s.emit (.runEnd s.stack.depth (some (e.cause.code.text, e.cause.message))) p.span
    ⟨s.stack, s.events, some e⟩

theorem RunResult.callEvents_ofStep {p : Program} {r : Machine.Step} {told : List Event}
    (h : r.reached.events.toList = p.initialMachine.events.toList ++ told) :
    (ofStep p r).callEvents = told := by
  cases r with
  | ok s =>
      change s.events.toList = _ at h
      simp [ofStep, callEvents, Machine.emit, h, Program.initialMachine]
  | error failure =>
      change failure.machine.events.toList = _ at h
      simp [ofStep, callEvents, Machine.emit, h, Program.initialMachine]

/-- The statements of a program tell the calls of the run, in order, and come to what the run is made
of. -/
theorem Program.executeAllTraced_run (p : Program) (limit : DepthLimit) (tell : Nat → Event → m Unit) :
    ∃ (r : Machine.Step) (told : List (Nat × Event)), p.run limit = .ofStep p r ∧
      (p.run limit).callEvents = told.map Prod.snd ∧
      (executeAllTraced (Call.executeTraced tell p.block limit limit.calls) p.block.body
        p.initialMachine).run = forM told (fun e => tell e.1 e.2) >>= fun _ => pure r := by
  obtain ⟨told, hevents, hrun⟩ := executeAllTraced_isTraced
    (Call.executeTraced_isTraced tell p.block limit limit.calls) p.block.body
    p.initialMachine
  exact ⟨_, told, rfl, RunResult.callEvents_ofStep hevents, hrun⟩

end NestedPascal
