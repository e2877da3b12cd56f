import NestedPascal.Proofs.CommandLine.Tracing
import NestedPascal.Proofs.Run.Bracketing

/-!
# Checking and running agree

A check and a run of the same source go the same way until analysis is done: one refuses the program
where the other does, in the same words, and a program that passes the check runs to its end or
fails with an error of evaluation.  A trace that is written along the way changes nothing of what a
run replies.
-/

namespace NestedPascal

/-! ## Replies -/

namespace ExitStatus

variable {status : ExitStatus}

@[simp] theorem code_eq_zero : status.code = 0 ↔ status = .success := by
  cases status <;> decide

@[simp] theorem code_eq_two : status.code = 2 ↔ status = .rejected := by
  cases status <;> decide

@[simp] theorem code_eq_four : status.code = 4 ↔ status = .failed := by
  cases status <;> decide

end ExitStatus

namespace Reply

@[simp] theorem status_print (text : String) : (print text).status = .success := rfl

@[simp] theorem status_refuse (status : ExitStatus) (text : String) :
    (refuse status text).status = status := rfl

/-- What is printed is on one output only: on the standard output if the reply is a success, else on
the error output. -/
structure OnOneOutput (r : Reply) : Prop where
  output : r.status.code ≠ 0 → r.output = ""
  errors : r.status.code = 0 → r.errors = ""

theorem onOneOutput_print (text : String) : (print text).OnOneOutput :=
  ⟨fun h => absurd rfl h, fun _ => rfl⟩

theorem onOneOutput_refuse {status : ExitStatus} (h : status ≠ .success) (text : String) :
    (refuse status text).OnOneOutput :=
  ⟨fun _ => rfl, fun hcode => absurd (ExitStatus.code_eq_zero.mp hcode) h⟩

end Reply

/-! ## The stack that a run leaves -/

/-- A run that ends well leaves the frame of the program and no other. -/
theorem Program.frames_of_run {p : Program} {limit : DepthLimit}
    (h : (p.run limit).error = none) :
    ∃ f, (p.run limit).stack.frames = #[f] ∧ f.role = .program ∧ f.name = p.name := by
  obtain ⟨c, hc, -, hend, hresult⟩ := p.run_eq_result limit
  rw [h] at hend hresult
  have hheadings := (Configuration.bracketed_of_reaches hc).stack
  rw [Configuration.answeredCalls_of_endsWith hend] at hheadings
  have hstack : (p.run limit).stack = c.machine.stack := by
    rw [hresult]
    rfl
  rw [← hstack] at hheadings
  generalize (p.run limit).stack = stack at hheadings
  obtain ⟨⟨frames⟩⟩ := stack
  obtain ⟨f, rfl, hf⟩ := List.map_eq_singleton_iff.mp hheadings
  simp only [Frame.heading, Prod.mk.injEq] at hf
  exact ⟨f, rfl, hf.1, hf.2.1⟩

/-! ## What is printed -/

theorem World.shown_ofFiles (t : FileTree) (r : Reply) : (ofFiles t).shown r = r := by
  simp [shown, ofFiles]

theorem Reply.preceded_empty (r : Reply) (stream : Option OutputStream) :
    r.preceded stream "" = r := by
  rcases stream with _ | _ | _ <;> simp [preceded]

namespace Surroundings

variable {around : Surroundings} {t : FileTree} {limit : Option DepthLimit} {depth : DepthLimit}

theorem outcome_check (around : Surroundings) (t : FileTree) (file : String)
    (pretty detailed : Bool) :
    around.outcome t (.check file pretty detailed) =
      match Program.load file (around.source t file) pretty detailed with
      | .error reply => reply
      | .ok p => p.checkReply pretty := by
  rw [outcome, after, perform_check]
  exact World.shown_ofFiles t _

/-- A run replies what analysis and the run come to. -/
theorem outcome_run (hdepth : around.callDepth t limit = .ok depth) (file : String)
    (pretty detailed : Bool) :
    around.outcome t (.run file none limit pretty detailed) =
      match Program.load file (around.source t file) pretty detailed with
      | .error reply => reply
      | .ok p => p.analyze.finalReply p.file depth pretty := by
  rw [outcome, after, perform_run hdepth]
  cases Program.load file (around.source t file) pretty detailed with
  | error reply => exact World.shown_ofFiles t reply
  | ok p =>
      obtain ⟨n, hrun⟩ := around.runProgram_none (w := .ofFiles t) p depth pretty
      simp only [hrun]
      exact World.shown_ofFiles t _

/-- A run with a trace that is written replies the same, after the trace if that goes to an output. -/
theorem outcome_run_traced {path : String} {place : Place}
    (hdepth : around.callDepth t limit = .ok depth)
    (hplace : t.placeToWrite around.current path = .ok place) {file : String}
    {pretty detailed : Bool}
    (hwritten : (around.after t (.run file (some path) limit pretty detailed)).hasFailed = false) :
    ∃ text, around.outcome t (.run file (some path) limit pretty detailed) =
      (around.outcome t (.run file none limit pretty detailed)).preceded
        (around.streams.get? place) text := by
  rw [outcome_run hdepth, outcome]
  rw [after, perform_run hdepth] at hwritten ⊢
  cases hloaded : Program.load file (around.source t file) pretty detailed with
  | error reply =>
      refine ⟨"", ?_⟩
      rw [Reply.preceded_empty]
      exact World.shown_ofFiles t reply
  | ok p =>
      simp only [hloaded] at hwritten ⊢
      obtain ⟨told, n, -, -, hrun⟩ := around.runProgram_some (w := .ofFiles t) hplace p depth pretty
        fun _ => hwritten
      refine ⟨traceText p.file around.runId told, ?_⟩
      have hshown := around.shown_record place p.file told
        (around.opened place (.ofFiles t)) (p.analyze.finalReply p.file depth pretty)
      rw [hrun]
      refine hshown.trans ?_
      rw [opened]
      split <;> exact World.shown_ofFiles ..

end Surroundings

/-! ## Checking and running -/

/-- What a stack looks like on the standard output. -/
def Reply.rendering (stack : CallStack (Frame Nat)) (pretty : Bool) : String :=
  (if pretty then stack.report.readable else stack.report.toJson.pretty) ++ "\n"

/-- The reply tells of an error of evaluation that ended the run of the program that was loaded. -/
def Reply.TellsFailure (r : Reply) (loaded : Except Reply Program) (depth : DepthLimit)
    (pretty : Bool) : Prop :=
  ∃ p e, loaded = .ok p ∧ (p.analyze.program.run depth).error = some e ∧
    r = .ofRun p.file (p.analyze.program.run depth) pretty

/-- How the replies to a check and a run of what was loaded go together. -/
structure RepliesAgree (loaded : Except Reply Program) (depth : DepthLimit) (pretty : Bool)
    (check run : Reply) : Prop where
  rejected : check.status.code = 2 ↔ run.status.code = 2
  /-- A program that is refused is refused in the same words. -/
  refusal : check.status.code = 2 → check.errors = run.errors ∧ check.output = "" ∧ run.output = ""
  accepted : check.status.code = 0 ↔
    run.status.code = 0 ∨ run.status.code = 4 ∧ run.TellsFailure loaded depth pretty
  checkOutput : check.OnOneOutput
  runOutput : run.OnOneOutput
  /-- A run that succeeds shows the stack that it leaves, with the frame of the program only. -/
  finished : run.status.code = 0 → ∃ p f, loaded = .ok p ∧
    (p.analyze.program.run depth).stack.frames = #[f] ∧ f.role = .program ∧
    run.output = Reply.rendering (p.analyze.program.run depth).stack pretty

namespace RepliesAgree

variable {loaded : Except Reply Program} {depth : DepthLimit} {pretty : Bool}

/-- Both refuse in the same way what is no program or not well formed. -/
theorem refused {status : ExitStatus} (hstatus : status ≠ .success)
    (hloaded : status = .failed → ∀ p, loaded ≠ .ok p) (text : String) :
    RepliesAgree loaded depth pretty (.refuse status text) (.refuse status text) := by
  refine ⟨Iff.rfl, fun _ => ⟨rfl, rfl, rfl⟩, ⟨.inl, fun h => ?_⟩,
    Reply.onOneOutput_refuse hstatus text, Reply.onOneOutput_refuse hstatus text, fun h => ?_⟩
  · rcases h with h | ⟨h, p, -, hp, -⟩
    · exact h
    · exact absurd hp (hloaded (ExitStatus.code_eq_four.mp h) p)
  · exact absurd (ExitStatus.code_eq_zero.mp h) hstatus

/-- A program that passes the check runs to its end or fails with an error of evaluation. -/
theorem passed {p : Program} (hloaded : loaded = .ok p) (text : String) :
    RepliesAgree loaded depth pretty (.print text)
      (.ofRun p.file (p.analyze.program.run depth) pretty) := by
  cases herror : (p.analyze.program.run depth).error with
  | none =>
      obtain ⟨words, hwords, hrun⟩ : ∃ words,
          words ++ "\n" = Reply.rendering (p.analyze.program.run depth).stack pretty ∧
            Reply.ofRun p.file (p.analyze.program.run depth) pretty = .print words := by
        rw [Reply.ofRun, herror]
        exact ⟨_, rfl, rfl⟩
      obtain ⟨f, hframes, hrole, -⟩ := Program.frames_of_run herror
      rw [hrun]
      refine ⟨by simp, by simp, by simp, Reply.onOneOutput_print text,
        Reply.onOneOutput_print words, fun _ => ⟨p, f, hloaded, hframes, hrole, hwords⟩⟩
  | some e =>
      obtain ⟨words, hrun⟩ : ∃ words,
          Reply.ofRun p.file (p.analyze.program.run depth) pretty = .refuse .failed words := by
        rw [Reply.ofRun, herror]
        exact ⟨_, rfl⟩
      have htells : Reply.TellsFailure (.refuse .failed words) loaded depth pretty :=
        ⟨p, e, hloaded, herror, hrun.symm⟩
      rw [hrun]
      refine ⟨by simp, by simp, by simp [htells], Reply.onOneOutput_print text,
        Reply.onOneOutput_refuse (by decide) words, by simp⟩

end RepliesAgree

/-- What is not loaded is refused. -/
theorem Program.load_eq_error {file : String} {content : Except FileError (List UInt8)}
    {pretty detailed : Bool} {r : Reply} (h : load file content pretty detailed = .error r) :
    ∃ status text, status ≠ .success ∧ r = .refuse status text := by
  cases content with
  | error e =>
      cases h
      exact ⟨.failed, _, by decide, rfl⟩
  | ok bytes =>
      simp only [load] at h
      split at h
      next =>
        cases h
        exact ⟨.rejected, _, by decide, rfl⟩
      next => contradiction

namespace Surroundings

variable {around : Surroundings} {t : FileTree} {limit : Option DepthLimit} {depth : DepthLimit}

/-- A check and a run of the same source agree.  A trace that can be written changes nothing of what
the run replies if it goes to a file, and stands before it if it goes to an output of the program. -/
theorem check_and_run_agree (hdepth : around.callDepth t limit = .ok depth) (file : String)
    (pretty detailed : Bool) :
    RepliesAgree (Program.load file (around.source t file) pretty detailed) depth pretty
        (around.outcome t (.check file pretty detailed))
        (around.outcome t (.run file none limit pretty detailed)) ∧
      ∀ path place, t.placeToWrite around.current path = .ok place →
        (around.after t (.run file (some path) limit pretty detailed)).hasFailed = false →
        (around.streams.get? place = none →
          around.outcome t (.run file (some path) limit pretty detailed) =
            around.outcome t (.run file none limit pretty detailed)) ∧
        ∃ text, around.outcome t (.run file (some path) limit pretty detailed) =
          (around.outcome t (.run file none limit pretty detailed)).preceded
            (around.streams.get? place) text := by
  refine ⟨?_, fun path place hplace hwritten => ?_⟩
  · rw [outcome_run hdepth, outcome_check]
    cases hloaded : Program.load file (around.source t file) pretty detailed with
    | error r =>
        obtain ⟨status, text, hstatus, rfl⟩ := Program.load_eq_error hloaded
        exact .refused hstatus (fun _ p => by simp) text
    | ok p =>
        simp only [Program.checkReply, ProgramAnalysis.finalReply]
        cases p.analyze.scopes with
        | error e => exact .refused (by decide) (by simp) _
        | ok scopes => exact .passed rfl _
  · obtain ⟨text, htraced⟩ := outcome_run_traced hdepth hplace hwritten
    refine ⟨fun hregular => ?_, text, htraced⟩
    rw [htraced, hregular]
    rfl

/-- The name of a trace leads to a place in the current directory. -/
theorem placeToWrite_trace :
    FileTree.placeToWrite ⟨.empty, [["work"], ["dev"]]⟩ ["work"] "trace" =
      .ok ["work", "trace"] := by
  have hsplit : "trace".splitOn "/" = ["trace"] := by
    rw [String.splitOn, if_neg (by decide)]
    repeat rw [String.splitOnAux, if_neg (by decide), if_neg (by decide)]
    rw [String.splitOnAux, if_pos (by decide)]
    decide
  rw [FileTree.placeToWrite, FileTree.namesOf, hsplit]
  decide

/-- Surroundings with a source on the standard input, where everything can be written. -/
def withInput (source : String) : Surroundings where
  current := ["work"]
  home := []
  faultWords := Json.Fault.message
  input := source.toUTF8.toList
  runId := "run"
  clock := fun _ => .epoch
  streams := Register.empty.set ["dev", "stdout"] .output
  fault := fun _ _ => none

/-- A program that runs to its end, one that is refused, and one whose run fails; and a trace in the
current directory. -/
theorem check_and_run_of_input :
    let t : FileTree := ⟨.empty, [["work"], ["dev"]]⟩
    let limit := DepthLimit.ofInt 512
    let check (source : String) := (withInput source).outcome t (.check "-" true false)
    let run (source : String) (trace : Option String) :=
      (withInput source).outcome t (.run "-" trace (some limit) true false)
    let agree (source : String) :=
      RepliesAgree (Program.load "-" (.ok source.toUTF8.toList) true false) limit true
        (check source) (run source none) ∧ run source (some "trace") = run source none
    let fine := "program p; var x : integer; procedure q(n : integer); begin x := n div 2 end; " ++
      "begin q(2 + 3) end."
    let unknown := "program p; var x : integer; begin x := y end."
    let failing := "program p; var x : integer; begin x := 1; x := x div 0 end."
    (agree fine ∧ (check fine).status.code = 0 ∧ (run fine none).status.code = 0) ∧
      (agree unknown ∧ (check unknown).status.code = 2 ∧ (run unknown none).status.code = 2) ∧
      (agree failing ∧ (check failing).status.code = 0 ∧ (run failing none).status.code = 4) := by
  intro t limit check run agree fine unknown failing
  have hagree (source : String) : agree source := by
    have hdepth : (withInput source).callDepth t (some limit) = .ok limit := rfl
    have hwritten := after_run_hasFailed hdepth placeToWrite_trace (fun _ => rfl) "-" true false
    obtain ⟨hreplies, htraced⟩ := check_and_run_agree hdepth "-" true false
    exact ⟨hreplies, (htraced "trace" _ placeToWrite_trace hwritten).1 rfl⟩
  refine ⟨⟨hagree fine, ?_⟩, ⟨hagree unknown, ?_⟩, hagree failing, ?_⟩ <;> decide +kernel

end Surroundings

end NestedPascal
