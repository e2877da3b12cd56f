import NestedPascal.Proofs.CommandLine.Agreement
import NestedPascal.Proofs.Configuration.Resolution
import NestedPascal.Proofs.TraceFile.Summary

/-!
# Traces in files are read back

A run that writes its trace to a file leaves a file that the summary of a trace reads whole: a line for
each event that was told, in order, with the time that the clock showed.
-/

namespace NestedPascal

/-- A program is loaded from a text exactly if the text is parsed to it. -/
theorem Program.load_ok_iff {file : String} {bytes : List UInt8} {pretty detailed : Bool}
    {p : Program} : load file (.ok bytes) pretty detailed = .ok p ↔
      parse (Utf8.decode bytes) (if file = "-" then "<stdin>" else file) detailed = .ok p := by
  simp only [load]
  split
  next hparse => simp [hparse]
  next hparse => simp [hparse]

namespace Surroundings

variable {around : Surroundings} {t : FileTree} {file path : String} {pretty detailed : Bool}
  {limit : Option DepthLimit} {depth : DepthLimit} {p : Program} {place : Place}

/-- The limit of a run is an integer if one that is asked for is. -/
theorem toInt?_callDepth (hdepth : around.callDepth t limit = .ok depth)
    (hasked : ∀ asked, limit = some asked → ∃ n, asked.number.toInt? = some n) :
    ∃ n, depth.number.toInt? = some n := by
  cases limit with
  | some asked =>
      obtain rfl : asked = depth := Except.ok.inj hdepth
      exact hasked asked rfl
  | none =>
      rw [callDepth_none] at hdepth
      cases hresolved : around.resolved t with
      | error e =>
          rw [hresolved] at hdepth
          contradiction
      | ok r =>
          rw [hresolved] at hdepth
          have hlimit : DepthLimit.ofInt r.config.maxCallDepth = depth := Except.ok.inj hdepth
          rw [← hlimit, DepthLimit.ofInt, (ResolvedConfig.limit_of_resolve hresolved).2]
          exact ⟨_, rfl⟩

/-- A run that writes its trace to a file leaves the lines of its events in that file. -/
theorem read_after_run (hload : Program.load file (around.source t file) pretty detailed = .ok p)
    (hdepth : around.callDepth t limit = .ok depth)
    (hcurrent : t.isDirectory around.current = true)
    (hplace : t.placeToWrite around.current path = .ok place)
    (hregular : around.streams.get? place = none)
    (hwritten : (around.after t (.run file (some path) limit pretty detailed)).hasFailed = false) :
    ∃ told : List TimedEvent, told.map TimedEvent.event = p.traceEvents depth ∧
      (∀ e ∈ told, around.IsStamped e) ∧
      (around.after t (.run file (some path) limit pretty detailed)).files.read around.current
        path = .ok (traceText p.file around.runId told).toUTF8.toList := by
  rw [after, perform_run hdepth] at hwritten ⊢
  simp only [hload] at hwritten ⊢
  obtain ⟨told, n, htold, hstamped, hrun⟩ :=
    around.runProgram_some (w := .ofFiles t) hplace p depth pretty fun _ => hwritten
  refine ⟨told, htold, hstamped, ?_⟩
  have hopened : (around.opened place (.ofFiles t)).files = t.create place := by
    rw [opened, hregular]
    rfl
  obtain ⟨hsame, hfile, hbytes⟩ := files_record hregular p.file told
    (w := around.opened place (.ofFiles t)) (by rw [hopened, FileTree.isFile_create])
  rw [hopened] at hsame hbytes
  rw [FileTree.bytesAt_create, List.nil_append] at hbytes
  rw [hrun, ← hbytes]
  exact FileTree.read_of_placeToWrite (.trans (.set ..) hsame) hplace hcurrent hfile

/-- The trace that a run writes to a file is read back whole.  Every line of it is one of an event, in
order, and the summary tells what analysis and the run did. -/
theorem trace_readBack {source : List UInt8} (hsource : around.source t file = .ok source)
    (hload : Program.load file (.ok source) pretty detailed = .ok p)
    (hlength : (Binary64.ofNat (Utf8.decode source).length).isFinite = true)
    (hdepth : around.callDepth t limit = .ok depth)
    (hasked : ∀ asked, limit = some asked → ∃ n, asked.number.toInt? = some n)
    (hcurrent : t.isDirectory around.current = true)
    (hplace : t.placeToWrite around.current path = .ok place)
    (hregular : around.streams.get? place = none)
    (hwritten : (around.after t (.run file (some path) limit pretty detailed)).hasFailed = false) :
    let left := (around.after t (.run file (some path) limit pretty detailed)).files
    ∃ (told : List TimedEvent) (bytes : List UInt8),
      told.map TimedEvent.event = p.traceEvents depth ∧ (∀ e ∈ told, around.IsStamped e) ∧
      left.read around.current path = .ok bytes ∧
      let lines := traceLines (Utf8.decode bytes)
      let read := lines.filterMap TraceLine.read?
      let summary := TraceSummary.ofLines read (.ofNat (lines.length - read.length))
      List.Forall₂ (fun e line => ∃ l, TraceLine.read? line = some l ∧ l.Recovers around.runId e)
        told lines ∧
      summary.Tells p depth around.runId (p.traceEvents depth) ∧
      ∀ json, around.outcome left (.trace path json) =
        .print (if json then summary.toJson.pretty else "\n".intercalate summary.readable) := by
  intro left
  obtain ⟨told, htold, hstamped, hread⟩ := read_after_run (hsource ▸ hload) hdepth hcurrent hplace
    hregular hwritten
  obtain ⟨n, hlimit⟩ := toInt?_callDepth hdepth hasked
  have hparse := Program.load_ok_iff.mp hload
  obtain ⟨hsome, hlines, htells⟩ := Program.traceText_readBack hparse hlength hlimit p.file
    around.runId htold
  refine ⟨told, _, htold, hstamped, hread, ?_⟩
  rw [Utf8.decode_toUTF8]
  refine ⟨hlines, htells, fun json => ?_⟩
  have hreply : around.outcome left (.trace path json) =
      TraceSummary.reply path (left.read around.current path) json :=
    World.shown_ofFiles left _
  rw [hreply, hread, TraceSummary.reply, Utf8.decode_toUTF8]
  exact if_neg (by simpa using hsome)

/-- The trace of a program that calls its one procedure: two scopes are entered. -/
theorem trace_of_call :
    let source := "program p; var x : integer; procedure q(n : integer); begin x := x + n end; " ++
      "begin x := 1; q(2) end."
    let around := withInput source
    let t : FileTree := ⟨.empty, [["work"], ["dev"]]⟩
    let limit := DepthLimit.ofInt 512
    let left := (around.after t (.run "-" (some "trace") (some limit) false false)).files
    ∃ p bytes, Program.load "-" (.ok source.toUTF8.toList) false false = .ok p ∧
      left.read around.current "trace" = .ok bytes ∧
      let lines := traceLines (Utf8.decode bytes)
      let read := lines.filterMap TraceLine.read?
      let summary := TraceSummary.ofLines read (.ofNat (lines.length - read.length))
      lines.length = (p.traceEvents limit).length ∧ summary.scopesEntered = 2 ∧
        summary.TellsRun p.analyze.program limit := by
  intro source around t limit left
  have haccepted : (Program.parse (Utf8.decode source.toUTF8.toList) "<stdin>" false).toOption.any
      (fun p => p.analyze.scopes.isOk && p.block.procedureCount == 1) = true := by
    decide +kernel
  obtain ⟨p, hp, htest⟩ := Program.parse_of_any haccepted
  obtain ⟨hok, hcount⟩ := Bool.and_eq_true_iff.mp htest
  obtain ⟨scopes, hscopes⟩ := Program.exists_scopes_of_isOk hok
  have hnone : p.analysisError? = none := by rw [Program.analysisError?, hscopes]
  have hload : Program.load "-" (.ok source.toUTF8.toList) false false = .ok p :=
    Program.load_ok_iff.mpr hp
  have hdepth : around.callDepth t (some limit) = .ok limit := rfl
  have hlimit : (DepthLimit.ofInt 512).number.toInt? = some 512 := by decide +kernel
  have hasked (asked : DepthLimit) (h : some limit = some asked) :
      ∃ n, asked.number.toInt? = some n :=
    ⟨512, Option.some.inj h ▸ hlimit⟩
  obtain ⟨told, bytes, htold, -, hread, hlines, htells, -⟩ := trace_readBack rfl hload
    (by decide +kernel) hdepth hasked (by decide) placeToWrite_trace
    (by decide) (after_run_hasFailed hdepth placeToWrite_trace (fun _ => rfl) "-" false false)
  have hscopesEntered := htells.allScopes hnone
  rw [beq_iff_eq.mp hcount] at hscopesEntered
  refine ⟨p, bytes, hload, hread, ?_, hscopesEntered, htells.accepted hnone⟩
  rw [← hlines.length_eq, ← htold, List.length_map]

end Surroundings

end NestedPascal
