import NestedPascal.Proofs.Binary64.Naturals
import NestedPascal.Proofs.CommandLine.Tracing
import NestedPascal.Proofs.Run.Depths
import NestedPascal.Proofs.Run.StaticLinks
import NestedPascal.Proofs.Scope.DeclaredNames
import NestedPascal.Proofs.Scope.Entries
import NestedPascal.Proofs.Text.Utf8
import NestedPascal.Proofs.TraceFile.Lines

/-!
# Summaries of traces

The trace of a run is read back whole, and its summary tells what analysis and the run did: the scopes
entered, the frames pushed, how deep the stack ever was, and the error that ended the run.
-/

namespace NestedPascal

/-- The code of the error that an event tells. -/
def Event.errorCode? (e : Event) : Option String :=
  match e.kind with
  | .runEnd _ error => error.map Prod.fst
  | _ => none

namespace TimedEvent

theorem datum?_depth (runId : String) (e : TimedEvent) :
    ((e.traceLine runId).datum? "depth").bind TraceDatum.number? =
      e.event.depth?.map Binary64.ofNat := by
  obtain ⟨⟨kind, span⟩, time, duration⟩ := e
  rcases kind with _ | _ | _ | ⟨depth, _ | ⟨code, message⟩⟩ | _ | _ <;>
    simp [traceLine, recorded, Event.data, TraceLine.datum?, Register.lookup, TraceDatum.ofJson?,
      Json.ofNat, Json.ofInt, Json.ofString, TraceDatum.number?, Event.depth?, Text.ofString_inj]

theorem datum?_error (runId : String) {depth : Nat} {error : Option (String × String)}
    {span : Span} {time : Time.Instant} {duration : Time.Duration} :
    (((⟨⟨.runEnd depth error, span⟩, time, duration⟩ : TimedEvent).traceLine runId).datum?
      "error").bind TraceDatum.text? = error.map fun reason => Text.ofString reason.1 := by
  rcases error with _ | ⟨code, message⟩ <;>
    simp [traceLine, recorded, Event.data, TraceLine.datum?, Register.lookup, TraceDatum.ofJson?,
      Json.ofNat, Json.ofInt, Json.ofString, TraceDatum.text?, Text.ofString_inj]

theorem datum?_procedure (runId : String) {name : String} {depth : Nat} {span : Span}
    {time : Time.Instant} {duration : Time.Duration} :
    (((⟨⟨.callStart name depth, span⟩, time, duration⟩ : TimedEvent).traceLine runId).datum?
      "procedure").bind TraceDatum.text? = some (Text.ofString name) := by
  simp [traceLine, recorded, Event.data, TraceLine.datum?, Register.lookup, TraceDatum.ofJson?,
    Json.ofNat, Json.ofString, TraceDatum.text?]

end TimedEvent

namespace TraceSummary

/-- What a summary becomes when events are added to it. -/
structure Adds (events : List Event) (s s' : TraceSummary) : Prop where
  runId : s'.runId = s.runId
  totalEvents : s'.totalEvents = s.totalEvents
  skippedLines : s'.skippedLines = s.skippedLines
  scopesEntered : s'.scopesEntered = s.scopesEntered + events.countP Event.isScopeEntry
  calls : s'.calls = s.calls + events.countP Event.isCallStart
  maxDepth : ∀ depth, (Binary64.ofNat depth).isFinite = true → s.maxDepth = .ofNat depth →
    (Binary64.ofNat ((events.filterMap Event.depth?).foldl max depth)).isFinite = true ∧
      s'.maxDepth = .ofNat ((events.filterMap Event.depth?).foldl max depth)
  error : s'.marks.get? .error =
    ((events.filterMap Event.errorCode?).getLast?.map Text.ofString).or (s.marks.get? .error)

theorem Adds.refl (s : TraceSummary) : Adds [] s s :=
  ⟨rfl, rfl, rfl, rfl, rfl, fun _ hdepth hs => ⟨hdepth, hs⟩, rfl⟩

theorem Adds.cons {e : Event} {events : List Event} {s s' s'' : TraceSummary} (h : Adds [e] s s')
    (h' : Adds events s' s'') : Adds (e :: events) s s'' := by
  rw [← List.singleton_append]
  refine ⟨h'.runId.trans h.runId, h'.totalEvents.trans h.totalEvents,
    h'.skippedLines.trans h.skippedLines, ?_, ?_, ?_, ?_⟩
  · rw [h'.scopesEntered, h.scopesEntered, List.countP_append, Nat.add_assoc]
  · rw [h'.calls, h.calls, List.countP_append, Nat.add_assoc]
  · intro depth hdepth hs
    obtain ⟨hfirst, hs'⟩ := h.maxDepth depth hdepth hs
    rw [List.filterMap_append, List.foldl_append]
    exact h'.maxDepth _ hfirst hs'
  · rw [h'.error, h.error, List.filterMap_append, List.getLast?_append]
    cases (events.filterMap Event.errorCode?).getLast? <;> rfl

/-- What an event adds to a summary, its depth apart. -/
def count (e : TimedEvent) (s : TraceSummary) : TraceSummary :=
  match e.event.kind with
  | .runStart .. => s.mark .startTime (.ofString e.time.text)
  | .runEnd _ none => s.mark .endTime (.ofString e.time.text)
  | .runEnd _ (some (code, _)) =>
    (s.mark .endTime (.ofString e.time.text)).mark .error (.ofString code)
  | .scopeEnter .. => { s with scopesEntered := s.scopesEntered + 1 }
  | .callStart name _ => s.countCall (.ofString name)
  | .scopeLeave .. | .callEnd .. => s

theorem add_traceLine (runId : String) (e : TimedEvent) (s : TraceSummary) :
    s.add (e.traceLine runId) = (s.deepen (e.event.depth?.map Binary64.ofNat)).count e := by
  rw [add, e.datum?_depth runId]
  generalize s.deepen (e.event.depth?.map Binary64.ofNat) = t
  have hevent : (e.traceLine runId).event = Text.ofString e.event.name := rfl
  simp only [hevent, e.time_traceLine runId, Text.ofString_inj]
  obtain ⟨⟨kind, span⟩, time, duration⟩ := e
  rcases kind with _ | _ | _ | ⟨depth, _ | ⟨code, message⟩⟩ | _ | _ <;>
    simp [Event.name, count, TimedEvent.datum?_error, TimedEvent.datum?_procedure]

theorem maxDepth_deepen_some (s : TraceSummary) (x : Binary64) :
    (s.deepen (some x)).maxDepth = if s.maxDepth.lt x then x else s.maxDepth := by
  by_cases h : s.maxDepth.lt x = true <;> simp [deepen, h]

theorem deepen_eq (s : TraceSummary) (depth : Option Binary64) :
    s.deepen depth = { s with maxDepth := (s.deepen depth).maxDepth } := by
  cases depth with
  | none => rfl
  | some x =>
      rw [deepen]
      split <;> rfl

theorem maxDepth_deepen {s : TraceSummary} {e : Event} {depth : Nat}
    (hfinite : ∀ d, e.depth? = some d → (Binary64.ofNat d).isFinite = true)
    (hdepth : (Binary64.ofNat depth).isFinite = true) (hs : s.maxDepth = .ofNat depth) :
    (Binary64.ofNat (([e].filterMap Event.depth?).foldl max depth)).isFinite = true ∧
      (s.deepen (e.depth?.map Binary64.ofNat)).maxDepth =
        .ofNat (([e].filterMap Event.depth?).foldl max depth) := by
  cases he : e.depth? with
  | none =>
      simp only [List.filterMap_cons, he, List.filterMap_nil, List.foldl_nil, Option.map_none,
        deepen]
      exact ⟨hdepth, hs⟩
  | some d =>
      have hd := hfinite d he
      have hgreater := Binary64.greater_ofNat hdepth hd
      have hmax : (Binary64.ofNat (max depth d)).isFinite = true := by
        rcases Nat.le_total depth d with hle | hle
        · rw [Nat.max_eq_right hle]
          exact hd
        · rw [Nat.max_eq_left hle]
          exact hdepth
      simp only [List.filterMap_cons, he, List.filterMap_nil, List.foldl_cons, List.foldl_nil,
        Option.map_some]
      refine ⟨hmax, ?_⟩
      rw [maxDepth_deepen_some, hs, hgreater]

theorem countCall_eq (s : TraceSummary) (procedure : Text) : ∃ counts,
    s.countCall procedure = { s with calls := s.calls + 1, callsByProcedure := counts } := by
  rw [countCall]
  split
  · exact ⟨_, rfl⟩
  · exact ⟨_, rfl⟩

theorem maxDepth_count (e : TimedEvent) (s : TraceSummary) : (s.count e).maxDepth = s.maxDepth := by
  obtain ⟨⟨kind, span⟩, time, duration⟩ := e
  rcases kind with _ | _ | _ | ⟨depth, _ | ⟨code, message⟩⟩ | ⟨name, _⟩ | _ <;>
    simp only [count, mark]
  obtain ⟨counts, hcounts⟩ := s.countCall_eq (.ofString name)
  rw [hcounts]

/-- The line of an event is added. -/
theorem adds_traceLine (runId : String) {e : TimedEvent}
    (hfinite : ∀ d, e.event.depth? = some d → (Binary64.ofNat d).isFinite = true)
    (s : TraceSummary) : Adds [e.event] s (s.add (e.traceLine runId)) := by
  have hdeepened {depth : Nat} := @maxDepth_deepen s e.event depth hfinite
  rw [add_traceLine]
  rw [← maxDepth_count e (s.deepen _)] at hdeepened
  rw [deepen_eq] at hdeepened ⊢
  generalize (s.deepen (e.event.depth?.map Binary64.ofNat)).maxDepth = reached at hdeepened ⊢
  obtain ⟨⟨kind, span⟩, time, duration⟩ := e
  rcases kind with _ | _ | _ | ⟨depth, _ | ⟨code, message⟩⟩ | ⟨name, _⟩ | _
  case callStart =>
    obtain ⟨counts, hcounts⟩ := { s with maxDepth := reached }.countCall_eq (.ofString name)
    refine ⟨?_, ?_, ?_, ?_, ?_, fun _ hdepth hs => hdeepened hdepth hs, ?_⟩ <;>
      simp [count, hcounts, Event.isScopeEntry, Event.isCallStart, Event.errorCode?]
  all_goals
    refine ⟨?_, ?_, ?_, ?_, ?_, fun _ hdepth hs => hdeepened hdepth hs, ?_⟩ <;>
      simp [count, mark, Event.isScopeEntry, Event.isCallStart, Event.errorCode?,
        Register.get?_set]

/-- The lines of events are added one after the other. -/
theorem adds_traceLines (runId : String) {told : List TimedEvent}
    (hfinite : ∀ e ∈ told, ∀ d, e.event.depth? = some d → (Binary64.ofNat d).isFinite = true)
    (s : TraceSummary) :
    Adds (told.map TimedEvent.event) s ((told.map (TimedEvent.traceLine runId)).foldl add s) := by
  induction told generalizing s with
  | nil => exact .refl s
  | cons e told ih =>
      obtain ⟨he, htold⟩ := List.forall_mem_cons.mp hfinite
      exact (adds_traceLine runId he s).cons (ih htold _)

end TraceSummary

/-! ## Events of analysis and of a run -/

namespace Event

variable {e : Event} {bound : Nat}

theorem mem_numbers_of_depth? {depth : Nat} (h : e.depth? = some depth) : depth ∈ e.numbers := by
  obtain ⟨kind, span⟩ := e
  cases kind <;> simp_all [depth?, numbers]

theorem TellsOfScope.numbers_le (h : e.TellsOfScope bound) : ∀ n ∈ e.numbers, n ≤ bound := by
  obtain ⟨kind, span⟩ := e
  cases kind <;> simp_all [TellsOfScope, numbers]

theorem TellsOfScope.tells_nothing_else (h : e.TellsOfScope bound) :
    e.isCallStart = false ∧ e.depth? = none ∧ e.errorCode? = none := by
  obtain ⟨kind, span⟩ := e
  cases kind <;> simp_all [TellsOfScope, isCallStart, depth?, errorCode?]

theorem TellsOfCall.tells_nothing_else (h : e.TellsOfCall) :
    e.isScopeEntry = false ∧ e.errorCode? = none ∧ ∀ n ∈ e.numbers, e.depth? = some n := by
  obtain ⟨kind, span⟩ := e
  obtain ⟨name, depth, rfl | rfl⟩ := h <;> simp [isScopeEntry, errorCode?, numbers, depth?]

end Event

namespace Program

variable {p : Program} {limit : DepthLimit}

/-- The events of a run tell of no scopes, of its error, and of no numbers but depths. -/
theorem run_events_tell (p : Program) (limit : DepthLimit) :
    (p.run limit).events.toList.countP Event.isScopeEntry = 0 ∧
      ((p.run limit).events.toList.filterMap Event.errorCode?).getLast? =
        (p.run limit).error.map (fun e => e.cause.code.text) ∧
      ∀ e ∈ (p.run limit).events.toList, ∀ n ∈ e.numbers, e.depth? = some n := by
  obtain ⟨told, openCalls, hbracketed⟩ := p.run_bracketed limit
  have hcalls (e : Event) (he : e ∈ told) := (hbracketed.calls e he).tells_nothing_else
  rw [hbracketed.events]
  refine ⟨?_, ?_, ?_⟩
  · have htold : told.countP Event.isScopeEntry = 0 :=
      List.countP_eq_zero.mpr fun e he => by simp [(hcalls e he).1]
    simp [List.countP_append, htold, Event.isScopeEntry, RunResult.ending]
  · have htold : told.filterMap Event.errorCode? = [] :=
      List.filterMap_eq_nil_iff.mpr fun e he => (hcalls e he).2.1
    cases herror : (p.run limit).error <;>
      simp [List.filterMap_cons, List.filterMap_append, htold, Event.errorCode?, RunResult.ending,
        herror]
  · intro e he
    rw [List.mem_cons, List.mem_append, List.mem_singleton] at he
    rcases he with rfl | he | rfl
    · simp [Event.numbers]
    · exact (hcalls e he).2.2
    · simp [Event.numbers, Event.depth?, RunResult.ending]

theorem run_depths_le {depth : Nat} {e : Event} (he : e ∈ (p.run limit).events.toList)
    (hdepth : e.depth? = some depth) : depth ≤ max 1 limit.frames := by
  obtain ⟨c, hc, hgreatest⟩ := (p.run_greatestDepth limit).1
  have hle : depth ≤ greatestDepth (p.run limit).events.toList :=
    (foldl_max_le_iff.mp (Nat.le_refl _)).2 depth (List.mem_filterMap.mpr ⟨e, he, hdepth⟩)
  rw [← hgreatest] at hle
  exact Nat.le_trans hle (Configuration.depth_le_of_reaches hc)

end Program

/-! ## What reading a trace back promises -/

/-- What a line tells of an event. -/
structure TraceLine.Recovers (runId : String) (e : TimedEvent) (l : TraceLine) : Prop where
  time : l.time = .ofString e.time.text
  runId : l.runId = .ofString runId
  event : l.event = .ofString e.event.name
  data : l.data.map (fun d => (d.1, some d.2)) =
    e.recorded.map fun d => (Text.ofString d.1, TraceDatum.ofJson? d.2)

theorem TimedEvent.traceLine_recovers (runId : String) {e : TimedEvent}
    (hnumbers : ∀ n ∈ e.event.numbers, (Binary64.ofNat n).isFinite = true) :
    (e.traceLine runId).Recovers runId e := by
  have hdata : ∀ d ∈ e.recorded, ∃ t, TraceDatum.ofJson? d.2 = some t :=
    fun d hd => (finite_recorded hnumbers hd).2
  refine ⟨e.time_traceLine runId, rfl, rfl, ?_⟩
  simp only [traceLine]
  generalize e.recorded = data at hdata
  induction data with
  | nil => rfl
  | cons d data ih =>
      obtain ⟨⟨t, ht⟩, hrest⟩ := List.forall_mem_cons.mp hdata
      simpa [List.filterMap_cons, ht] using ih hrest

/-- What a summary tells of the run of a program that analysis accepted. -/
structure TraceSummary.TellsRun (s : TraceSummary) (p : Program) (limit : DepthLimit) : Prop where
  /-- A call for each frame that was pushed. -/
  calls : ∃ c, Configuration.ReachesPushing p.block limit p.start s.calls c ∧
    c.EndsWith p.block limit (p.run limit).error
  maxDepth : ∃ depth, IsGreatest {d | p.HasDepth limit d} depth ∧ s.maxDepth = .ofNat depth
  error : s.marks.get? .error =
    (p.run limit).error.map fun e => Text.ofString e.cause.code.text

/-- What a summary of a whole trace tells of a program. -/
structure TraceSummary.Tells (s : TraceSummary) (p : Program) (limit : DepthLimit)
    (runId : String) (events : List Event) : Prop where
  runId : s.runId = .ofString runId
  skippedLines : s.skippedLines = .zero false
  totalEvents : s.totalEvents = events.length
  /-- The scopes before the first requirement that is broken. -/
  scopesEntered : ∃ entries, Enters p.landmarks entries p.analysisError? ∧
    s.scopesEntered = entries.length
  allScopes : p.analysisError? = none → s.scopesEntered = 1 + p.block.procedureCount
  accepted : p.analysisError? = none → s.TellsRun p.analyze.program limit
  refused : p.analysisError? ≠ none →
    s.calls = 0 ∧ s.maxDepth = .zero false ∧ s.marks.get? .error = none

namespace Program

variable {p : Program} {limit : DepthLimit}

theorem traceEvents_refused {e : SemanticError} (h : p.analysisError? = some e)
    (limit : DepthLimit) : p.traceEvents limit = p.analyze.events := by
  rw [analysisError?] at h
  rw [traceEvents, ProgramAnalysis.runEvents]
  cases hscopes : p.analyze.scopes with
  | error e => rw [List.append_nil]
  | ok scopes => simp [hscopes] at h

theorem traceEvents_accepted (h : p.analysisError? = none) (limit : DepthLimit) :
    p.traceEvents limit = p.analyze.events ++ (p.analyze.program.run limit).events.toList := by
  rw [analysisError?] at h
  rw [traceEvents, ProgramAnalysis.runEvents]
  cases hscopes : p.analyze.scopes with
  | error e => simp [hscopes] at h
  | ok scopes => rfl

theorem traceEvents_cases {e : Event} (he : e ∈ p.traceEvents limit) :
    e ∈ p.analyze.events ∨ e ∈ (p.analyze.program.run limit).events.toList := by
  cases herror : p.analysisError? with
  | none =>
      rw [traceEvents_accepted herror limit] at he
      exact List.mem_append.mp he
  | some error =>
      rw [traceEvents_refused herror limit] at he
      exact .inl he

/-- The numbers of a trace are finite if the length of the source and the limit are. -/
theorem finite_numbers_traceEvents {source : List Char} {file : String} {detailed : Bool}
    (hparse : parse source file detailed = .ok p)
    (hlength : (Binary64.ofNat source.length).isFinite = true) {n : Int}
    (hlimit : limit.number.toInt? = some n) :
    ∀ e ∈ p.traceEvents limit, ∀ m ∈ e.numbers, (Binary64.ofNat m).isFinite = true := by
  have hnames := nameCount_lt hparse
  intro e he m hm
  rcases traceEvents_cases he with he | he
  · have hle := (p.analyze_tellsOfScope e he).numbers_le m hm
    exact Binary64.isFinite_ofNat_mono (Nat.le_trans hle hnames) hlength
  · have hdepth := (p.analyze.program.run_events_tell limit).2.2 e he m hm
    have hle := run_depths_le he hdepth
    rw [DepthLimit.frames_of_toInt? hlimit] at hle
    rcases Nat.le_total n.toNat 1 with hsmall | hlarge
    · exact Binary64.isFinite_ofNat_mono (by omega) hlength
    · exact Binary64.isFinite_ofNat_mono (by omega) (Binary64.isFinite_ofNat_of_toInt? hlimit)

theorem ofNat_zero : Binary64.ofNat 0 = .zero false := by decide +kernel

/-- What is counted of the lines of a trace. -/
theorem adds_traceEvents (runId : String) {told : List TimedEvent}
    (htold : told.map TimedEvent.event = p.traceEvents limit)
    (hdepths : ∀ e ∈ told, ∀ d, e.event.depth? = some d → (Binary64.ofNat d).isFinite = true) :
    TraceSummary.Adds (p.traceEvents limit)
      ⟨.ofString runId, told.length, .zero false, 0, 0, .empty, .zero false, .empty⟩
      (TraceSummary.ofLines (told.map (TimedEvent.traceLine runId)) (.zero false)) := by
  have hadds := TraceSummary.adds_traceLines runId hdepths
    ⟨.ofString runId, told.length, .zero false, 0, 0, .empty, .zero false, .empty⟩
  obtain ⟨first, rest, rfl⟩ : ∃ first rest, told = first :: rest := by
    cases told with
    | nil => simp [traceEvents, analyze, scopeEvents] at htold
    | cons first rest => exact ⟨first, rest, rfl⟩
  rw [htold] at hadds
  rw [← List.length_map (TimedEvent.traceLine runId)] at hadds ⊢
  exact hadds

/-- Analysis tells of scopes and of nothing else. -/
theorem analyze_events_tell (p : Program) :
    p.analyze.events.countP Event.isCallStart = 0 ∧
      p.analyze.events.filterMap Event.depth? = [] ∧
      p.analyze.events.filterMap Event.errorCode? = [] := by
  have hquiet (e : Event) (he : e ∈ p.analyze.events) :=
    (p.analyze_tellsOfScope e he).tells_nothing_else
  refine ⟨?_, ?_, ?_⟩
  · exact List.countP_eq_zero.mpr fun e he => by simp [(hquiet e he).1]
  · exact List.filterMap_eq_nil_iff.mpr fun e he => (hquiet e he).2.1
  · exact List.filterMap_eq_nil_iff.mpr fun e he => (hquiet e he).2.2

theorem countP_isScopeEntry_traceEvents (p : Program) (limit : DepthLimit) :
    (p.traceEvents limit).countP Event.isScopeEntry =
      (p.analyze.events.filter Event.isScopeEntry).length := by
  obtain ⟨hnone, -, -⟩ := p.analyze.program.run_events_tell limit
  cases herror : p.analysisError? with
  | some error => rw [traceEvents_refused herror limit, List.countP_eq_length_filter]
  | none =>
      rw [traceEvents_accepted herror limit, List.countP_append, hnone, List.countP_eq_length_filter,
        Nat.add_zero]

/-- The summary of the lines of a trace, all of them read back, tells what analysis and the run
did. -/
theorem summary_tells (runId : String) {told : List TimedEvent} (hp : p.FromSource)
    (htold : told.map TimedEvent.event = p.traceEvents limit)
    (hdepths : ∀ e ∈ told, ∀ d, e.event.depth? = some d → (Binary64.ofNat d).isFinite = true) :
    (TraceSummary.ofLines (told.map (TimedEvent.traceLine runId)) (.zero false)).Tells p limit runId
      (p.traceEvents limit) := by
  obtain ⟨hrunId, htotalEvents, hskipped, hscopes, hcalls, hmaxDepth, herror⟩ :=
    adds_traceEvents runId htold hdepths
  replace hmaxDepth := (hmaxDepth 0 (by rw [ofNat_zero]; rfl) ofNat_zero.symm).2
  rw [← List.length_map TimedEvent.event, htold] at htotalEvents
  rw [Nat.zero_add] at hcalls
  rw [countP_isScopeEntry_traceEvents, Nat.zero_add] at hscopes
  obtain ⟨hquietCalls, hquietDepths, hquietErrors⟩ := p.analyze_events_tell
  refine ⟨hrunId, hskipped, htotalEvents, ⟨_, analyze_enters hp, hscopes⟩, ?_, ?_, ?_⟩
  · intro haccepted
    rw [hscopes]
    exact length_analyze_entries hp (exists_scopes_of_analysisError? haccepted)
  · intro haccepted
    have hevents := traceEvents_accepted haccepted limit
    obtain ⟨c, pushed, hreaches, hend, hpushed⟩ := p.analyze.program.run_countP_isCallStart limit
    obtain ⟨-, hcode, -⟩ := p.analyze.program.run_events_tell limit
    refine ⟨⟨c, ?_, hend⟩, ⟨_, p.analyze.program.run_greatestDepth limit, ?_⟩, ?_⟩
    · rw [hcalls, hevents, List.countP_append, hquietCalls, Nat.zero_add, hpushed]
      exact hreaches
    · rw [hmaxDepth, hevents, List.filterMap_append, hquietDepths, List.nil_append]
      rfl
    · rw [herror, hevents, List.filterMap_append, hquietErrors, List.nil_append, hcode,
        Option.map_map]
      exact Option.or_none
  · intro hrefused
    obtain ⟨e, he⟩ := Option.ne_none_iff_exists'.mp hrefused
    have hevents := traceEvents_refused he limit
    refine ⟨?_, ?_, ?_⟩
    · rw [hcalls, hevents, hquietCalls]
    · rw [hmaxDepth, hevents, hquietDepths, ← ofNat_zero]
      rfl
    · rw [herror, hevents, hquietErrors]
      rfl

/-- The text of a trace is read back whole.  Every line of it is one of an event, in order, and the
summary tells what analysis and the run did. -/
theorem traceText_readBack {source : List Char} {file : String} {detailed : Bool}
    (hparse : parse source file detailed = .ok p)
    (hlength : (Binary64.ofNat source.length).isFinite = true) {n : Int}
    (hlimit : limit.number.toInt? = some n) (writtenFile runId : String) {told : List TimedEvent}
    (htold : told.map TimedEvent.event = p.traceEvents limit) :
    let lines := traceLines (traceText writtenFile runId told).toList
    let read := lines.filterMap TraceLine.read?
    read ≠ [] ∧
      List.Forall₂ (fun e line => ∃ l, TraceLine.read? line = some l ∧ l.Recovers runId e) told
        lines ∧
      (TraceSummary.ofLines read (.ofNat (lines.length - read.length))).Tells p limit runId
        (p.traceEvents limit) := by
  intro lines read
  have hnumbers : ∀ e ∈ told, ∀ m ∈ e.event.numbers, (Binary64.ofNat m).isFinite = true := by
    intro e he
    exact finite_numbers_traceEvents hparse hlength hlimit e.event
      (htold ▸ List.mem_map_of_mem he)
  have hlines : lines = told.map fun e => (e.line writtenFile runId).toList :=
    traceLines_traceText writtenFile runId told
  have hreads (e : TimedEvent) (he : e ∈ told) :=
    TraceLine.read?_line writtenFile runId (hnumbers e he)
  have hread : read = told.map (TimedEvent.traceLine runId) := by
    calc read = told.filterMap fun e => TraceLine.read? (e.line writtenFile runId).toList := by
          rw [← Function.comp_def, ← List.filterMap_map, ← hlines]
      _ = told.filterMap fun e => some (e.traceLine runId) := List.filterMap_congr hreads
      _ = told.map (TimedEvent.traceLine runId) := congrFun List.filterMap_eq_map told
  have hskipped : Binary64.ofNat (lines.length - read.length) = .zero false := by
    rw [hlines, hread, List.length_map, List.length_map, Nat.sub_self, ofNat_zero]
  refine ⟨?_, ?_, ?_⟩
  · -- Even analysis that fails has entered the scope of the program.
    rw [hread]
    rintro hnil
    simp [List.map_eq_nil_iff.mp hnil, traceEvents, analyze, scopeEvents] at htold
  · rw [hlines, List.forall₂_map_right_iff, List.forall₂_same]
    exact fun e he => ⟨_, hreads e he, e.traceLine_recovers runId (hnumbers e he)⟩
  · rw [hskipped, hread]
    apply summary_tells runId (fromSource_of_parse hparse) htold
    intro e he d hd
    exact hnumbers e he d (Event.mem_numbers_of_depth? hd)

end Program

end NestedPascal
