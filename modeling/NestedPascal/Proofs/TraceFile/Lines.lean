import Mathlib.Data.List.Nodup
import NestedPascal.Proofs.Binary64.Naturals
import NestedPascal.Proofs.Json.OneLine
import NestedPascal.TraceFile.Line

/-!
# Traces read line by line

The text of a trace falls into the lines of its events, and each line is read back with the run, the
name and the data of its event, as long as the numbers that it tells are finite.
-/

namespace NestedPascal

theorem Text.ofString_inj {s t : String} : Text.ofString s = Text.ofString t ↔ s = t :=
  ⟨Text.ofString_injective, congrArg Text.ofString⟩

namespace Binary64

/-- Times between two readings of a clock are finite numbers. -/
theorem isFinite_ofInt_duration (d : Time.Duration) : (ofInt d.millis).isFinite = true := by
  rw [ofInt, isFinite_ofQuotient_iff]
  exact Nat.lt_of_le_of_lt (nearest_natural_mono d.inRange) (by decide +kernel)

end Binary64

namespace Json

theorem told_ofString (s : String) : (ofString s).Told :=
  ⟨s.toList, rfl⟩

theorem told_ofInt (n : Int) : (ofInt n).Told :=
  Binary64.ofInt_ne_negative_zero n

theorem ofFields_present (fields : List (String × Json)) :
    ofFields (fields.map fun f => (f.1, some f.2)) =
      .object (fields.map fun f => (Text.ofString f.1, f.2)) := by
  simp [ofFields, List.filterMap_map]

/-- An object of present fields is told if their names differ and their values are told. -/
theorem told_ofFields {fields : List (String × Json)} (hnames : (fields.map (·.1)).Nodup)
    (hvalues : ∀ f ∈ fields, f.2.Told) : (ofFields (fields.map fun f => (f.1, some f.2))).Told := by
  rw [ofFields_present, Told]
  constructor
  · clear hnames
    induction fields with
    | nil => trivial
    | cons f fields ih =>
        obtain ⟨hf, hfields⟩ := List.forall_mem_cons.mp hvalues
        exact ⟨⟨f.1.toList, rfl⟩, hf, ih hfields⟩
  · rw [List.map_map]
    have hinjective : Function.Injective Text.ofString := fun _ _ => Text.ofString_injective
    have hmapped := List.Nodup.map hinjective hnames
    rwa [List.map_map] at hmapped

theorem finite_ofFields_present (fields : List (String × Json)) :
    (ofFields (fields.map fun f => (f.1, some f.2))).finite =
      .object (fields.map fun f => (Text.ofString f.1, f.2.finite)) := by
  rw [ofFields_present, finite]
  congr 1
  induction fields with
  | nil => rfl
  | cons f fields ih => simp [finiteMembers, ih]

theorem location_toJson_eq (l : Location) :
    l.toJson = ofFields (List.map (fun f => (f.1, some f.2))
      [("file", .ofString l.file), ("startLine", .number l.startLine),
        ("startCol", .number l.startColumn), ("endLine", .number l.endLine),
        ("endCol", .number l.endColumn)]) := rfl

theorem told_inFile (span : Span) (file : String) : (span.inFile file).toJson.Told := by
  rw [location_toJson_eq]
  apply told_ofFields
  · simp
  · have hnumber (n : Nat) : (Json.number (.ofNat n)).Told := told_ofInt n
    simp [told_ofString, Span.inFile, hnumber]

end Json

/-! ## Lines of a text -/

theorem splitLines_append {line : List Char} (h : '\n' ∉ line) (rest : List Char) :
    splitLines (line ++ '\n' :: rest) = line :: splitLines rest := by
  induction line with
  | nil => simp [splitLines]
  | cons c line ih =>
      rw [List.mem_cons, not_or] at h
      rw [List.cons_append, splitLines, if_neg (Ne.symm h.1), ih h.2]

theorem splitLines_lines {lines : List (List Char)} (h : ∀ line ∈ lines, '\n' ∉ line) :
    splitLines (lines.flatMap (· ++ ['\n'])) = lines ++ [[]] := by
  induction lines with
  | nil => rfl
  | cons line lines ih =>
      obtain ⟨hline, hlines⟩ := List.forall_mem_cons.mp h
      rw [List.flatMap_cons, List.append_assoc, List.singleton_append, splitLines_append hline,
        ih hlines, List.cons_append]

/-- The numbers that an event tells. -/
def Event.numbers (e : Event) : List Nat :=
  match e.kind with
  | .scopeEnter _ level => [level]
  | .scopeLeave _ level symbols => [level, symbols]
  | .runStart .. => []
  | .runEnd depth _ | .callStart _ depth | .callEnd _ depth => [depth]

namespace TimedEvent

/-- The data on the line of an event. -/
def recorded (e : TimedEvent) : List (String × Json) :=
  (match e.event.kind with
    | .runEnd .. => [("durationMs", Json.ofInt e.duration.millis)]
    | _ => []) ++ e.event.data

variable (file runId : String) (e : TimedEvent)

theorem toJson_eq :
    e.toJson file runId = .ofFields (List.map (fun f => (f.1, some f.2))
      [("ts", Json.ofString e.time.text), ("runId", .ofString runId),
        ("event", .ofString e.event.name), ("span", (e.event.span.inFile file).toJson),
        ("data", .ofFields (e.recorded.map fun d => (d.1, some d.2)))]) := by
  obtain ⟨⟨kind, span⟩, time, duration⟩ := e
  cases kind <;> simp [toJson, recorded]

theorem names_recorded : (e.recorded.map (·.1)).Nodup := by
  obtain ⟨⟨kind, span⟩, time, duration⟩ := e
  rcases kind with _ | _ | _ | ⟨depth, _ | ⟨code, message⟩⟩ | _ | _ <;>
    simp [recorded, Event.data]

variable {file runId} {e}

/-- The data of an event are texts and integers. -/
theorem recorded_cases {d : String × Json} (hd : d ∈ e.recorded) :
    (∃ s, d.2 = .ofString s) ∨
      d.2 = .ofInt e.duration.millis ∨ ∃ n ∈ e.event.numbers, d.2 = .ofNat n := by
  obtain ⟨⟨kind, span⟩, time, duration⟩ := e
  rcases kind with _ | _ | _ | ⟨depth, _ | ⟨code, message⟩⟩ | _ | _ <;>
    simp only [recorded, Event.data, List.nil_append, List.cons_append, List.mem_cons,
      List.not_mem_nil, or_false] at hd <;>
    rcases hd with rfl | rfl | rfl | rfl <;> simp [Event.numbers]

variable (file runId) (e)

theorem told_toJson : (e.toJson file runId).Told := by
  have hdata : (Json.ofFields (e.recorded.map fun d => (d.1, some d.2))).Told := by
    apply Json.told_ofFields (names_recorded e)
    intro d hd
    rcases recorded_cases hd with ⟨s, hs⟩ | hduration | ⟨n, -, hn⟩
    · rw [hs]
      exact Json.told_ofString s
    · rw [hduration]
      exact Json.told_ofInt _
    · rw [hn]
      exact Json.told_ofInt n
  rw [toJson_eq]
  apply Json.told_ofFields
  · simp
  · simp [Json.told_ofString, Json.told_inFile, hdata]

theorem line_eq_cons : ∃ cs, (e.line file runId).toList = '\x7b' :: cs := by
  rw [line, toJson_eq, Json.ofFields, Json.compact, String.toList_append, String.toList_append]
  exact ⟨_, rfl⟩

theorem lineFeed_not_mem_line : '\n' ∉ (e.line file runId).toList :=
  Json.lineFeed_not_mem_compact _ (told_toJson file runId e)

/-- What the line of an event is read as. -/
def traceLine : TraceLine :=
  ⟨e.time.text, runId, e.event.name,
    e.recorded.filterMap fun d => (TraceDatum.ofJson? d.2).map fun t => (Text.ofString d.1, t)⟩

theorem time_traceLine : (e.traceLine runId).time = .ofString e.time.text := by
  rw [traceLine]

variable {file runId} {e}

theorem finite_recorded (hnumbers : ∀ n ∈ e.event.numbers, (Binary64.ofNat n).isFinite = true)
    {d : String × Json} (hd : d ∈ e.recorded) :
    d.2.finite = d.2 ∧ ∃ t, TraceDatum.ofJson? d.2 = some t := by
  rcases recorded_cases hd with ⟨s, hs⟩ | hduration | ⟨n, hn, heq⟩
  · rw [hs]
    exact ⟨rfl, _, rfl⟩
  · rw [hduration, Json.ofInt, Json.finite, if_pos (Binary64.isFinite_ofInt_duration _)]
    exact ⟨rfl, _, rfl⟩
  · rw [heq, Json.ofNat, Json.finite, if_pos (hnumbers n hn)]
    exact ⟨rfl, _, rfl⟩

end TimedEvent

theorem mapM_eq_filterMap {α β : Type} {f : α → Option β} {l : List α}
    (h : ∀ a ∈ l, ∃ b, f a = some b) : l.mapM f = some (l.filterMap f) := by
  induction l with
  | nil => rfl
  | cons a l ih =>
      obtain ⟨⟨b, hb⟩, hl⟩ := List.forall_mem_cons.mp h
      simp [List.mapM_cons, hb, ih hl]

namespace TraceLine

theorem readData?_of_fields {members : List (Text × Json)} {fields : List (String × Json)}
    (hmember : Json.member? "data" members =
      some (.object (fields.map fun f => (Text.ofString f.1, f.2.finite))))
    (hfields : ∀ f ∈ fields, f.2.finite = f.2 ∧ ∃ t, TraceDatum.ofJson? f.2 = some t) :
    readData? members = some (fields.filterMap fun f =>
      (TraceDatum.ofJson? f.2).map fun t => (Text.ofString f.1, t)) := by
  have hsame : (fields.map fun f => (Text.ofString f.1, f.2.finite)) =
      fields.map fun f => (Text.ofString f.1, f.2) := by
    apply List.map_congr_left
    intro f hf
    rw [(hfields f hf).1]
  rw [readData?, hmember]
  simp only [hsame]
  rw [mapM_eq_filterMap]
  · rw [List.filterMap_map]
    rfl
  · intro m hm
    obtain ⟨f, hf, rfl⟩ := List.mem_map.mp hm
    obtain ⟨-, t, ht⟩ := hfields f hf
    exact ⟨_, by rw [ht]; rfl⟩

/-- The line of an event is read back. -/
theorem read?_line (file runId : String) {e : TimedEvent}
    (hnumbers : ∀ n ∈ e.event.numbers, (Binary64.ofNat n).isFinite = true) :
    read? (e.line file runId).toList = some (e.traceLine runId) := by
  have hmember : Json.member? "data" [(Text.ofString "ts", (Json.ofString e.time.text).finite),
      (Text.ofString "runId", (Json.ofString runId).finite),
      (Text.ofString "event", (Json.ofString e.event.name).finite),
      (Text.ofString "span", (e.event.span.inFile file).toJson.finite),
      (Text.ofString "data",
        (Json.ofFields (e.recorded.map fun d => (d.1, some d.2))).finite)] =
      some (.object (e.recorded.map fun f => (Text.ofString f.1, f.2.finite))) := by
    simp [Json.member?, Register.lookup, Text.ofString_inj, Json.finite_ofFields_present]
  have hdata := readData?_of_fields hmember fun d hd => TimedEvent.finite_recorded hnumbers hd
  rw [read?, TimedEvent.line, Json.read?_compact (e.told_toJson file runId), e.toJson_eq,
    Json.finite_ofFields_present]
  simp only [List.map_cons, List.map_nil, Option.bind_some, ofJson?, hdata]
  simp [stringMember?, Json.member?, Register.lookup, Text.ofString_inj, Json.ofString, Json.finite,
    TimedEvent.traceLine]

end TraceLine

section

variable (file runId : String) (told : List TimedEvent)

theorem toList_traceText :
    (traceText file runId told).toList =
      (told.map fun e => (e.line file runId).toList).flatMap (· ++ ['\n']) := by
  simp [traceText, String.toList_join, List.flatMap_map]

/-- The lines of a trace that are not blank are those of its events. -/
theorem traceLines_traceText :
    traceLines (traceText file runId told).toList =
      told.map fun e => (e.line file runId).toList := by
  have hlines : ∀ line ∈ told.map fun e => (e.line file runId).toList, '\n' ∉ line := by
    intro line hline
    obtain ⟨e, -, rfl⟩ := List.mem_map.mp hline
    exact e.lineFeed_not_mem_line file runId
  have hkept : ∀ line ∈ told.map fun e => (e.line file runId).toList,
      (!line.all isBlank) = true := by
    intro line hline
    obtain ⟨e, -, rfl⟩ := List.mem_map.mp hline
    obtain ⟨cs, hcs⟩ := e.line_eq_cons file runId
    rw [hcs]
    rfl
  rw [traceLines, toList_traceText, splitLines_lines hlines, List.filter_append,
    List.filter_eq_self.mpr hkept]
  simp

end

end NestedPascal
