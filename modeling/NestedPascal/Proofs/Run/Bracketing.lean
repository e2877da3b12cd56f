import NestedPascal.Proofs.Run.Events

/-!
# Calls as brackets

The events of a run open and close calls like brackets.  Whoever reads them from the start can tell
which calls are open, and these are the procedures whose frames are on the stack: the events say what
the stack looks like without showing it.  This holds of every tree, whether analysis accepted it or
not.
-/

namespace NestedPascal

/-- A call that an event told of. -/
structure ToldCall where
  procedure : String
  span : Span
  /-- How many frames are on the stack, that of the call included. -/
  depth : Nat
deriving DecidableEq

/-- Reads one event while some calls are open, innermost first.  A start must say how deep the call
is, an end must say what the start of the innermost open call said, and nothing else may come. -/
def readCallEvent (calls : List ToldCall) (e : Event) : Option (List ToldCall) :=
  match e.kind, calls with
  | .callStart name depth, calls =>
    if depth = 1 + (calls.length + 1) then some (⟨name, e.span, depth⟩ :: calls) else none
  | .callEnd name depth, innermost :: calls =>
    if depth = 1 + (calls.length + 1) ∧ innermost = ⟨name, e.span, depth⟩ then some calls else none
  | _, _ => none

/-- The calls that events leave open, innermost first, if the events are brackets. -/
def openCalls? (events : List Event) : Option (List ToldCall) :=
  events.foldlM readCallEvent []

theorem openCalls?_concat {told : List Event} {calls : List ToldCall}
    (h : openCalls? told = some calls) (e : Event) :
    openCalls? (told ++ [e]) = readCallEvent calls e := by
  rw [openCalls?] at h ⊢
  simp [List.foldlM_append, h]

theorem readCallEvent_start (calls : List ToldCall) (name : String) (span : Span) :
    readCallEvent calls ⟨.callStart name (1 + (calls.length + 1)), span⟩ =
      some (⟨name, span, 1 + (calls.length + 1)⟩ :: calls) := by
  simp [readCallEvent]

theorem readCallEvent_end (calls : List ToldCall) (name : String) (span : Span) :
    readCallEvent (⟨name, span, 1 + (calls.length + 1)⟩ :: calls)
      ⟨.callEnd name (1 + (calls.length + 1)), span⟩ = some calls := by
  simp [readCallEvent]

def Event.TellsOfCall (e : Event) : Prop :=
  ∃ name depth, e.kind = .callStart name depth ∨ e.kind = .callEnd name depth

theorem tellsOfCall_of_readCallEvent {calls calls' : List ToldCall} {e : Event}
    (h : readCallEvent calls e = some calls') : e.TellsOfCall := by
  unfold readCallEvent at h
  split at h
  next name depth hkind => exact ⟨name, depth, .inl hkind⟩
  next name depth _ _ hkind => exact ⟨name, depth, .inr hkind⟩
  next => contradiction

theorem tellsOfCall_of_foldlM {calls calls' : List ToldCall} {events : List Event}
    (h : events.foldlM readCallEvent calls = some calls') :
    ∀ e ∈ events, e.TellsOfCall := by
  induction events generalizing calls with
  | nil => simp
  | cons first rest ih =>
      rw [List.foldlM_cons] at h
      obtain ⟨between, hfirst, hrest⟩ := Option.bind_eq_some_iff.mp h
      exact List.forall_mem_cons.mpr ⟨tellsOfCall_of_readCallEvent hfirst, ih hrest⟩

/-! ## Headings of frames -/

/-- What of a frame stays as it is while the frame is on the stack, links apart. -/
def Frame.heading {link : Type} (f : Frame link) : FrameRole × String × Nat :=
  (f.role, f.name, f.nesting)

namespace CallStack

variable {stack : CallStack (Frame Nat)}

/-- The headings of the frames, bottom first. -/
def headings (stack : CallStack (Frame Nat)) : List (FrameRole × String × Nat) :=
  stack.frames.toList.map Frame.heading

theorem length_headings (stack : CallStack (Frame Nat)) : stack.headings.length = stack.depth := by
  simp [headings, depth]

theorem headings_set (stack : CallStack (Frame Nat)) (place : Nat) (name : String) (value : Value) :
    (stack.set place name value).headings = stack.headings := by
  apply List.ext_getElem?
  intro i
  simp only [headings, set, Array.toList_modify, List.getElem?_map, List.getElem?_modify]
  cases stack.frames.toList[i]? with
  | none => rfl
  | some f =>
      by_cases hplace : place = i
      · simp [hplace, Frame.heading, Frame.set]
      · simp [hplace]

theorem headings_push (stack : CallStack (Frame Nat)) (f : Frame Nat) :
    (stack.push f).headings = stack.headings ++ [f.heading] := by
  simp [headings, push]

theorem headings_pop (stack : CallStack (Frame Nat)) :
    stack.pop.headings = stack.headings.dropLast := by
  simp [headings, pop, List.map_dropLast]

end CallStack

/-! ## States of a run -/

/-- The calls that activations answer, innermost first. -/
def answeredCalls : List Activation → List ToldCall
  | [] => []
  | ⟨_, none, _⟩ :: below => answeredCalls below
  | ⟨_, some (name, span), _⟩ :: below =>
    ⟨name, span, 1 + ((answeredCalls below).length + 1)⟩ :: answeredCalls below

theorem answeredCalls_of_todo (declaration : DeclarationPath) (call : Option (String × Span))
    (todo todo' : List Statement) (below : List Activation) :
    answeredCalls (⟨declaration, call, todo⟩ :: below) =
      answeredCalls (⟨declaration, call, todo'⟩ :: below) := by
  cases call with
  | none => rw [answeredCalls, answeredCalls]
  | some c => rw [answeredCalls, answeredCalls]

/-- The headings of the stack on which calls are open. -/
def ToldCall.headings (program : String) (calls : List ToldCall) :
    List (FrameRole × String × Nat) :=
  (.program, program, 1) :: calls.reverse.map fun c => (.procedure, c.procedure, c.depth)

theorem ToldCall.headings_cons (program : String) (c : ToldCall) (calls : List ToldCall) :
    headings program (c :: calls) =
      headings program calls ++ [(.procedure, c.procedure, c.depth)] := by
  simp [headings]

/-- Events, activations and frames tell of the same calls. -/
structure Configuration.Bracketed (p : Program) (c : Configuration) : Prop where
  told : openCalls? c.machine.events.toList.tail = some (answeredCalls c.activations)
  stack : c.machine.stack.headings = ToldCall.headings p.name (answeredCalls c.activations)

namespace Configuration

variable {p : Program} {limit : DepthLimit} {c c' : Configuration}

theorem Bracketed.depth (h : c.Bracketed p) :
    c.machine.stack.depth = 1 + (answeredCalls c.activations).length := by
  rw [← CallStack.length_headings, h.stack]
  simp [ToldCall.headings, Nat.add_comm]

theorem Bracketed.start (p : Program) : p.start.Bracketed p := by
  constructor
  · rfl
  · rfl

theorem Bracketed.step (h : c.Bracketed p) (hc : p.Reaches limit c)
    (hstep : Step p.block limit c c') : c'.Bracketed p := by
  obtain ⟨told, htold⟩ := Program.events_of_reaches hc
  have hdepth := h.depth
  have hopen := h.told
  have hstack := h.stack
  rw [htold, List.tail_cons] at hopen
  cases hstep with
  | @leave m declaration name span below =>
      simp only [answeredCalls] at hopen hdepth hstack htold
      -- The activation that ends is the one whose start was told last.
      have hlast := openCalls?_concat hopen
        ⟨.callEnd name (1 + ((answeredCalls below).length + 1)), span⟩
      rw [readCallEvent_end] at hlast
      constructor
      · simpa [Machine.leave, Machine.emit, htold, hdepth] using hlast
      · simp only [Machine.leave, Machine.emit]
        rw [CallStack.headings_pop, hstack, ToldCall.headings_cons, List.dropLast_concat]
  | @compound m declaration call span children rest below =>
      have hsame := answeredCalls_of_todo declaration call (.compound span children :: rest)
        (children ++ rest) below
      exact ⟨hsame ▸ h.told, hsame ▸ h.stack⟩
  | @assignment m m' declaration call span target value rest below hassign =>
      obtain ⟨v, symbol, place, -, -, rfl⟩ := Machine.assign_eq_ok hassign
      have hsame := answeredCalls_of_todo declaration call (.assignment span target value :: rest)
        rest below
      have hset := CallStack.headings_set m.stack place symbol.name (v.widen symbol.kind)
      exact ⟨hsame ▸ h.told, hsame ▸ hset.trans h.stack⟩
  | @call m m' declaration call callee entered rest below henter =>
      obtain ⟨q, place, members, hsymbol, -, -, -, hpushed, rfl⟩ := Call.enter_eq_ok henter
      obtain ⟨q', hsymbol', -, hevents⟩ := Call.enter_events henter
      obtain rfl : q = q' := Option.some.inj (hsymbol.symm.trans hsymbol')
      have hbelow : answeredCalls (⟨declaration, call, .call callee :: rest⟩ :: below) =
          answeredCalls (⟨declaration, call, rest⟩ :: below) := answeredCalls_of_todo ..
      simp only [hbelow] at hopen hdepth hstack
      have hnext := Nat.add_assoc 1 (answeredCalls (⟨declaration, call, rest⟩ :: below)).length 1
      rw [← hdepth] at hnext
      constructor
      · have hlast := openCalls?_concat hopen ⟨.callStart q.name (m.stack.depth + 1), callee.span⟩
        rw [hnext, readCallEvent_start] at hlast
        rw [hevents, Array.toList_push, htold, List.cons_append, List.tail_cons, hnext]
        exact hlast
      · rw [hpushed, CallStack.headings_push, hstack]
        simp only [answeredCalls, ToldCall.headings_cons, Frame.heading, hnext]

theorem bracketed_of_reaches (hc : p.Reaches limit c) : c.Bracketed p := by
  induction hc with
  | refl => exact .start p
  | tail hbefore hstep ih => exact ih.step hbefore (step_of_eq_next hstep)

/-- Where a run ends well, nothing is left to answer. -/
theorem answeredCalls_of_endsWith (h : c.EndsWith p.block limit none) :
    answeredCalls c.activations = [] := by
  obtain ⟨hfinished, hlength⟩ := h
  obtain ⟨m, activations⟩ := c
  obtain ⟨⟨declaration, call, todo⟩, rfl⟩ := List.length_eq_one_iff.mp hlength
  cases call with
  | none => rw [answeredCalls, answeredCalls]
  | some call =>
      cases todo with
      | nil => simp [step] at hfinished
      | cons s rest =>
          cases s with
          | compound span children => simp [step] at hfinished
          | assignment span target value =>
              simp only [step] at hfinished
              split at hfinished <;> contradiction
          | call callee =>
              simp only [step] at hfinished
              split at hfinished <;> contradiction

end Configuration

/-! ## What the events of a run promise -/

/-- What events that were told between the start and the end of a run promise of it, when they leave
calls open. -/
structure RunResult.Bracketed (r : RunResult) (p : Program) (told : List Event)
    (openCalls : List ToldCall) : Prop where
  events : r.events.toList = ⟨.runStart p.name p.file, p.span⟩ :: (told ++ [⟨r.ending, p.span⟩])
  calls : ∀ e ∈ told, e.TellsOfCall
  brackets : openCalls? told = some openCalls
  /-- The frame of the program and, one to one and in order, those of the open calls. -/
  stack : r.stack.headings = ToldCall.headings p.name openCalls
  procedures : (r.stack.frames.toList.filter (·.role = .procedure)).map
      (fun f => (f.name, f.nesting)) = openCalls.reverse.map fun c => (c.procedure, c.depth)
  success : r.error = none → openCalls = [] ∧ r.ending = .runEnd 1 none
  failure : ∀ e, r.error = some e →
    r.ending = .runEnd r.stack.depth (some (e.cause.code.text, e.cause.message))

namespace ToldCall

/-- The frames of procedures, by what is told of their calls. -/
theorem procedures_of_headings {frames : List (Frame Nat)} {program : String}
    {calls : List ToldCall} (h : frames.map Frame.heading = headings program calls) :
    (frames.filter (·.role = .procedure)).map (fun f => (f.name, f.nesting)) =
      calls.reverse.map fun c => (c.procedure, c.depth) := by
  have hall : calls.filter (fun _ => true) = calls := List.filter_eq_self.mpr fun _ _ => rfl
  calc (frames.filter (·.role = .procedure)).map (fun f => (f.name, f.nesting))
      = ((frames.map Frame.heading).filter (·.1 = .procedure)).map (·.2) := by
        rw [List.filter_map, List.map_map]
        rfl
    _ = ((headings program calls).filter (·.1 = .procedure)).map (·.2) := by rw [h]
    _ = calls.reverse.map fun c => (c.procedure, c.depth) := by
        simp [headings, Function.comp_def, List.filter_map, hall]

end ToldCall

namespace Program

/-- The events of a run begin with its start and end with its end; those between are brackets, and
the calls that they leave open are the procedures whose frames are on the stack. -/
theorem run_bracketed (p : Program) (limit : DepthLimit) :
    ∃ told openCalls, (p.run limit).Bracketed p told openCalls := by
  obtain ⟨c, hc, -, hend, hresult⟩ := p.run_eq_result limit
  have hbracketed := Configuration.bracketed_of_reaches hc
  have htold := callEvents_of_result hresult
  have hstack : (p.run limit).stack = c.machine.stack := by
    rw [hresult]
    rfl
  have hbrackets : openCalls? (p.run limit).callEvents = some (answeredCalls c.activations) := by
    rw [htold]
    exact hbracketed.told
  have hheadings := hbracketed.stack
  rw [← hstack] at hheadings
  refine ⟨(p.run limit).callEvents, answeredCalls c.activations, p.run_events limit,
    tellsOfCall_of_foldlM hbrackets, hbrackets, hheadings, ToldCall.procedures_of_headings hheadings,
    ?_, ?_⟩
  · intro herror
    rw [herror] at hend
    have hclosed := Configuration.answeredCalls_of_endsWith hend
    have hdepth := hbracketed.depth
    rw [hclosed, ← hstack] at hdepth
    refine ⟨hclosed, ?_⟩
    simp [RunResult.ending, herror, hdepth]
  · intro e herror
    simp [RunResult.ending, herror]

end Program

end NestedPascal
