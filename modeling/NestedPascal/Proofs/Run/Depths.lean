import Mathlib.Order.Bounds.Basic
import NestedPascal.Proofs.Run.Bracketing

/-!
# How deep a run goes

The stack grows at calls alone, one frame at a time.  So the starts of calls among the events are as
many as the frames that were pushed, and the greatest depth that is told is the greatest that the
stack ever had.
-/

namespace NestedPascal

namespace Event

def isCallStart (e : Event) : Bool :=
  match e.kind with
  | .callStart .. => true
  | _ => false

/-- The depth of the stack that an event tells. -/
def depth? (e : Event) : Option Nat :=
  match e.kind with
  | .runEnd depth _ | .callStart _ depth | .callEnd _ depth => some depth
  | _ => none

end Event

namespace Configuration

/-- One configuration is reached from another by steps that push so many frames. -/
inductive ReachesPushing (program : Block) (limit : DepthLimit) (start : Configuration) :
    Nat → Configuration → Prop where
  | refl : ReachesPushing program limit start 0 start
  | tail {n : Nat} {c c' : Configuration} : ReachesPushing program limit start n c →
    c.step program limit = .next c' →
    ReachesPushing program limit start
      (n + (c'.machine.stack.depth - c.machine.stack.depth)) c'

variable {program : Block} {limit : DepthLimit} {c c' start : Configuration}

theorem Reaches.exists_pushing (h : Reaches program limit start c) :
    ∃ n, ReachesPushing program limit start n c := by
  induction h with
  | refl => exact ⟨0, .refl⟩
  | tail _ hstep ih =>
      obtain ⟨n, hn⟩ := ih
      exact ⟨_, hn.tail hstep⟩

/-- What a step does to the depth of the stack, and what it tells of it. -/
theorem Step.depth_cases (h : Step program limit c c') :
    (c'.machine.stack.depth = c.machine.stack.depth ∧ c'.machine.events = c.machine.events) ∨
      (∃ name span, c'.machine.stack.depth = c.machine.stack.depth - 1 ∧
        c'.machine.events =
          c.machine.events.push ⟨.callEnd name c.machine.stack.depth, span⟩) ∨
      ∃ name span, c'.machine.stack.depth = c.machine.stack.depth + 1 ∧
        c'.machine.events =
          c.machine.events.push ⟨.callStart name (c.machine.stack.depth + 1), span⟩ := by
  cases h with
  | @leave m declaration name span below =>
      refine .inr (.inl ⟨name, span, ?_, rfl⟩)
      simp [Machine.leave, Machine.emit, CallStack.depth, CallStack.pop]
  | compound => exact .inl ⟨rfl, rfl⟩
  | assignment hassign =>
      obtain ⟨v, symbol, place, -, -, rfl⟩ := Machine.assign_eq_ok hassign
      refine .inl ⟨?_, rfl⟩
      simp [CallStack.depth, CallStack.set]
  | @call m m' declaration call callee entered rest below henter =>
      obtain ⟨q, -, hdepth, hevents⟩ := Call.enter_events henter
      exact .inr (.inr ⟨q.name, callee.span, hdepth, hevents⟩)

/-- As many starts of calls are told as frames are pushed. -/
theorem ReachesPushing.countP_isCallStart {n : Nat} (h : ReachesPushing program limit start n c) :
    c.machine.events.toList.countP Event.isCallStart =
      start.machine.events.toList.countP Event.isCallStart + n := by
  induction h with
  | refl => rfl
  | tail _ hstep ih =>
      rcases (step_of_eq_next hstep).depth_cases with
        ⟨hdepth, hevents⟩ | ⟨name, span, hdepth, hevents⟩ | ⟨name, span, hdepth, hevents⟩
      · rw [hevents, ih, hdepth]
        omega
      · rw [hevents, Array.toList_push, List.countP_append, ih, hdepth]
        simp [Event.isCallStart]
      · rw [hevents, Array.toList_push, List.countP_append, ih, hdepth]
        simp [Event.isCallStart]
        omega

end Configuration

namespace Program

variable {p : Program} {limit : DepthLimit} {c : Configuration}

/-- A depth that the stack has at some time in the run. -/
def HasDepth (p : Program) (limit : DepthLimit) (depth : Nat) : Prop :=
  ∃ c, p.Reaches limit c ∧ c.machine.stack.depth = depth

/-- Only depths that the stack had are told. -/
theorem hasDepth_of_told (h : p.Reaches limit c) {e : Event} (he : e ∈ c.machine.events.toList)
    {depth : Nat} (hdepth : e.depth? = some depth) : p.HasDepth limit depth := by
  induction h with
  | refl =>
      simp only [start, initialMachine, List.mem_singleton] at he
      subst e
      contradiction
  | @tail c c' hbefore hstep ih =>
      rcases (Configuration.step_of_eq_next hstep).depth_cases with
        ⟨-, hevents⟩ | ⟨name, span, -, hevents⟩ | ⟨name, span, hafter, hevents⟩
      · rw [hevents] at he
        exact ih he
      · rw [hevents, Array.toList_push, List.mem_append, List.mem_singleton] at he
        rcases he with he | rfl
        · exact ih he
        · cases hdepth
          exact ⟨c, hbefore, rfl⟩
      · rw [hevents, Array.toList_push, List.mem_append, List.mem_singleton] at he
        rcases he with he | rfl
        · exact ih he
        · cases hdepth
          exact ⟨c', hbefore.tail hstep, hafter⟩

/-- The stack is never deeper than the program's own frame or what was told. -/
theorem depth_le_told (h : p.Reaches limit c) : c.machine.stack.depth ≤ 1 ∨
    ∃ e ∈ c.machine.events.toList, ∃ depth, e.depth? = some depth ∧
      c.machine.stack.depth ≤ depth := by
  induction h with
  | refl => exact .inl (Nat.le_refl 1)
  | @tail c c' hbefore hstep ih =>
      have hkeep (hdepth : c'.machine.stack.depth ≤ c.machine.stack.depth)
          (hevents : c.machine.events.toList <+: c'.machine.events.toList) :
          c'.machine.stack.depth ≤ 1 ∨ ∃ e ∈ c'.machine.events.toList, ∃ depth,
            e.depth? = some depth ∧ c'.machine.stack.depth ≤ depth := by
        rcases ih with hshallow | ⟨e, he, depth, htold, hle⟩
        · exact .inl (Nat.le_trans hdepth hshallow)
        · exact .inr ⟨e, hevents.subset he, depth, htold, Nat.le_trans hdepth hle⟩
      have hevents := (Configuration.step_of_eq_next hstep).events_isPrefix
      rcases (Configuration.step_of_eq_next hstep).depth_cases with
        ⟨hdepth, -⟩ | ⟨name, span, hdepth, -⟩ | ⟨name, span, hdepth, hevents⟩
      · exact hkeep (by omega) hevents
      · exact hkeep (by omega) hevents
      · right
        refine ⟨⟨.callStart name (c.machine.stack.depth + 1), span⟩, ?_, _, rfl, by omega⟩
        simp [hevents]

/-- The greatest of depths, zero if there is none. -/
def greatestDepth (events : List Event) : Nat :=
  (events.filterMap Event.depth?).foldl max 0

theorem foldl_max_le_iff {depths : List Nat} {least bound : Nat} :
    depths.foldl max least ≤ bound ↔ least ≤ bound ∧ ∀ d ∈ depths, d ≤ bound := by
  induction depths generalizing least with
  | nil => simp
  | cons d depths ih => simp [ih, and_assoc]

theorem foldl_max_mem (depths : List Nat) (least : Nat) :
    depths.foldl max least = least ∨ depths.foldl max least ∈ depths := by
  induction depths generalizing least with
  | nil => exact .inl rfl
  | cons d depths ih =>
      rcases ih (max least d) with h | h
      · rcases Nat.le_total least d with hle | hle
        · rw [Nat.max_eq_right hle] at h
          right
          rw [List.foldl_cons, Nat.max_eq_right hle, h]
          exact .head _
        · rw [Nat.max_eq_left hle] at h
          left
          rw [List.foldl_cons, Nat.max_eq_left hle, h]
      · exact .inr (.tail _ h)

theorem depth_pos_of_reaches (h : p.Reaches limit c) : 1 ≤ c.machine.stack.depth := by
  have hdepth := (Configuration.bracketed_of_reaches h).depth
  omega

/-- The events of a run tell of as many starts of calls as the run pushes frames. -/
theorem run_countP_isCallStart (p : Program) (limit : DepthLimit) :
    ∃ c n, Configuration.ReachesPushing p.block limit p.start n c ∧
      c.EndsWith p.block limit (p.run limit).error ∧
      (p.run limit).events.toList.countP Event.isCallStart = n := by
  obtain ⟨c, hc, -, hend, hresult⟩ := p.run_eq_result limit
  obtain ⟨n, hn⟩ := hc.exists_pushing
  refine ⟨c, n, hn, hend, ?_⟩
  rw [events_of_result hresult, List.countP_append, hn.countP_isCallStart]
  simp [start, initialMachine, Event.isCallStart, RunResult.ending]

/-- The greatest depth that the events of a run tell is the greatest that the stack has. -/
theorem run_greatestDepth (p : Program) (limit : DepthLimit) :
    IsGreatest {depth | p.HasDepth limit depth} (greatestDepth (p.run limit).events.toList) := by
  obtain ⟨c, hc, hall, -, hresult⟩ := p.run_eq_result limit
  have htold (e : Event) (he : e ∈ (p.run limit).events.toList) (depth : Nat)
      (hdepth : e.depth? = some depth) : p.HasDepth limit depth := by
    rw [events_of_result hresult, List.mem_append, List.mem_singleton] at he
    rcases he with he | rfl
    · exact hasDepth_of_told hc he hdepth
    · cases hdepth
      exact ⟨c, hc, by rw [hresult]; rfl⟩
  have hend : (⟨(p.run limit).ending, p.span⟩ : Event) ∈ (p.run limit).events.toList := by
    rw [events_of_result hresult]
    simp
  have hbound (e : Event) (he : e ∈ (p.run limit).events.toList) (depth : Nat)
      (hdepth : e.depth? = some depth) :
      depth ≤ greatestDepth (p.run limit).events.toList :=
    (foldl_max_le_iff.mp (Nat.le_refl _)).2 depth (List.mem_filterMap.mpr ⟨e, he, hdepth⟩)
  -- The run ends with a frame on the stack and tells so.
  have hpositive : 1 ≤ greatestDepth (p.run limit).events.toList := by
    have hstack : (p.run limit).stack = c.machine.stack := by
      rw [hresult]
      rfl
    have hc' := depth_pos_of_reaches hc
    rw [← hstack] at hc'
    exact Nat.le_trans hc' (hbound _ hend _ rfl)
  constructor
  · rcases foldl_max_mem ((p.run limit).events.toList.filterMap Event.depth?) 0 with hzero | hmem
    · rw [greatestDepth, hzero] at hpositive
      contradiction
    · obtain ⟨e, he, hdepth⟩ := List.mem_filterMap.mp hmem
      exact htold e he _ hdepth
  · rintro depth ⟨c', hc', rfl⟩
    rcases depth_le_told hc' with hshallow | ⟨e, he, depth, hdepth, hle⟩
    · exact Nat.le_trans hshallow hpositive
    · have hevents := Configuration.Reaches.events_isPrefix (hall c' hc')
      have hmem : e ∈ (p.run limit).events.toList := by
        rw [events_of_result hresult]
        exact List.mem_append_left _ (hevents.subset he)
      exact Nat.le_trans hle (hbound e hmem depth hdepth)

end Program

end NestedPascal
