import Mathlib.Algebra.BigOperators.Intervals
import Mathlib.Algebra.BigOperators.Ring.Finset
import Mathlib.Tactic.Ring
import NestedPascal.Proofs.Run.Depths
import NestedPascal.Proofs.Run.Unfolding

/-!
# Every run ends

However calls recur, the limit keeps them from nesting deeper than it allows, and each body holds so
many statements and so many of them calls.  So what is left to do when an activation stands at some
depth can be bounded by the frames that still fit above it.  Every step uses some of that up, and a
call that is entered uses up what its own body may come to.
-/

namespace NestedPascal

/-! ## The statements of a body -/

def Statement.isCall : Statement → Bool
  | .call _ => true
  | _ => false

/-- The number of calls among statements, those in compounds included. -/
def callCount (ss : List Statement) : Nat :=
  (simpleStatements ss).countP Statement.isCall

@[simp] theorem callCount_nil : callCount [] = 0 := rfl

@[simp] theorem callCount_append (front back : List Statement) :
    callCount (front ++ back) = callCount front + callCount back := by
  simp [callCount, simpleStatements_append]

@[simp] theorem callCount_compound (span : Span) (children rest : List Statement) :
    callCount (.compound span children :: rest) = callCount children + callCount rest := by
  simp [callCount, simpleStatements, Statement.simple]

@[simp] theorem callCount_assignment (span : Span) (target : VariableRef) (value : Expr)
    (rest : List Statement) :
    callCount (.assignment span target value :: rest) = callCount rest := by
  simp [callCount, simpleStatements, Statement.simple, Statement.isCall]

@[simp] theorem callCount_call (c : Call) (rest : List Statement) :
    callCount (.call c :: rest) = callCount rest + 1 := by
  simp [callCount, simpleStatements, Statement.simple, Statement.isCall, List.countP_cons]

mutual

/-- The number of statements in a statement, itself included. -/
def Statement.size : Statement → Nat
  | .compound _ children => statementCount children + 1
  | .assignment .. => 1
  | .call _ => 1

/-- The number of statements, those in compounds and the compounds themselves included. -/
def statementCount : List Statement → Nat
  | [] => 0
  | s :: rest => s.size + statementCount rest

end

@[simp] theorem statementCount_append (front back : List Statement) :
    statementCount (front ++ back) = statementCount front + statementCount back := by
  induction front with
  | nil => simp [statementCount]
  | cons s rest ih => simp [statementCount, ih, Nat.add_assoc]

/-! ## The greatest body of a block -/

section

variable (size : List Statement → Nat)

mutual

/-- The greatest size that the body of any one block has, of a block and those declared in it. -/
def Block.most : Block → Nat
  | .mk _ declarations _ body => max (size body) (mostOf declarations)

def mostOf : List Declaration → Nat
  | [] => 0
  | .variable _ :: rest => mostOf rest
  | .procedure _ _ _ block :: rest => max block.most (mostOf rest)

end

variable {size}

theorem most_le_mostOf {declarations : List Declaration} {i : Nat} {span : Span} {name : String}
    {params : List TypedName} {block : Block}
    (hi : declarations[i]? = some (.procedure span name params block)) :
    block.most size ≤ mostOf size declarations := by
  induction declarations generalizing i with
  | nil => simp at hi
  | cons d rest ih =>
      cases i with
      | zero =>
          simp only [List.getElem?_cons_zero, Option.some.injEq] at hi
          subst d
          exact Nat.le_max_left ..
      | succ i =>
          have hrest := ih hi
          cases d with
          | «variable» v => exact hrest
          | procedure => exact hrest.trans (Nat.le_max_right ..)

theorem Block.size_le_most {block inner : Block} {path : DeclarationPath}
    (h : block.at? path = some inner) : size inner.body ≤ block.most size := by
  induction path generalizing block with
  | nil =>
      obtain ⟨span, declarations, bodySpan, body⟩ := block
      cases h
      exact Nat.le_max_left ..
  | cons i path ih =>
      obtain ⟨span, declarations, bodySpan, body⟩ := block
      rw [Block.at?] at h
      split at h
      next _ _ _ nested hi =>
        exact (ih h).trans ((most_le_mostOf hi).trans (Nat.le_max_right ..))
      next => contradiction

mutual

theorem Block.exists_most : (block : Block) →
    ∃ path inner, block.at? path = some inner ∧ size inner.body = block.most size
  | .mk span declarations bodySpan body => by
    rcases Nat.le_total (mostOf size declarations) (size body) with hle | hle
    · exact ⟨[], _, rfl, (Nat.max_eq_left hle).symm⟩
    · rcases Nat.eq_zero_or_pos (mostOf size declarations) with hzero | hpos
      · refine ⟨[], _, rfl, ?_⟩
        rw [hzero, Nat.le_zero] at hle
        simp [Block.most, Block.body, hle, hzero]
      · obtain ⟨i, span', name, params, nested, path, inner, hi, hpath, hsize⟩ :=
          exists_mostOf declarations hpos
        refine ⟨i :: path, inner, ?_, hsize.trans (Nat.max_eq_right hle).symm⟩
        simp only [Block.at?, Block.declarations, hi, hpath]

theorem exists_mostOf : (declarations : List Declaration) → 0 < mostOf size declarations →
    ∃ (i : Nat) (span : Span) (name : String) (params : List TypedName) (block : Block)
      (path : DeclarationPath) (inner : Block),
      declarations[i]? = some (.procedure span name params block) ∧
      block.at? path = some inner ∧ size inner.body = mostOf size declarations
  | [], h => by
    rw [mostOf] at h
    contradiction
  | .variable v :: rest, h => by
    rw [mostOf] at h ⊢
    obtain ⟨i, found⟩ := exists_mostOf rest h
    exact ⟨i + 1, found⟩
  | .procedure span name params block :: rest, h => by
    rw [mostOf] at h ⊢
    rcases Nat.lt_or_ge (block.most size) (mostOf size rest) with hlt | hge
    · obtain ⟨i, found⟩ := exists_mostOf rest (Nat.lt_of_le_of_lt (Nat.zero_le _) hlt)
      rw [Nat.max_eq_right hlt.le]
      exact ⟨i + 1, found⟩
    · obtain ⟨path, inner, hpath, hsize⟩ := block.exists_most
      rw [Nat.max_eq_left hge]
      exact ⟨0, span, name, params, block, path, inner, rfl, hpath, hsize⟩

end

theorem Block.isGreatest_most (block : Block) :
    IsGreatest {n | ∃ path inner, block.at? path = some inner ∧ size inner.body = n}
      (block.most size) := by
  refine ⟨block.exists_most, ?_⟩
  rintro n ⟨path, inner, hpath, rfl⟩
  exact Block.size_le_most hpath

end

/-- What is executed at a path outside the program is no more than what is at one inside it. -/
theorem Program.size_bodyOf_le {size : List Statement → Nat} (hnil : size [] = 0) (p : Program)
    (path : DeclarationPath) : size (p.bodyOf path) ≤ p.block.most size := by
  rw [bodyOf]
  cases hpath : p.block.at? path with
  | none => simp [hnil]
  | some inner => exact Block.size_le_most hpath

/-- The greatest number of calls in the body of any one block. -/
def Block.mostCalls (block : Block) : Nat :=
  block.most callCount

/-- The greatest number of statements in the body of any one block. -/
def Block.mostStatements (block : Block) : Nat :=
  block.most statementCount

/-! ## Work that is left -/

/-- What the calls come to at most that a call leads to, itself included, when so many frames fit: a
frame costs a price, and a body enters so many more at most. -/
def callWork (degree price room : Nat) : Nat :=
  price * ∑ i ∈ Finset.range room, degree ^ i

theorem callWork_succ (degree price room : Nat) :
    callWork degree price (room + 1) = price + degree * callWork degree price room := by
  have hpowers : ∑ i ∈ Finset.range room, degree ^ (i + 1) =
      degree * ∑ i ∈ Finset.range room, degree ^ i := by
    rw [Finset.mul_sum]
    exact Finset.sum_congr rfl fun i _ => Nat.pow_succ'
  rw [callWork, callWork, Finset.sum_range_succ', hpowers, Nat.pow_zero]
  ring

/-- What steps and calls count for. -/
structure Price where
  step : Nat
  call : Nat

namespace Price

variable (price : Price) (p : Program)

/-- What a call counts for with the statements of the body that it enters and with its end, apart
from the calls in that body. -/
def frame : Nat :=
  price.step * (p.block.mostStatements + 1) + price.call

/-- What an activation has still to do at most, where so many frames fit above its own. -/
def activation (a : Activation) (room : Nat) : Nat :=
  price.step * (statementCount a.todo + a.call.elim 0 fun _ => 1) +
    callCount a.todo * callWork p.block.mostCalls (price.frame p) room

/-- What activations, innermost first, have still to do at most. -/
def activations (frames : Nat) : List Activation → Nat
  | [] => 0
  | a :: below => price.activation p a (frames - (below.length + 1)) + activations frames below

/-- What the body of a procedure comes to at most, with the end of its call. -/
theorem activation_entered_le (path : DeclarationPath) (call : Option (String × Span))
    (room : Nat) :
    price.activation p ⟨path, call, p.bodyOf path⟩ room + price.call ≤
      callWork p.block.mostCalls (price.frame p) (room + 1) := by
  have hstatements : statementCount (p.bodyOf path) ≤ p.block.mostStatements :=
    p.size_bodyOf_le rfl path
  have hcalls : callCount (p.bodyOf path) ≤ p.block.mostCalls := p.size_bodyOf_le rfl path
  have hanswer : (call.elim 0 fun _ => 1) ≤ 1 := by
    cases call with
    | none => exact Nat.zero_le 1
    | some _ => exact Nat.le_refl 1
  have hsteps := Nat.mul_le_mul_left price.step (Nat.add_le_add hstatements hanswer)
  have hwork := Nat.mul_le_mul_right (callWork p.block.mostCalls (price.frame p) room) hcalls
  have hframe : price.frame p = price.step * (p.block.mostStatements + 1) + price.call := rfl
  simp only [activation, callWork_succ]
  omega

end Price

namespace Configuration

/-- The number of calls whose start has been told. -/
def callsStarted (c : Configuration) : Nat :=
  c.machine.events.toList.countP Event.isCallStart

variable {p : Program} {limit : DepthLimit} {c c' : Configuration}

/-- A step does some of the work that is left. -/
theorem Step.work_le (price : Price) (hdepth : c.machine.stack.depth = c.activations.length)
    (h : Step p.block limit c c') :
    price.activations p limit.frames c'.activations + price.call * c'.callsStarted + price.step ≤
      price.activations p limit.frames c.activations + price.call * c.callsStarted := by
  cases h with
  | @leave m declaration name span below =>
      have hstarted : callsStarted ⟨m.leave name span, below⟩ =
          callsStarted ⟨m, ⟨declaration, some (name, span), []⟩ :: below⟩ := by
        simp [callsStarted, Machine.leave, Machine.emit, Event.isCallStart]
      simp only [hstarted, Price.activations, Price.activation, statementCount, callCount_nil,
        Option.elim_some]
      omega
  | @compound m declaration call span children rest below =>
      have hstarted : callsStarted ⟨m, ⟨declaration, call, children ++ rest⟩ :: below⟩ =
          callsStarted ⟨m, ⟨declaration, call, .compound span children :: rest⟩ :: below⟩ := rfl
      simp only [hstarted, Price.activations, Price.activation, statementCount, Statement.size,
        statementCount_append, callCount_append, callCount_compound, Nat.mul_add]
      omega
  | @assignment m m' declaration call span target value rest below hassign =>
      obtain ⟨v, symbol, place, -, -, rfl⟩ := Machine.assign_eq_ok hassign
      simp only [callsStarted, Price.activations, Price.activation, statementCount, Statement.size,
        callCount_assignment, Nat.mul_add]
      omega
  | @call m m' declaration call callee entered rest below henter =>
      obtain ⟨q, place, members, -, hroom, -, -, -, rfl⟩ := Call.enter_eq_ok henter
      obtain ⟨q', -, -, hevents⟩ := Call.enter_events henter
      simp only [List.length_cons] at hdepth
      -- The callee's frame takes one place of those that fit above the caller's.
      obtain ⟨room, hfits⟩ : ∃ room, limit.frames - (below.length + 1) = room + 1 :=
        ⟨limit.frames - (below.length + 1) - 1, by omega⟩
      have hless : limit.frames - (below.length + 1 + 1) = room := by omega
      have hbody := price.activation_entered_le p q.declaration (some (q.name, callee.span)) room
      simp only [Program.bodyOf] at hbody
      simp only [callsStarted, hevents, Array.toList_push, List.countP_append,
        List.countP_singleton, Event.isCallStart, if_true, Price.activations, List.length_cons,
        hless, hfits]
      simp only [Price.activation, statementCount, Statement.size, callCount_call,
        Nat.mul_add, Nat.add_mul] at hbody ⊢
      omega

end Configuration

namespace Program

/-- A configuration is reached from the start by so many steps. -/
inductive ReachesIn (p : Program) (limit : DepthLimit) : Nat → Configuration → Prop where
  | start : ReachesIn p limit 0 p.start
  | step {steps : Nat} {c c' : Configuration} : ReachesIn p limit steps c →
    c.step p.block limit = .next c' → ReachesIn p limit (steps + 1) c'

variable {p : Program} {limit : DepthLimit} {c : Configuration} {steps : Nat}

theorem ReachesIn.reaches (h : p.ReachesIn limit steps c) : p.Reaches limit c := by
  induction h with
  | start => exact .refl
  | step _ hstep ih => exact ih.tail hstep

theorem exists_reachesIn (h : p.Reaches limit c) : ∃ steps, p.ReachesIn limit steps c := by
  induction h with
  | refl => exact ⟨0, .start⟩
  | tail _ hstep ih =>
      obtain ⟨steps, hsteps⟩ := ih
      exact ⟨steps + 1, hsteps.step hstep⟩

/-- What has been done and what is left come to no more than what there was to do. -/
theorem ReachesIn.work_le (price : Price) (h : p.ReachesIn limit steps c) :
    price.activations p limit.frames c.activations + price.call * c.callsStarted +
      price.step * steps ≤ price.activations p limit.frames p.start.activations := by
  induction h with
  | start =>
      have hnone : p.start.callsStarted = 0 := rfl
      simp [hnone]
  | step hbefore hstep ih =>
      have hdepth := Configuration.depth_eq_of_reaches hbefore.reaches
      have hwork := (Configuration.step_of_eq_next hstep).work_le price hdepth
      rw [Nat.mul_succ]
      omega

theorem start_work_le (price : Price) (p : Program) (frames : Nat) :
    price.activations p frames p.start.activations + price.call ≤
      callWork p.block.mostCalls (price.frame p) (max 1 frames) := by
  have hdepth : max 1 frames = frames - 1 + 1 := by omega
  rw [hdepth]
  exact price.activation_entered_le p [] none (frames - 1)

theorem ReachesIn.steps_le (h : p.ReachesIn limit steps c) :
    steps ≤ (p.block.mostStatements + 1) *
      ∑ i ∈ Finset.range (max 1 limit.frames), p.block.mostCalls ^ i := by
  have hdone := h.work_le ⟨1, 0⟩
  have hall := start_work_le ⟨1, 0⟩ p limit.frames
  simp only [callWork, Price.frame, Nat.one_mul, Nat.add_zero] at hdone hall
  omega

theorem ReachesIn.callsStarted_le (h : p.ReachesIn limit steps c) :
    c.callsStarted ≤ ∑ i ∈ Finset.Ico 1 (max 1 limit.frames), p.block.mostCalls ^ i := by
  have hdone := h.work_le ⟨0, 1⟩
  have hall := start_work_le ⟨0, 1⟩ p limit.frames
  -- The first power counts for the program itself.
  have hfirst := Finset.sum_range_eq_add_Ico (fun i => p.block.mostCalls ^ i)
    (n := max 1 limit.frames) (by omega)
  simp only [callWork, Price.frame, Nat.one_mul, Nat.zero_mul, Nat.zero_add, Nat.pow_zero]
    at hdone hall hfirst
  omega

/-- Whatever recursion a program contains, its run ends, after a number of steps that the limit and
the size of its blocks bound.  It enters at most as many calls as a tree has nodes below its root in
which every node has as many children as the body with the most calls has calls, and which is as
high as the limit lets the stack grow. -/
theorem run_ends_within_limit (p : Program) {limit : DepthLimit} {n : Int}
    (hn : limit.number.toInt? = some n) :
    IsGreatest {k | ∃ path block, p.block.at? path = some block ∧ callCount block.body = k}
        p.block.mostCalls ∧
      IsGreatest {k | ∃ path block, p.block.at? path = some block ∧ statementCount block.body = k}
        p.block.mostStatements ∧
      (∀ steps c, p.ReachesIn limit steps c → steps ≤ (p.block.mostStatements + 1) *
        ∑ i ∈ Finset.range (max 1 n).toNat, p.block.mostCalls ^ i) ∧
      (∃ steps c, p.ReachesIn limit steps c ∧ c.EndsWith p.block limit (p.run limit).error ∧
        p.run limit = c.result p (p.run limit).error) ∧
      (p.run limit).events.toList.countP Event.isCallStart ≤
        ∑ i ∈ Finset.Ico 1 (max 1 n).toNat, p.block.mostCalls ^ i := by
  have hdepth : (max 1 n).toNat = max 1 limit.frames := by
    rw [DepthLimit.frames_of_toInt? hn]
    omega
  obtain ⟨final, hfinal, -, hend, hresult⟩ := p.run_eq_result limit
  obtain ⟨steps, hsteps⟩ := exists_reachesIn hfinal
  have hcalls : (p.run limit).events.toList.countP Event.isCallStart = final.callsStarted := by
    rw [events_of_result hresult, List.countP_append]
    simp [Configuration.callsStarted, Event.isCallStart, RunResult.ending]
  rw [hdepth]
  refine ⟨p.block.isGreatest_most, p.block.isGreatest_most, ?_,
    ⟨steps, final, hsteps, hend, hresult⟩, hcalls ▸ hsteps.callsStarted_le⟩
  intro steps c h
  exact h.steps_le

/-- Two bodies of two calls each, over one without calls, reach the bound on the calls. -/
theorem run_of_two_calls_twice_ends :
    ∃ p, parse ("program p; procedure q; begin end; procedure r; begin q(); begin q() end " ++
        "end; begin r(); r() end.").toList "p.pas" false = .ok p ∧
      (DepthLimit.ofInt 3).number.toInt? = some 3 ∧ p.analyze.program.block.mostCalls = 2 ∧
      (p.analyze.program.run (.ofInt 3)).events.toList.countP Event.isCallStart = 6 ∧
      (p.analyze.program.run (.ofInt 3)).events.toList.countP Event.isCallStart ≤
        ∑ i ∈ Finset.Ico 1 (max 1 (3 : Int)).toNat, p.analyze.program.block.mostCalls ^ i := by
  have hruns : (parse ("program p; procedure q; begin end; procedure r; begin q(); begin q() end " ++
      "end; begin r(); r() end.").toList "p.pas" false).toOption.any (fun p =>
        p.analyze.program.block.mostCalls = 2 &&
        (p.analyze.program.run (.ofInt 3)).events.toList.countP Event.isCallStart = 6) = true := by
    decide +kernel
  have hlimit : (DepthLimit.ofInt 3).number.toInt? = some 3 := by decide +kernel
  obtain ⟨p, hp, htest⟩ := parse_of_any hruns
  simp only [Bool.and_eq_true, decide_eq_true_eq] at htest
  exact ⟨p, hp, hlimit, htest.1, htest.2,
    (run_ends_within_limit p.analyze.program hlimit).2.2.2.2⟩

end Program

end NestedPascal
