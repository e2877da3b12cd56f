import Mathlib.Data.Seq.Basic
import NestedPascal.Proofs.Run.Events
import NestedPascal.Proofs.Run.StaticLinks

/-!
# The unfolding of calls

What the calls of a body come to can be told from the program alone.  For each call in the text, in
order, the unfolding tells that it starts, then the unfolding of the body it calls, one deeper, and
then that it ends.  It goes on for ever where a body comes back to itself.
-/

namespace NestedPascal

/-- A call in a text: the procedure that it denotes and its place. -/
structure CallSite where
  procedure : ProcedureSymbol
  span : Span

def Statement.callSite? : Statement → Option CallSite
  | .call c => c.symbol.map (⟨·, c.span⟩)
  | _ => none

/-- The calls among statements in the order of the text, compounds taken apart. -/
def callSites (ss : List Statement) : List CallSite :=
  (simpleStatements ss).filterMap Statement.callSite?

theorem simpleStatements_append (front back : List Statement) :
    simpleStatements (front ++ back) = simpleStatements front ++ simpleStatements back := by
  induction front with
  | nil => rfl
  | cons s rest ih => simp [simpleStatements, ih]

@[simp] theorem callSites_nil : callSites [] = [] := rfl

@[simp] theorem callSites_append (front back : List Statement) :
    callSites (front ++ back) = callSites front ++ callSites back := by
  simp [callSites, simpleStatements_append]

@[simp] theorem callSites_compound (span : Span) (children rest : List Statement) :
    callSites (.compound span children :: rest) = callSites children ++ callSites rest := by
  simp [callSites, simpleStatements, Statement.simple]

@[simp] theorem callSites_assignment (span : Span) (target : VariableRef) (value : Expr)
    (rest : List Statement) : callSites (.assignment span target value :: rest) = callSites rest := rfl

theorem callSites_call {c : Call} {q : ProcedureSymbol} (hsymbol : c.symbol = some q)
    (rest : List Statement) : callSites (.call c :: rest) = ⟨q, c.span⟩ :: callSites rest := by
  simp [callSites, simpleStatements, Statement.simple, Statement.callSite?, hsymbol]

/-- The statements of the block that a declaration has. -/
def Program.bodyOf (p : Program) (declaration : DeclarationPath) : List Statement :=
  ((p.block.at? declaration).map Block.body).getD []

/-! ## Unfolding -/

/-- What an unfolding has still to tell: a call out of a body that runs at a depth, or the end of a
call. -/
inductive Task where
  | call (site : CallSite) (depth : Nat)
  | finish (name : String) (span : Span) (depth : Nat)

def bodyTasks (body : List Statement) (depth : Nat) : List Task :=
  (callSites body).map (.call · depth)

namespace Program

/-- Tells one event, if there is one to tell. -/
def tell (p : Program) : List Task → Option (Event × List Task)
  | [] => none
  | .call site depth :: rest =>
    some (⟨.callStart site.procedure.name (depth + 1), site.span⟩,
      bodyTasks (p.bodyOf site.procedure.declaration) (depth + 1) ++
        .finish site.procedure.name site.span (depth + 1) :: rest)
  | .finish name span depth :: rest => some (⟨.callEnd name depth, span⟩, rest)

def unfold (p : Program) (tasks : List Task) : Stream'.Seq Event :=
  .corec p.tell tasks

/-- The events of the calls of a body that runs at a depth, and of those that they lead to. -/
def unfolding (p : Program) (body : List Statement) (depth : Nat) : Stream'.Seq Event :=
  p.unfold (bodyTasks body depth)

variable (p : Program)

@[simp] theorem unfold_nil : p.unfold [] = .nil :=
  Stream'.Seq.corec_nil p.tell [] rfl

theorem unfold_of_tell {tasks rest : List Task} {e : Event} (h : p.tell tasks = some (e, rest)) :
    p.unfold tasks = .cons e (p.unfold rest) :=
  Stream'.Seq.corec_cons h

theorem tell_append {tasks rest : List Task} {e : Event} (h : p.tell tasks = some (e, rest))
    (more : List Task) : p.tell (tasks ++ more) = some (e, rest ++ more) := by
  unfold tell at h ⊢
  split at h
  · contradiction
  · cases h
    simp
  · cases h
    simp

theorem tell_eq_none {tasks : List Task} (h : p.tell tasks = none) : tasks = [] := by
  unfold tell at h
  split at h
  · rfl
  · contradiction
  · contradiction

theorem unfold_append (front back : List Task) :
    p.unfold (front ++ back) = (p.unfold front).append (p.unfold back) := by
  apply Stream'.Seq.eq_of_bisim_strong
    (fun s t => ∃ front, s = p.unfold (front ++ back) ∧ t = (p.unfold front).append (p.unfold back))
  · exact ⟨front, rfl, rfl⟩
  · rintro s t ⟨front, rfl, rfl⟩
    cases htell : p.tell front with
    | none =>
        obtain rfl := p.tell_eq_none htell
        simp
    | some told =>
        obtain ⟨e, rest⟩ := told
        right
        refine ⟨e, _, _, p.unfold_of_tell (p.tell_append htell back), ?_, rest, rfl, rfl⟩
        rw [p.unfold_of_tell htell, Stream'.Seq.cons_append]

/-! The unfolding by the statements of a body. -/

variable {p}

@[simp] theorem unfolding_nil (depth : Nat) : p.unfolding [] depth = .nil :=
  p.unfold_nil

theorem unfolding_compound (span : Span) (children rest : List Statement) (depth : Nat) :
    p.unfolding (.compound span children :: rest) depth = p.unfolding (children ++ rest) depth := by
  simp [unfolding, bodyTasks]

theorem unfolding_assignment (span : Span) (target : VariableRef) (value : Expr)
    (rest : List Statement) (depth : Nat) :
    p.unfolding (.assignment span target value :: rest) depth = p.unfolding rest depth :=
  rfl

/-- A call starts, comes to what the body of the callee comes to, and ends. -/
theorem unfolding_call {c : Call} {q : ProcedureSymbol} (hsymbol : c.symbol = some q)
    (rest : List Statement) (depth : Nat) :
    p.unfolding (.call c :: rest) depth =
      .cons ⟨.callStart q.name (depth + 1), c.span⟩
        ((p.unfolding (p.bodyOf q.declaration) (depth + 1)).append
          (.cons ⟨.callEnd q.name (depth + 1), c.span⟩ (p.unfolding rest depth))) := by
  have hend : p.unfold (.finish q.name c.span (depth + 1) :: bodyTasks rest depth) =
      .cons ⟨.callEnd q.name (depth + 1), c.span⟩ (p.unfolding rest depth) :=
    p.unfold_of_tell rfl
  have htell : p.tell (bodyTasks (.call c :: rest) depth) =
      some (⟨.callStart q.name (depth + 1), c.span⟩,
        bodyTasks (p.bodyOf q.declaration) (depth + 1) ++
          .finish q.name c.span (depth + 1) :: bodyTasks rest depth) := by
    simp [bodyTasks, callSites_call hsymbol, tell]
  rw [unfolding, p.unfold_of_tell htell, unfold_append, hend]
  rfl

end Program

/-! ## What a run has still to tell -/

section

variable {p : Program} {limit : DepthLimit} {c c' : Configuration}

/-- What activations, innermost first, have still to tell: what they have still to do comes to, then
that their own call ends. -/
def activationsUnfolding (p : Program) : List Activation → Stream'.Seq Event
  | [] => .nil
  | a :: below =>
    (p.unfolding a.todo (below.length + 1)).append
      ((Stream'.Seq.ofList
        (a.call.map fun (name, span) => ⟨.callEnd name (below.length + 1), span⟩).toList).append
          (activationsUnfolding p below))

def Configuration.unfolding (p : Program) (c : Configuration) : Stream'.Seq Event :=
  activationsUnfolding p c.activations

namespace Configuration

theorem Consistent.depth_eq (h : c.Consistent p) :
    c.machine.stack.depth = c.activations.length := by
  simp [h.linked.depth, declarations]

/-- A step tells what comes next in the unfolding, or nothing. -/
theorem Step.unfolding (hdepth : c.machine.stack.depth = c.activations.length)
    (hstep : Step p.block limit c c') :
    ∃ told, c'.machine.events.toList = c.machine.events.toList ++ told ∧
      c.unfolding p = (Stream'.Seq.ofList told).append (c'.unfolding p) := by
  cases hstep with
  | @leave m declaration name span below =>
      simp only [List.length_cons] at hdepth
      refine ⟨[⟨.callEnd name m.stack.depth, span⟩], by simp [Machine.leave, Machine.emit], ?_⟩
      simp [Configuration.unfolding, activationsUnfolding, hdepth]
  | compound =>
      refine ⟨[], by simp, ?_⟩
      simp [Configuration.unfolding, activationsUnfolding, Program.unfolding_compound]
  | assignment hassign =>
      obtain ⟨v, symbol, place, -, -, rfl⟩ := Machine.assign_eq_ok hassign
      refine ⟨[], by simp, ?_⟩
      simp [Configuration.unfolding, activationsUnfolding, Program.unfolding_assignment]
  | @call m m' declaration call callee entered rest below henter =>
      simp only [List.length_cons] at hdepth
      obtain ⟨q, hsymbol, -, hevents⟩ := Call.enter_events henter
      obtain ⟨q', k, members, hsymbol', -, -, -, -, rfl⟩ := Call.enter_eq_ok henter
      rw [hsymbol, Option.some.injEq] at hsymbol'
      subst q'
      refine ⟨[⟨.callStart q.name (m.stack.depth + 1), callee.span⟩], by simp [hevents], ?_⟩
      simp [Configuration.unfolding, activationsUnfolding, Program.unfolding_call hsymbol, hdepth,
        Program.bodyOf, Stream'.Seq.append_assoc]

theorem Reaches.unfolding (hp : p.Annotated) (hc : p.Reaches limit c) :
    ∃ told, c.machine.events.toList = ⟨.runStart p.name p.file, p.span⟩ :: told ∧
      p.unfolding p.block.body 1 = (Stream'.Seq.ofList told).append (c.unfolding p) := by
  induction hc with
  | refl =>
      refine ⟨[], rfl, ?_⟩
      simp [Configuration.unfolding, Program.start, activationsUnfolding]
  | tail hc hstep ih =>
      obtain ⟨told, hevents, hunfolding⟩ := ih
      obtain ⟨more, hmore, hrest⟩ := Step.unfolding (p := p)
        (consistent_of_reaches hp hc).depth_eq (step_of_eq_next hstep)
      refine ⟨told ++ more, by simp [hmore, hevents], ?_⟩
      rw [hunfolding, hrest, Stream'.Seq.ofList_append, Stream'.Seq.append_assoc]

/-- Nothing is left to tell of a run that succeeded. -/
theorem EndsWith.unfolding (h : c.EndsWith p.block limit none) : c.unfolding p = .nil := by
  obtain ⟨hfinished, hlength⟩ := h
  obtain ⟨m, activations⟩ := c
  obtain ⟨⟨declaration, call, todo⟩, rfl⟩ := List.length_eq_one_iff.mp hlength
  unfold step at hfinished
  split at hfinished
  next hactivations => contradiction
  next a below hactivations =>
    cases hactivations
    split at hfinished
    next htodo =>
      split at hfinished
      next hcall =>
        simp only at htodo hcall
        simp [Configuration.unfolding, activationsUnfolding, htodo, hcall]
      next => contradiction
    next => contradiction
    next => split at hfinished <;> contradiction
    next => split at hfinished <;> contradiction

end Configuration

end

namespace Program

variable {p : Program}

/-- The calls that a run tells of are those of the unfolding, as far as it gets. -/
theorem unfolding_eq_append (hp : p.Annotated) (limit : DepthLimit) :
    ∃ rest, p.unfolding p.block.body 1 =
        (Stream'.Seq.ofList (p.run limit).callEvents).append rest ∧
      ((p.run limit).error = none → rest = .nil) := by
  obtain ⟨c, hc, -, hend, hresult⟩ := p.run_eq_result limit
  obtain ⟨told, hevents, hunfolding⟩ := Configuration.Reaches.unfolding hp hc
  refine ⟨c.unfolding p, ?_, ?_⟩
  · rw [callEvents_of_result hresult, hevents]
    exact hunfolding
  · intro hnone
    rw [hnone] at hend
    exact hend.unfolding

end Program

end NestedPascal
