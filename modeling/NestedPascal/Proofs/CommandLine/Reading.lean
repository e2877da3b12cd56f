import NestedPascal.CommandLine.World

/-!
# What commands read

Before a command does anything it reads its source and the configuration.  What it reads depends on
the files only, and reading changes nothing.
-/

namespace NestedPascal

/-- What the computation comes to depends on the files only, and it leaves the world as it is. -/
def ReadsFiles (x : StateM World α) : Prop :=
  ∀ w, x.run w = ((x.run (.ofFiles w.files)).1, w)

namespace ReadsFiles

variable {x : StateM World α} {f : α → StateM World β}

theorem pure (a : α) : ReadsFiles (Pure.pure a : StateM World α) :=
  fun _ => rfl

theorem bind (hx : ReadsFiles x) (hf : ∀ a, ReadsFiles (f a)) : ReadsFiles (x >>= f) := by
  intro w
  have hrun (w : World) : (x >>= f).run w = (f (x.run w).1).run (x.run w).2 := rfl
  rw [hrun, hrun, hx w, hf _ w, hx (.ofFiles w.files)]

/-- What comes after reading starts in the same world. -/
theorem run_bind (hx : ReadsFiles x) (t : FileTree) :
    (x >>= f).run (.ofFiles t) = (f (x.run (.ofFiles t)).1).run (.ofFiles t) := by
  change (f (x.run (.ofFiles t)).1).run (x.run (.ofFiles t)).2 = _
  rw [hx (.ofFiles t)]

end ReadsFiles

namespace Surroundings

/-- The source in a file, where a single dash stands for the standard input. -/
def source (around : Surroundings) (t : FileTree) (file : String) :
    Except FileError (List UInt8) :=
  ((around.host.readSource file).run (.ofFiles t)).1

/-- The limit on the depth of calls for a run. -/
def callDepth (around : Surroundings) (t : FileTree) (limit : Option DepthLimit) :
    Except ConfigError DepthLimit :=
  ((around.host.callDepth limit).run (.ofFiles t)).1

theorem readsFiles_readSource (around : Surroundings) (file : String) :
    ReadsFiles (around.host.readSource file) := by
  rw [Host.readSource]
  split
  next => exact .bind (.pure _) fun _ => .pure _
  next => exact fun _ => rfl

theorem readsFiles_configFile (around : Surroundings) (path : String) :
    ReadsFiles (around.host.configFile path) := by
  refine .bind (fun _ => rfl) fun present => ?_
  split
  next =>
    refine .bind (fun _ => rfl) fun content => ?_
    split <;> exact .pure _
  next => exact .pure _

theorem readsFiles_resolveConfig (around : Surroundings) : ReadsFiles around.host.resolveConfig :=
  .bind (around.readsFiles_configFile _) fun _ =>
    .bind (around.readsFiles_configFile _) fun _ => .pure _

theorem readsFiles_callDepth (around : Surroundings) (limit : Option DepthLimit) :
    ReadsFiles (around.host.callDepth limit) := by
  cases limit with
  | some n => exact .pure _
  | none => exact .bind around.readsFiles_resolveConfig fun _ => .pure _

theorem perform_check (around : Surroundings) (t : FileTree) (file : String)
    (pretty detailed : Bool) :
    around.perform t (.check file pretty detailed) =
      (match Program.load file (around.source t file) pretty detailed with
        | .error reply => reply
        | .ok p => p.checkReply pretty, .ofFiles t) := by
  rw [perform, Host.perform, (around.readsFiles_readSource file).run_bind, ← source]
  cases Program.load file (around.source t file) pretty detailed <;> rfl

/-- A run of what was read, under the limit that was read. -/
theorem perform_run {around : Surroundings} {t : FileTree} {limit : Option DepthLimit}
    {depth : DepthLimit} (hdepth : around.callDepth t limit = .ok depth) (trace : Option String)
    (file : String) (pretty detailed : Bool) :
    around.perform t (.run file trace limit pretty detailed) =
      match Program.load file (around.source t file) pretty detailed with
      | .error reply => (reply, .ofFiles t)
      | .ok p => (around.host.runProgram p trace depth pretty).run (.ofFiles t) := by
  rw [perform, Host.perform, (around.readsFiles_readSource file).run_bind, ← source]
  cases Program.load file (around.source t file) pretty detailed with
  | error reply => rfl
  | ok p =>
      change ((around.host.callDepth limit >>= _).run (.ofFiles t) : Id _) = _
      rw [(around.readsFiles_callDepth limit).run_bind, ← callDepth, hdepth]

end Surroundings

end NestedPascal
