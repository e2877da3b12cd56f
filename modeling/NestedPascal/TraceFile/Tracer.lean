import NestedPascal.TraceFile.Line

/-!
# Tracers

A tracer takes events as they happen, if a trace is kept, and reads the clock for each.  It may refuse
one, which ends what was about to happen.
-/

namespace NestedPascal

structure Tracer (m : Type → Type) where
  clock : m Time.Instant
  /-- Takes an event, or gives the message of the error that came up. -/
  sink? : Option (TimedEvent → m (Except String Unit))

/-- Tells an event, and at the end of a run how long that took. -/
def Tracer.tell {m : Type → Type} [Monad m] (t : Tracer m) (e : Event)
    (duration : Time.Duration := .zero) : ExceptT String m Unit :=
  match t.sink? with
  | none => pure ()
  | some sink => do
    let now ← t.clock
    ExceptT.mk (sink ⟨e, now, duration⟩)

end NestedPascal
