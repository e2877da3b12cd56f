import Mathlib.Data.Prod.Lex
import NestedPascal.Span

/-!
# Spans in order

Spans are compared by where they start and where they stop, lines first and then columns.  A node of
a tree holds its children if they lie in it, one after another, none of them empty.
-/

namespace NestedPascal

namespace Span

/-- The line and the column that a span starts at; lines come first in the order of places. -/
def first (s : Span) : Nat ×ₗ Nat :=
  toLex (s.startLine, s.startColumn)

/-- The place just after a span. -/
def stop (s : Span) : Nat ×ₗ Nat :=
  toLex (s.endLine, s.endColumn)

def Nonempty (s : Span) : Prop :=
  s.first < s.stop

def Within (inner outer : Span) : Prop :=
  outer.first ≤ inner.first ∧ inner.stop ≤ outer.stop

/-- One span stops before another starts, or just there. -/
def Before (s t : Span) : Prop :=
  s.stop ≤ t.first

/-- Children that are not empty lie in a span, one after another. -/
structure Holds (parent : Span) (children : List Span) : Prop where
  nonempty : ∀ c ∈ children, c.Nonempty
  within : ∀ c ∈ children, c.Within parent
  ordered : children.Pairwise Before

@[simp] theorem first_to (s t : Span) : (s.to t).first = s.first := rfl

@[simp] theorem stop_to (s t : Span) : (s.to t).stop = t.stop := rfl

end Span

/-! ## Spans between two places -/

/-- Spans that are not empty come one after another between two places. -/
def SpansAlong (lo : Nat ×ₗ Nat) : List Span → Nat ×ₗ Nat → Prop
  | [], hi => lo ≤ hi
  | s :: rest, hi => lo ≤ s.first ∧ s.Nonempty ∧ SpansAlong s.stop rest hi

namespace SpansAlong

variable {lo lo' mid hi hi' : Nat ×ₗ Nat} {s : Span} {spans front back : List Span}

theorem le (h : SpansAlong lo spans hi) : lo ≤ hi := by
  induction spans generalizing lo with
  | nil => exact h
  | cons s rest ih =>
      obtain ⟨hlo, hne, hrest⟩ := h
      exact hlo.trans (hne.le.trans (ih hrest))

theorem of_le (h : SpansAlong lo spans hi) (hlo : lo' ≤ lo) : SpansAlong lo' spans hi := by
  cases spans with
  | nil => exact hlo.trans h
  | cons s rest => exact ⟨hlo.trans h.1, h.2⟩

theorem trans_le (h : SpansAlong lo spans hi) (hhi : hi ≤ hi') : SpansAlong lo spans hi' := by
  induction spans generalizing lo with
  | nil => exact h.trans hhi
  | cons s rest ih => exact ⟨h.1, h.2.1, ih h.2.2⟩

/-- What comes after the first span lies along after it, and so along from where that began. -/
theorem tail (h : SpansAlong lo (s :: spans) hi) : SpansAlong lo spans hi :=
  h.2.2.of_le (h.1.trans h.2.1.le)

theorem append_iff :
    SpansAlong lo (front ++ back) hi ↔ ∃ mid, SpansAlong lo front mid ∧ SpansAlong mid back hi := by
  induction front generalizing lo with
  | nil =>
      constructor
      · intro h
        exact ⟨lo, le_refl lo, h⟩
      · rintro ⟨mid, hle, h⟩
        exact h.of_le hle
  | cons s front ih =>
      constructor
      · rintro ⟨hlo, hne, h⟩
        obtain ⟨mid, hfront, hback⟩ := ih.mp h
        exact ⟨mid, ⟨hlo, hne, hfront⟩, hback⟩
      · rintro ⟨mid, ⟨hlo, hne, hfront⟩, hback⟩
        exact ⟨hlo, hne, ih.mpr ⟨mid, hfront, hback⟩⟩

theorem append (hfront : SpansAlong lo front mid) (hback : SpansAlong mid back hi) :
    SpansAlong lo (front ++ back) hi :=
  append_iff.mpr ⟨mid, hfront, hback⟩

theorem member (h : SpansAlong lo spans hi) (hs : s ∈ spans) :
    lo ≤ s.first ∧ s.Nonempty ∧ s.stop ≤ hi := by
  induction spans generalizing lo with
  | nil => contradiction
  | cons t rest ih =>
      rcases List.mem_cons.mp hs with rfl | hs
      · exact ⟨h.1, h.2.1, h.2.2.le⟩
      · obtain ⟨hlo, hne, hhi⟩ := ih h.tail hs
        exact ⟨hlo, hne, hhi⟩

theorem ordered (h : SpansAlong lo spans hi) : spans.Pairwise Span.Before := by
  induction spans generalizing lo with
  | nil => exact .nil
  | cons s rest ih =>
      obtain ⟨-, -, hrest⟩ := h
      exact List.pairwise_cons.mpr ⟨fun t ht => (hrest.member ht).1, ih hrest⟩

/-- Spans that come one after another within a span are held by it. -/
theorem holds {parent : Span} (h : SpansAlong parent.first spans parent.stop) :
    parent.Holds spans where
  nonempty _ hs := (h.member hs).2.1
  within _ hs := ⟨(h.member hs).1, (h.member hs).2.2⟩
  ordered := h.ordered

theorem singleton_iff : SpansAlong lo [s] hi ↔ lo ≤ s.first ∧ s.Nonempty ∧ s.stop ≤ hi := Iff.rfl

end SpansAlong

end NestedPascal
