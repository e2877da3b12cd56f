import Mathlib.Data.Nat.Count
import Mathlib.Data.Prod.Lex
import Mathlib.Order.Monotone.Basic
import NestedPascal.Text.Glyph

/-!
# Lines of a text

A line ends just after a line feed, or just after a carriage return that no line feed follows, so
that both together end one line.  The line of an offset counts the ends up to it, and its column
what stands between the last of them and it.  Places so told are in the order of their offsets.
-/

namespace NestedPascal

def lineFeed : Nat := '\n'.toNat

def carriageReturn : Nat := '\r'.toNat

/-- A line ends just before the offset. -/
def EndsLine (units : List Nat) : Nat → Prop
  | 0 => False
  | k + 1 => units[k]? = some lineFeed ∨
      units[k]? = some carriageReturn ∧ units[k + 1]? ≠ some lineFeed

instance (units : List Nat) : DecidablePred (EndsLine units)
  | 0 => inferInstanceAs (Decidable False)
  | _ + 1 => inferInstanceAs (Decidable (_ ∨ _ ∧ _))

/-- One more than the number of lines that end at an offset or before it. -/
def lineOf (units : List Nat) (offset : Nat) : Nat :=
  1 + Nat.count (EndsLine units) (offset + 1)

/-- One more than the number of units between the last line end, or the start, and an offset. -/
def columnOf (units : List Nat) (offset : Nat) : Nat :=
  1 + (offset - Nat.findGreatest (EndsLine units) offset)

/-- The line and the column of an offset; lines come first in the order of places. -/
def placeOf (units : List Nat) (offset : Nat) : Nat ×ₗ Nat :=
  toLex (lineOf units offset, columnOf units offset)

section

variable {units : List Nat} {offset : Nat}

theorem lineOf_succ_of_endsLine (h : EndsLine units (offset + 1)) :
    lineOf units (offset + 1) = lineOf units offset + 1 := by
  simp only [lineOf, Nat.count_succ _ (offset + 1), if_pos h, Nat.add_assoc]

theorem lineOf_succ_of_not (h : ¬ EndsLine units (offset + 1)) :
    lineOf units (offset + 1) = lineOf units offset := by
  simp only [lineOf, Nat.count_succ _ (offset + 1), if_neg h, Nat.add_zero]

theorem columnOf_succ_of_endsLine (h : EndsLine units (offset + 1)) :
    columnOf units (offset + 1) = 1 := by
  simp only [columnOf, Nat.findGreatest_succ, if_pos h, Nat.sub_self]

theorem columnOf_succ_of_not (h : ¬ EndsLine units (offset + 1)) :
    columnOf units (offset + 1) = columnOf units offset + 1 := by
  have hle := Nat.findGreatest_le (P := EndsLine units) offset
  simp only [columnOf, Nat.findGreatest_succ, if_neg h]
  omega

theorem placeOf_lt_succ (units : List Nat) (offset : Nat) :
    placeOf units offset < placeOf units (offset + 1) := by
  rw [placeOf, placeOf, Prod.Lex.toLex_lt_toLex]
  by_cases h : EndsLine units (offset + 1)
  · left
    rw [lineOf_succ_of_endsLine h]
    exact Nat.lt_succ_self _
  · right
    rw [lineOf_succ_of_not h, columnOf_succ_of_not h]
    exact ⟨rfl, Nat.lt_succ_self _⟩

/-- Places are in the order of their offsets. -/
theorem placeOf_strictMono (units : List Nat) : StrictMono (placeOf units) :=
  strictMono_nat_of_lt_succ (placeOf_lt_succ units)

theorem drop_succ_of_drop {u : Nat} {rest : List Nat} (h : units.drop offset = u :: rest) :
    units.drop (offset + 1) = rest := by
  rw [← List.tail_drop, h, List.tail_cons]

theorem endsLine_succ_iff {u : Nat} {rest : List Nat} (h : units.drop offset = u :: rest) :
    EndsLine units (offset + 1) ↔
      u = lineFeed ∨ u = carriageReturn ∧ rest.head? ≠ some lineFeed := by
  have hunit : units[offset]? = some u := by
    rw [← List.head?_drop, h, List.head?_cons]
  have hnext : units[offset + 1]? = rest.head? := by
    rw [← List.head?_drop, drop_succ_of_drop h]
  simp only [EndsLine, hunit, hnext, Option.some.injEq]

end

/-! ## Texts that part a line end -/

/-- A line feed is parted from the carriage return before it. -/
def PartsLineEnd (text rest : List Char) : Prop :=
  ∃ before after, text = before ++ ['\r'] ∧ rest = '\n' :: after

theorem PartsLineEnd.cons {c : Char} {text rest : List Char} (h : PartsLineEnd text rest) :
    PartsLineEnd (c :: text) rest := by
  obtain ⟨before, after, rfl, rfl⟩ := h
  exact ⟨c :: before, after, rfl, rfl⟩

theorem head?_codeUnits_ne_lineFeed {cs : List Char} (h : ∀ rest, cs ≠ '\n' :: rest) :
    (codeUnits cs).head? ≠ some lineFeed := by
  cases cs with
  | nil => simp [codeUnits]
  | cons c rest =>
      have hc : c ≠ '\n' := fun hc => h rest (hc ▸ rfl)
      by_cases hbasic : c.toNat < 0x10000
      · rw [codeUnits_of_basic rest hbasic, List.head?_cons, ne_eq, Option.some.injEq, lineFeed,
          Char.toNat_inj]
        exact hc
      · have hline : lineFeed = 10 := rfl
        rw [codeUnits_of_beyond rest hbasic, List.head?_cons, ne_eq, Option.some.injEq]
        omega

end NestedPascal
