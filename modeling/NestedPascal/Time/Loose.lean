import NestedPascal.Time.Fields

/-!
# The loose form of a time

Numbers, words and marks come in any order, and each token finds its field by what stands next to it
and by what is known already: a number before a colon belongs to the time of day, one behind a sign
to the zone, any other to the date.  Words that mean nothing may only stand before the first number.
-/

namespace NestedPascal.Time

namespace Fields

/-- Whether a number can go on the time of day. -/
def clockExpects (f : Fields) (n : Nat) : Bool :=
  match f.clock.length with
  | 1 | 2 => n ≤ 59
  | 3 => n ≤ 999
  | _ => false

/-- Puts the last number to the time of day; what is left of it is zero. -/
def closeClock (f : Fields) (n : Nat) : Fields :=
  { f with clock := (f.clock ++ [n, 0, 0, 0]).take 4 }

end Fields

namespace Loose

def dropToken (t : Token) : List Token → List Token
  | [] => []
  | t' :: rest => if t' = t then rest else t' :: rest

theorem length_dropToken (t : Token) (rest : List Token) :
    (dropToken t rest).length ≤ rest.length := by
  cases rest with
  | nil => exact Nat.le_refl _
  | cons t' rest =>
    simp only [dropToken, List.length_cons]
    split <;> simp

/-- Whether the time of day may end before the given tokens. -/
def endsClock : List Token → Bool
  | [] | .blank :: _ | .word .zulu :: _ | .sign _ :: _ => true
  | _ => false

def startsWithNumber : List Token → Bool
  | .number .. :: _ => true
  | _ => false

/-- The fields after a token, and the tokens that are left of those behind it. -/
structure Step (bound : Nat) where
  fields : Fields
  rest : List Token
  bounded : rest.length ≤ bound

/-- A number that no mark follows. -/
def plainNumber? (f : Fields) (n : Nat) (rest : List Token) : Option (Step rest.length) :=
  match f.zone.filter (·.expects n) with
  | some z => some ⟨{ f with zone := some { z with minutes := some n } }, rest, Nat.le_refl _⟩
  | none =>
    if f.clockExpects n then
      if endsClock rest then some ⟨f.closeClock n, rest, Nat.le_refl _⟩ else none
    else if f.date.length < 3 then
      some ⟨{ f with date := f.date ++ [(n : Int)] }, dropToken (.sign true) rest,
        length_dropToken _ _⟩
    else none

/-- A number before the given tokens. -/
def number? (f : Fields) (n : Nat) (rest : List Token) : Option (Step rest.length) :=
  match rest with
  | .colon :: .colon :: rest =>
    if f.clock.isEmpty then some ⟨{ f with clock := [n, 0] }, rest, by grind⟩ else none
  | .colon :: rest =>
    if f.clock.length < 4 then
      some ⟨{ f with clock := f.clock ++ [n] }, dropToken .point rest,
        Nat.le_succ_of_le (length_dropToken _ _)⟩
    else none
  | .point :: rest =>
    if f.clockExpects n then
      match rest with
      | .number value length :: rest =>
        let seconds := { f with clock := f.clock ++ [n] }
        some ⟨seconds.closeClock (milliseconds value length), rest, by grind⟩
      | _ => none
    else
      (plainNumber? f n rest).map fun s => ⟨s.fields, s.rest, Nat.le_succ_of_le s.bounded⟩
  | rest => plainNumber? f n rest

/-- A word before the given tokens. -/
def word? (f : Fields) (numberSeen : Bool) (w : Word) (rest : List Token) :
    Option (Step rest.length) :=
  let ignored : Option (Step rest.length) :=
    if numberSeen || startsWithNumber rest then none else some ⟨f, rest, Nat.le_refl _⟩
  match w with
  | .month n =>
    some ⟨{ f with month := some n }, dropToken (.sign true) rest, length_dropToken _ _⟩
  | .halfDay hour =>
    if f.clock.isEmpty then ignored else some ⟨{ f with halfDay := some hour }, rest, Nat.le_refl _⟩
  | w =>
    match w.zoneHours? with
    | some hours =>
      if numberSeen then some ⟨{ f with zone := some (.ofHours hours) }, rest, Nat.le_refl _⟩
      else ignored
    | none => ignored

/-- The zone behind a sign: hours alone, or hours and minutes, or hours that a colon parts from the
minutes still to come. -/
def zone? (behind : Bool) (n length : Nat) (colonFollows : Bool) : Option Zone :=
  if colonFollows then some ⟨behind, n, none⟩
  else if length = 1 ∨ length = 2 then some ⟨behind, n, some 0⟩
  else if length = 3 ∨ length = 4 then some ⟨behind, n / 100, some (n % 100)⟩
  else none

/-- A sign before the given tokens, where it can begin a zone. -/
def sign? (f : Fields) (behind : Bool) (rest : List Token) : Option (Step rest.length) :=
  match rest with
  | .number n length :: rest =>
    (zone? behind n length (rest.head? == some .colon)).map fun z =>
      ⟨{ f with zone := some z }, rest, by grind⟩
  | rest =>
    (zone? behind 0 0 (rest.head? == some .colon)).map fun z =>
      ⟨{ f with zone := some z }, rest, Nat.le_refl _⟩

/-- Reads tokens into fields.  A sign or a closing parenthesis that has no meaning may only stand
before the first number. -/
def read? (f : Fields) (numberSeen : Bool) : List Token → Option Fields
  | [] => some f
  | .number n _ :: rest =>
    match number? f n rest with
    | some s => read? s.fields true s.rest
    | none => none
  | .word w :: rest =>
    match word? f numberSeen w rest with
    | some s => read? s.fields numberSeen s.rest
    | none => none
  | .sign behind :: rest =>
    if f.zone.any Zone.isUtc || !f.clock.isEmpty then
      match sign? f behind rest with
      | some s => read? s.fields true s.rest
      | none => none
    else if numberSeen then none
    else read? f numberSeen rest
  | .closing :: rest => if numberSeen then none else read? f numberSeen rest
  | .colon :: rest | .point :: rest | .blank :: rest | .other :: rest => read? f numberSeen rest
termination_by tokens => tokens.length
decreasing_by
  all_goals simp only [List.length_cons, Nat.lt_succ_iff]
  · exact s.bounded
  · exact s.bounded
  · exact s.bounded
  all_goals exact Nat.le_refl _

end Loose

end NestedPascal.Time
