import NestedPascal.Time.Fields

/-!
# The standard form of a time

A year of four digits, or of six with a sign, may be followed by a month and that by a day, and a
date by the letter T and a time of day, which may have a zone.  What starts like a date but does not
go on like one is left to the loose form; after the T nothing else is possible.
-/

namespace NestedPascal.Time.Standard

/-- What a text is to the standard form. -/
inductive Reading where
  | complete (fields : Fields)
  /-- A date broken off: its numbers, and the tokens that are left. -/
  | loose (date : List Int) (rest : List Token)
  | refused

/-- Hour, minute, and perhaps second and millisecond; ranges do not count here, but an hour of 24 has
no fraction. -/
def readClock? : List Token → Option (List Nat × List Token)
  | .number hour 2 :: .colon :: .number minute 2 :: .colon :: .number second 2 :: .point ::
      .number fraction length :: rest =>
    if hour = 24 ∧ 0 < fraction then none
    else some ([hour, minute, second, milliseconds fraction length], rest)
  | .number hour 2 :: .colon :: .number minute 2 :: .colon :: .number second 2 :: rest =>
    some ([hour, minute, second], rest)
  | .number hour 2 :: .colon :: .number minute 2 :: rest => some ([hour, minute], rest)
  | _ => none

private def zoneOf? (behind : Bool) (hours minutes : Nat) : Option Zone :=
  if hours ≤ 23 ∧ minutes ≤ 59 then some ⟨behind, hours, some minutes⟩ else none

/-- The zone at the end, if there is one. -/
def readZone? : List Token → Option (Option Zone)
  | [] => some none
  | [.word .zulu] => some (some (.ofHours 0))
  | [.sign behind, .number n 4] => (zoneOf? behind (n / 100) (n % 100)).map some
  | [.sign behind, .number hours 2, .colon, .number minutes 2] =>
    (zoneOf? behind hours minutes).map some
  | _ => none

/-- What follows a date. -/
def afterDate (date : List Int) : List Token → Reading
  | [] => .complete { date := date }
  | .word .clockMark :: rest =>
    match readClock? rest with
    | none => .refused
    | some (clock, rest) =>
      match readZone? rest with
      | none => .refused
      | some zone => .complete { date := date, clock := clock, zone := zone }
  | rest => .loose date rest

/-- What follows a year and a month. -/
def afterMonth (date : List Int) : List Token → Reading
  | .sign true :: .number day 2 :: rest =>
    if 1 ≤ day ∧ day ≤ 31 then afterDate (date ++ [(day : Int)]) rest
    else .loose date (.number day 2 :: rest)
  | .sign true :: rest => .loose date rest
  | rest => afterDate date rest

/-- What follows a year. -/
def afterYear (year : Int) : List Token → Reading
  | .sign true :: .number month 2 :: rest =>
    if 1 ≤ month ∧ month ≤ 12 then afterMonth [year, (month : Int)] rest
    else .loose [year] (.number month 2 :: rest)
  | .sign true :: rest => .loose [year] rest
  | rest => afterDate [year] rest

/-- Reads a text.  There is no year minus zero; a text that starts with it goes on after it. -/
def read : List Token → Reading
  | .sign negative :: .number year 6 :: rest =>
    if negative ∧ year = 0 then .loose [] (.sign negative :: rest)
    else afterYear (if negative then -(year : Int) else (year : Int)) rest
  | .number year 4 :: rest => afterYear year rest
  | tokens => .loose [] tokens

end NestedPascal.Time.Standard
