/-!
# The calendar

A point in time is a count of milliseconds from the start of 1970, in the proleptic Gregorian
calendar without leap seconds.  Days of a month are counted through to 31, so that the last ones of
a short month fall into the next.
-/

namespace NestedPascal.Time

/-- Days from the start of 1970 to a day of a month. -/
def daysOf (year : Int) (month day : Nat) : Int :=
  -- The year is counted from March, so that a leap day comes last.
  let shifted := if month ≤ 2 then year - 1 else year
  let monthIndex : Int := (month + 9) % 12
  365 * shifted + shifted.fdiv 4 - shifted.fdiv 100 + shifted.fdiv 400 +
    (153 * monthIndex + 2) / 5 + day - 719469

/-- The farthest point in time on either side. -/
def farthest : Nat := 8640000000000000

private def padded (width n : Nat) : String :=
  let ds := Nat.toDigits 10 n
  String.ofList (List.replicate (width - ds.length) '0' ++ ds)

/-- The text of a year, with a sign and six digits if four do not suffice. -/
def writeYear (year : Int) : String :=
  if 0 ≤ year ∧ year ≤ 9999 then padded 4 year.toNat
  else (if year < 0 then "-" else "+") ++ padded 6 year.natAbs

/-- The text of a point in time. -/
def write (millis : Int) : String :=
  -- Days from the start of March of the year 0, in cycles of 400 years.
  let z := millis / 86400000 + 719468
  let ofCycle := (z % 146097).toNat
  let yearOfCycle := (ofCycle - ofCycle / 1460 + ofCycle / 36524 - ofCycle / 146096) / 365
  let dayOfYear := ofCycle - (365 * yearOfCycle + yearOfCycle / 4 - yearOfCycle / 100)
  let monthIndex := (5 * dayOfYear + 2) / 153
  let day := dayOfYear - (153 * monthIndex + 2) / 5 + 1
  let month := if monthIndex < 10 then monthIndex + 3 else monthIndex - 9
  let year := yearOfCycle + 400 * (z / 146097) + (if month ≤ 2 then 1 else 0)
  let ofDay := (millis % 86400000).toNat
  writeYear year ++ "-" ++ padded 2 month ++ "-" ++ padded 2 day ++ "T" ++
    padded 2 (ofDay / 3600000) ++ ":" ++ padded 2 (ofDay / 60000 % 60) ++ ":" ++
    padded 2 (ofDay / 1000 % 60) ++ "." ++ padded 3 (ofDay % 1000) ++ "Z"

/-- What a clock shows: milliseconds from the start of 1970. -/
structure Instant where
  millis : Int
  inRange : millis.natAbs ≤ farthest

namespace Instant

def ofMillis? (millis : Int) : Option Instant :=
  if h : millis.natAbs ≤ farthest then some ⟨millis, h⟩ else none

def epoch : Instant :=
  ⟨0, Nat.zero_le _⟩

def text (t : Instant) : String :=
  write t.millis

end Instant

/-- The milliseconds between two readings of a clock, below zero if it was set back. -/
structure Duration where
  millis : Int
  inRange : millis.natAbs ≤ 2 * farthest

def Duration.zero : Duration :=
  ⟨0, Nat.zero_le _⟩

def Instant.since (later earlier : Instant) : Duration :=
  ⟨later.millis - earlier.millis, by
    have hlater := later.inRange
    have hearlier := earlier.inRange
    omega⟩

end NestedPascal.Time
