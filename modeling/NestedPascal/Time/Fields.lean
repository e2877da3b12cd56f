import NestedPascal.Time.Calendar
import NestedPascal.Time.Token

/-!
# The fields of a time

What the text of a time tells: numbers of the date, perhaps a month by name, the time of day, perhaps
the half of the day that it is in, and perhaps a zone.  Fields that are not told are the first of
their kind, and a time without a zone is in UTC.
-/

namespace NestedPascal.Time

/-- How far a time is ahead of UTC, or behind it.  The minutes may still be expected. -/
structure Zone where
  behind : Bool
  hours : Nat
  minutes : Option Nat
deriving DecidableEq, Repr

namespace Zone

def ofHours (hours : Int) : Zone :=
  ⟨hours < 0, hours.natAbs, some 0⟩

def isUtc (z : Zone) : Bool :=
  z.hours == 0 && z.minutes == some 0

def expects (z : Zone) (n : Nat) : Bool :=
  z.minutes.isNone && n ≤ 59

/-- The greatest distance from UTC, in seconds. -/
def greatest : Nat := Nat.pow 2 31 - 1

/-- The milliseconds by which the zone is ahead of UTC.  The distance is counted in seconds, in a
word of 32 bits. -/
def millis? (z : Zone) : Option Int :=
  let seconds : Nat := (3600 * z.hours + 60 * z.minutes.getD 0) % Nat.pow 2 32
  let millis : Int := 1000 * seconds
  if seconds ≤ greatest then some (if z.behind then -millis else millis) else none

end Zone

structure Fields where
  /-- The numbers of the date in the order in which they are written, at most three. -/
  date : List Int := []
  /-- The month, if it is written by name. -/
  month : Option Nat := none
  /-- Hour, minute, second and millisecond, as far as they are known. -/
  clock : List Nat := []
  /-- The first hour of the half of the day. -/
  halfDay : Option Nat := none
  zone : Option Zone := none
deriving DecidableEq, Repr

/-- The milliseconds of a fraction of a second, given as a number and the count of its digits. -/
def milliseconds (value length : Nat) : Nat :=
  if length = 1 then 100 * value
  else if length = 2 then 10 * value
  else value / Nat.pow 10 (min length 9 - 3)

namespace Fields

/-- Year, month and day.  A date in the standard order starts with the year; otherwise a number that
is no day of a month does, and without one the month comes first, or if it has a name the day. -/
def calendarDate (f : Fields) (standard : Bool) : Option (Int × Int × Int) :=
  let isDay (n : Int) : Bool := 1 ≤ n && n ≤ 31
  match f.date with
  | [] => none
  | first :: rest =>
    let second := rest.headD 1
    let third := (rest.drop 1).headD 1
    some <| match f.month with
      | some month => if isDay first then (second, month, first) else (first, month, second)
      | none =>
        if standard || !isDay first then (first, second, third) else (third, first, second)

/-- The century of a year is left out if the year is below a hundred: it is then one from 1950 to
2049. -/
def fullYear (year : Int) : Int :=
  if 0 ≤ year ∧ year ≤ 49 then year + 2000
  else if 50 ≤ year ∧ year ≤ 99 then year + 1900
  else year

/-- The days from the start of 1970. -/
def days? (f : Fields) (standard : Bool) : Option Int := do
  let (year, month, day) ← f.calendarDate standard
  if 1 ≤ month ∧ month ≤ 12 ∧ 1 ≤ day ∧ day ≤ 31 then
    some (daysOf (if standard then year else fullYear year) month.toNat day.toNat)
  else none

/-- The hour of the day. -/
def hour? (f : Fields) : Option Nat :=
  let hour := f.clock.headD 0
  match f.halfDay with
  | none => some hour
  | some first => if hour ≤ 12 then some (hour % 12 + first) else none

/-- The milliseconds from midnight.  The midnight that ends the day may be written as 24. -/
def timeOfDay? (f : Fields) : Option Nat := do
  let hour ← f.hour?
  let minute := (f.clock.drop 1).headD 0
  let second := (f.clock.drop 2).headD 0
  let millis := (f.clock.drop 3).headD 0
  if (hour ≤ 23 ∧ minute ≤ 59 ∧ second ≤ 59 ∧ millis ≤ 999) ∨
      (hour = 24 ∧ minute = 0 ∧ second = 0 ∧ millis = 0) then
    some (3600000 * hour + 60000 * minute + 1000 * second + millis)
  else none

/-- The point in time that the fields tell. -/
def instant? (f : Fields) (standard : Bool) : Option Int := do
  let days ← f.days? standard
  let time ← f.timeOfDay?
  let ahead ← match f.zone with
    | none => some 0
    | some z => z.millis?
  let instant := 86400000 * days + time - ahead
  if instant.natAbs ≤ farthest then some instant else none

end Fields

end NestedPascal.Time
