import NestedPascal.Text.Blank
import NestedPascal.Text.Digits

/-!
# Tokens of a time

The text of a time falls into numbers, words, single marks and blanks; what stands in parentheses is
passed over as a whole.  A null character ends the text.  A word tells by its first three letters,
in either case; only the name of a month may be longer than that.
-/

namespace NestedPascal.Time

inductive Word where
  | month (n : Nat)
  /-- The first hour of a half of the day. -/
  | halfDay (hour : Nat)
  /-- A zone by the hours that it is ahead of UTC. -/
  | zone (hours : Int)
  /-- The letter for UTC. -/
  | zulu
  /-- The letter between a date and a time of day. -/
  | clockMark
  | unknown
deriving DecidableEq, Repr

inductive Token where
  /-- A number and how many digits it is written with.  Of more than nine significant digits the
  first nine make the number. -/
  | number (value length : Nat)
  | colon
  | point
  | sign (negative : Bool)
  | closing
  | word (w : Word)
  | blank
  /-- A character without a meaning, or a group in parentheses. -/
  | other
deriving DecidableEq, Repr

namespace Word

def monthNames : List (String × Nat) :=
  [("jan", 1), ("feb", 2), ("mar", 3), ("apr", 4), ("may", 5), ("jun", 6), ("jul", 7), ("aug", 8),
    ("sep", 9), ("oct", 10), ("nov", 11), ("dec", 12)]

/-- The words that have to be written in full. -/
def wholeWords : List (String × Word) :=
  [("am", halfDay 0), ("pm", halfDay 12), ("ut", zone 0), ("utc", zone 0), ("z", zulu),
    ("gmt", zone 0), ("cdt", zone (-5)), ("cst", zone (-6)), ("edt", zone (-4)), ("est", zone (-5)),
    ("mdt", zone (-6)), ("mst", zone (-7)), ("pdt", zone (-7)), ("pst", zone (-8)), ("t", clockMark)]

def ofChars (cs : List Char) : Word :=
  let letters := cs.map Char.toLower
  match monthNames.lookup (String.ofList (letters.take 3)) with
  | some n => month n
  | none => (wholeWords.lookup (String.ofList letters)).getD unknown

/-- The hours by which the zone that a word names is ahead of UTC. -/
def zoneHours? : Word → Option Int
  | zone hours => some hours
  | zulu => some 0
  | _ => none

end Word

namespace Token

/-- Whether a character can stand in a word. -/
def isWordChar (c : Char) : Bool :=
  'A' ≤ c && (!isBlank c || c == '\u2028' || c == '\u2029')

/-- The number of a run of digits. -/
def ofDigits (ds : List Char) : Token :=
  .number (decimalValue ((ds.dropWhile (· == '0')).take 9)) ds.length

/-- What follows a group in parentheses, of which so many are open. -/
def afterGroup : Nat → List Char → List Char
  | 0, cs => cs
  | _ + 1, [] => []
  | depth + 1, c :: rest =>
    if c = '(' then afterGroup (depth + 2) rest
    else if c = ')' then afterGroup depth rest
    else afterGroup (depth + 1) rest

theorem length_afterGroup (depth : Nat) (cs : List Char) :
    (afterGroup depth cs).length ≤ cs.length := by
  fun_induction afterGroup depth cs with
  | case1 => exact Nat.le_refl _
  | case2 => exact Nat.le_refl _
  | case3 _ _ ih => exact Nat.le_succ_of_le ih
  | case4 _ _ _ ih => exact Nat.le_succ_of_le ih
  | case5 _ _ _ _ _ ih => exact Nat.le_succ_of_le ih

/-- The token of a character that stands for itself. -/
def ofChar (c : Char) : Token :=
  if c = ':' then .colon
  else if c = '.' then .point
  else if c = '+' then .sign false
  else if c = '-' then .sign true
  else if c = ')' then .closing
  else if isBlank c then .blank
  else .other

/-- The tokens of a text without a null character. -/
def scan : List Char → List Token
  | [] => []
  | c :: rest =>
    if isDigit c then
      ofDigits (c :: rest.takeWhile isDigit) :: scan (rest.dropWhile isDigit)
    else if isWordChar c then
      .word (Word.ofChars (c :: rest.takeWhile isWordChar)) :: scan (rest.dropWhile isWordChar)
    else if c = '(' then .other :: scan (afterGroup 1 rest)
    else ofChar c :: scan rest
termination_by cs => cs.length
decreasing_by
  all_goals simp only [List.length_cons, Nat.lt_succ_iff]
  · exact (List.dropWhile_suffix _).length_le
  · exact (List.dropWhile_suffix _).length_le
  · exact length_afterGroup 1 rest
  · exact Nat.le_refl _

def ofText (cs : List Char) : List Token :=
  scan (cs.takeWhile (· != '\x00'))

end Token

end NestedPascal.Time
