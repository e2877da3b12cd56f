import NestedPascal.Binary64.Basic
import NestedPascal.Register
import NestedPascal.Text.Glyph

/-!
# JSON values

Members of an object stand in a list, in the order in which they were set.  A record, in contrast,
lists the members whose names are array indices first, in ascending order, and keeps the order of
setting for the others.
-/

namespace NestedPascal

inductive Json where
  | null
  | bool (value : Bool)
  | number (value : Binary64)
  | string (text : Text)
  | array (items : List Json)
  | object (members : List (Text × Json))
deriving Inhabited

namespace Json

def ofString (s : String) : Json :=
  .string s

def ofNat (n : Nat) : Json :=
  .number (.ofNat n)

def ofInt (n : Int) : Json :=
  .number (.ofInt n)

/-- An object with the given members, those that are absent left out. -/
def ofFields (fields : List (String × Option Json)) : Json :=
  .object (fields.filterMap fun (name, value) => value.map fun v => (Text.ofString name, v))

/-- The members that remain when members are set one after the other: a name that is set again keeps
its place and takes the later value. -/
def settle (members : List (Text × Json)) : List (Text × Json) :=
  (members.foldl (fun r m => r.set m.1 m.2) Register.empty).entries

def member? (name : String) (members : List (Text × Json)) : Option Json :=
  Register.lookup (Text.ofString name) members

end Json

/-- The array index that a name is: a decimal number below 2³² − 1 in its shortest form. -/
def arrayIndex? (name : Text) : Option Nat :=
  match name with
  | [] => none
  | g :: rest =>
    let value := (g :: rest).foldlM (fun n g => match g with
      | .char c => if '0' ≤ c ∧ c ≤ '9' then some (10 * n + (c.toNat - '0'.toNat)) else none
      | .unpaired _ => none) 0
    match value with
    | some n => if (g = .char '0' ∧ rest ≠ []) ∨ 0xFFFFFFFF ≤ n then none else some n
    | none => none

/-- The members of a record in the order in which it lists them. -/
def recordOrder (members : List (Text × α)) : List (Text × α) :=
  let indexed := members.filterMap fun m => (arrayIndex? m.1).map (·, m)
  (indexed.mergeSort fun a b => a.1 ≤ b.1).map (·.2) ++
    members.filter fun m => (arrayIndex? m.1).isNone

def Json.record (members : List (Text × Json)) : Json :=
  .object (recordOrder members)

end NestedPascal
