import NestedPascal.Binary64.Arithmetic
import NestedPascal.Decimal.Layout
import NestedPascal.Json.Basic

/-!
# Values

A value is a binary64 number of one of two kinds.  The number of an INTEGER that arithmetic yields
is a whole number of 32 bits and never negative zero; the number of a REAL that arithmetic yields is
finite.
-/

namespace NestedPascal

inductive Kind where
  | integer
  | real
deriving DecidableEq, Repr, Inhabited

def Kind.text : Kind → String
  | .integer => "INTEGER"
  | .real => "REAL"

/-- INTEGER flows into REAL; nothing flows the other way. -/
def Kind.assignable (source target : Kind) : Bool :=
  source == target || (source == .integer && target == .real)

structure Value where
  kind : Kind
  number : Binary64
deriving DecidableEq, Inhabited

def integerMin : Int := -2147483648

def integerMax : Int := 2147483647

def InIntegerRange (n : Int) : Prop :=
  integerMin ≤ n ∧ n ≤ integerMax

instance (n : Int) : Decidable (InIntegerRange n) :=
  inferInstanceAs (Decidable (_ ∧ _))

namespace Value

def ofInt (n : Int) : Value :=
  ⟨.integer, .ofInt n⟩

/-- Why a number is no value of a kind. -/
inductive RangeError where
  | integerOverflow (number : Binary64)
  | invalidReal (number : Binary64)
deriving DecidableEq

/-- The INTEGER of a whole number of 32 bits. -/
def checkInteger (x : Binary64) : Except RangeError Value :=
  match x.toInt? with
  | some n => if InIntegerRange n then .ok (ofInt n) else .error (.integerOverflow x)
  | none => .error (.integerOverflow x)

/-- The REAL of a finite number. -/
def checkReal (x : Binary64) : Except RangeError Value :=
  if x.isFinite then .ok ⟨.real, x⟩ else .error (.invalidReal x)

/-- The value as it is stored in a slot of a kind. -/
def widen (v : Value) (target : Kind) : Value :=
  match v.kind, target with
  | .integer, .real => ⟨.real, v.number⟩
  | _, _ => v

/-- The text of a value: a whole REAL below 10²¹ shows all its digits and one decimal place. -/
def text (v : Value) : String :=
  match v.kind, v.number.toInt? with
  | .real, some n => if n.natAbs < Nat.pow 10 21 then toString n ++ ".0" else v.number.text
  | _, _ => v.number.text

def toJson (v : Value) : Json :=
  .ofFields [("type", some (.ofString v.kind.text)), ("value", some (.number v.number))]

end Value

end NestedPascal
