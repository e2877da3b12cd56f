/-!
# Names that every record answers to

A record that is looked up by name answers to some names before anything is put into it: with a
built-in function, or with the root of all records.  What it answers is no entry of its own and shows
as the text given here; an entry of such a name begins from that text.
-/

namespace NestedPascal

/-- What a record answers to a name that nothing was put under. -/
inductive Inherited where
  | function (name : String)
  | root
deriving DecidableEq, Repr

namespace Inherited

def ofName? (name : String) : Option Inherited :=
  match name with
  | "constructor" => some (function "Object")
  | "__proto__" => some root
  | "toString" | "valueOf" | "hasOwnProperty" | "isPrototypeOf" | "propertyIsEnumerable"
  | "toLocaleString" | "__defineGetter__" | "__defineSetter__" | "__lookupGetter__"
  | "__lookupSetter__" => some (function name)
  | _ => none

def text : Inherited → String
  | function name => "function " ++ name ++ "() \x7b [native code] \x7d"
  | root => "[object Object]"

end Inherited

/-- The text shown by a record's built-in member of the given name. -/
def inheritedText? (name : String) : Option String :=
  (Inherited.ofName? name).map Inherited.text

end NestedPascal
