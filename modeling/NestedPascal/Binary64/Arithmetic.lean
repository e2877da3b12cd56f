import NestedPascal.Binary64.Basic

/-!
# Arithmetic on binary64 numbers

Sum, product and quotient are taken exactly in units of 2⁻¹⁰⁷⁴ and rounded once.  A sum of two
opposite numbers is positive zero; a product or quotient is negative when its operands differ in
sign, zeros included.
-/

namespace NestedPascal.Binary64

def neg : Binary64 → Binary64
  | .nan => .nan
  | .infinity s => .infinity (!s)
  | .finite s u h => .finite (!s) u h

def add : Binary64 → Binary64 → Binary64
  | .nan, _ | _, .nan => .nan
  | .infinity s, .infinity t => if s = t then .infinity s else .nan
  | .infinity s, .finite .. => .infinity s
  | .finite .., .infinity t => .infinity t
  | .finite s u _, .finite t v _ =>
    if s = t then ofQuotient s (u + v) 1
    else if u = v then zero false
    else if v < u then ofQuotient s (u - v) 1
    else ofQuotient t (v - u) 1

def sub (x y : Binary64) : Binary64 :=
  add x (neg y)

def mul : Binary64 → Binary64 → Binary64
  | .nan, _ | _, .nan => .nan
  | .infinity s, .infinity t => .infinity (s != t)
  | .infinity s, .finite t v _ => if v = 0 then .nan else .infinity (s != t)
  | .finite s u _, .infinity t => if u = 0 then .nan else .infinity (s != t)
  | .finite s u _, .finite t v _ => ofQuotient (s != t) (u * v) one

def div : Binary64 → Binary64 → Binary64
  | .nan, _ | _, .nan => .nan
  | .infinity _, .infinity _ => .nan
  | .infinity s, .finite t _ _ => .infinity (s != t)
  | .finite s _ _, .infinity t => zero (s != t)
  | .finite s u _, .finite t v _ =>
    if v = 0 then (if u = 0 then .nan else .infinity (s != t))
    else ofQuotient (s != t) (u * one) v

/-- The integral part, toward zero. -/
def truncate : Binary64 → Binary64
  | .finite s u _ => ofQuotient s (u / one * one) 1
  | x => x

instance : Neg Binary64 := ⟨neg⟩
instance : Add Binary64 := ⟨add⟩
instance : Sub Binary64 := ⟨sub⟩
instance : Mul Binary64 := ⟨mul⟩
instance : Div Binary64 := ⟨div⟩

end NestedPascal.Binary64
