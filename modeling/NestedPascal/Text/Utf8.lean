/-!
# Decoding UTF-8

Bytes become characters one at a time.  A sequence that breaks off, or a byte that starts none,
becomes one replacement character; the byte that broke a sequence off is then taken afresh.
-/

namespace NestedPascal.Utf8

/-- Where decoding stands between two bytes. -/
inductive State where
  | idle
  /-- Inside a sequence: how many bytes it lacks, its value so far, and the bounds on the next byte. -/
  | pending (lacking value least greatest : Nat)
deriving DecidableEq, Repr

def replacement : Char := '\uFFFD'

/-- Takes a byte outside a sequence. -/
def opening (b : Nat) : State × List Char :=
  if b < 0x80 then (.idle, [Char.ofNat b])
  else if 0xC2 ≤ b ∧ b ≤ 0xDF then (.pending 1 (b - 0xC0) 0x80 0xBF, [])
  else if b = 0xE0 then (.pending 2 0 0xA0 0xBF, [])
  else if b = 0xED then (.pending 2 (b - 0xE0) 0x80 0x9F, [])
  else if 0xE1 ≤ b ∧ b ≤ 0xEF then (.pending 2 (b - 0xE0) 0x80 0xBF, [])
  else if b = 0xF0 then (.pending 3 0 0x90 0xBF, [])
  else if 0xF1 ≤ b ∧ b ≤ 0xF3 then (.pending 3 (b - 0xF0) 0x80 0xBF, [])
  else if b = 0xF4 then (.pending 3 (b - 0xF0) 0x80 0x8F, [])
  else (.idle, [replacement])

def step (s : State) (b : Nat) : State × List Char :=
  match s with
  | .idle => opening b
  | .pending lacking value least greatest =>
    if least ≤ b ∧ b ≤ greatest then
      let value := 64 * value + (b - 0x80)
      if lacking = 1 then (.idle, [Char.ofNat value])
      else (.pending (lacking - 1) value 0x80 0xBF, [])
    else
      let (s, cs) := opening b
      (s, replacement :: cs)

def decodeFrom (s : State) : List UInt8 → List Char
  | [] => if s = .idle then [] else [replacement]
  | b :: rest =>
    let (s, cs) := step s b.toNat
    cs ++ decodeFrom s rest

def decode (bytes : List UInt8) : List Char :=
  decodeFrom .idle bytes

end NestedPascal.Utf8
