import NestedPascal.Decimal.Basic
import NestedPascal.Json.Basic
import NestedPascal.Json.Fault

/-!
# Reading JSON

Reading is strict: one value, with only blanks, tabs and line ends around its parts.  A member that
an object sets twice has the later value.  Each reader takes characters off the front of a text and
returns what is left, shorter than before, which is why reading ends.  A reader that fails tells why,
and what was left where it stopped.
-/

namespace NestedPascal.Json

/-- What a reader found, and the text after it. -/
structure Read (α : Type) (bound : Nat) where
  value : α
  rest : List Char
  shorter : rest.length < bound

def Read.weaken {m n : Nat} (r : Read α m) (h : m ≤ n) : Read α n :=
  ⟨r.value, r.rest, Nat.lt_of_lt_of_le r.shorter h⟩

def isSpace (c : Char) : Bool :=
  c == ' ' || c == '\t' || c == '\n' || c == '\r'

def skipSpace (cs : List Char) : List Char :=
  cs.dropWhile isSpace

theorem length_skipSpace (cs : List Char) : (skipSpace cs).length ≤ cs.length :=
  (List.dropWhile_suffix _).length_le

/-- The character named by a letter after a backslash. -/
def escaped? : Char → Option Char
  | '"' => some '"'
  | '\\' => some '\\'
  | '/' => some '/'
  | 'b' => some '\x08'
  | 'f' => some '\x0c'
  | 'n' => some '\n'
  | 'r' => some '\r'
  | 't' => some '\t'
  | _ => none

/-- The stop at the first digit that is not hexadecimal. -/
def Stop.ofUnicodeEscape (cs : List Char) : Stop :=
  ⟨.badUnicodeEscape, cs.dropWhile fun c => (readInBase? 16 [c]).isSome⟩

/-- The inside of a string up to its closing quote. -/
def readString : (cs : List Char) → Except Stop (Read Text cs.length)
  | '"' :: rest => .ok ⟨[], rest, by simp⟩
  | '\\' :: 'u' :: a :: b :: c :: d :: rest =>
    match readInBase? 16 [a, b, c, d] with
    | none => .error (.ofUnicodeEscape (a :: b :: c :: d :: rest))
    | some unit => do
      let tail ← readString rest
      .ok ⟨Text.push (Text.glyphOfUnit unit) tail.value, tail.rest, by
        have := tail.shorter
        simp only [List.length_cons]
        omega⟩
  | '\\' :: 'u' :: rest => .error (.ofUnicodeEscape rest)
  | '\\' :: e :: rest =>
    match escaped? e with
    | none => .error ⟨.badEscape, e :: rest⟩
    | some c => do
      let tail ← readString rest
      .ok ⟨.char c :: tail.value, tail.rest, by
        have := tail.shorter
        simp only [List.length_cons]
        omega⟩
  | ['\\'] => .error ⟨.badEscape, []⟩
  | c :: rest =>
    if c.toNat < 0x20 then .error ⟨.controlCharacter, c :: rest⟩
    else do
      let tail ← readString rest
      .ok ⟨.char c :: tail.value, tail.rest, by
        have := tail.shorter
        simp only [List.length_cons]
        omega⟩
  | [] => .error ⟨.closingQuote, []⟩

/-- The digits after a point, none if there is no point. -/
def readFraction (cs : List Char) : Except Stop (List Char × List Char) :=
  match cs with
  | '.' :: rest =>
    let (fraction, after) := spanDigits rest
    if fraction.isEmpty then .error ⟨.digitAfterPoint, rest⟩ else .ok (fraction, after)
  | rest => .ok ([], rest)

theorem length_readFraction {cs fraction rest : List Char}
    (h : readFraction cs = .ok (fraction, rest)) : rest.length ≤ cs.length := by
  unfold readFraction at h
  split at h
  · rename_i tail
    simp only at h
    split at h
    · contradiction
    · simp only [Except.ok.injEq, Prod.mk.injEq] at h
      have := length_spanDigits tail
      rw [h.2] at this
      simp only [List.length_cons]
      omega
  · simp only [Except.ok.injEq, Prod.mk.injEq] at h
    simp [h.2]

/-- The exponent, zero if none is written. -/
def readScale (cs : List Char) : Except Stop (Int × List Char) :=
  match cs with
  | 'e' :: rest | 'E' :: rest =>
    match Decimal.readExponent? cs with
    | none => .error ⟨.digitOfExponent, (Decimal.splitSign rest).2⟩
    | some r => .ok r
  | rest => .ok (0, rest)

theorem length_readScale {cs rest : List Char} {n : Int}
    (h : readScale cs = .ok (n, rest)) : rest.length ≤ cs.length := by
  unfold readScale at h
  split at h
  · split at h
    · contradiction
    · rename_i hr
      simp only [Except.ok.injEq] at h
      exact Nat.le_of_lt (Decimal.length_readExponent? (h ▸ hr))
  · split at h
    · contradiction
    · rename_i hr
      simp only [Except.ok.injEq] at h
      exact Nat.le_of_lt (Decimal.length_readExponent? (h ▸ hr))
  · simp only [Except.ok.injEq, Prod.mk.injEq] at h
    simp [h.2]

/-- A number without its sign.  Only zero itself starts with a zero. -/
def readMagnitude (negative : Bool) (cs : List Char) : Except Stop (Read Json cs.length) :=
  match hw : spanDigits cs with
  | ([], _) => .error (if negative then ⟨.digitAfterSign, cs⟩ else .unexpected cs)
  | (w :: whole, rest) =>
    if w = '0' ∧ whole ≠ [] then .error ⟨.unexpectedNumber, whole ++ rest⟩
    else
      match hf : readFraction rest with
      | .error e => .error e
      | .ok (fraction, rest') =>
        match hs : readScale rest' with
        | .error e => .error e
        | .ok (scale, rest'') =>
          .ok ⟨.number (Decimal.ofParts negative (w :: whole) fraction scale).toBinary64, rest'', by
            have taken := congrArg List.length (spanDigits_append cs)
            rw [hw] at taken
            have hf' := length_readFraction hf
            have hs' := length_readScale hs
            simp only [List.cons_append, List.length_cons, List.length_append] at taken
            omega⟩

/-- What follows the longest opening that a text has in common with a word. -/
def dropCommon : (word : List Char) → List Char → List Char
  | w :: word, c :: cs => if w = c then dropCommon word cs else c :: cs
  | _, cs => cs

/-- A literal word. -/
def readWord (word : List Char) (value : Json) (cs : List Char) : Except Stop (Read Json cs.length) :=
  if h : word.isPrefixOf cs ∧ word ≠ [] then
    .ok ⟨value, cs.drop word.length, by
      have := (List.isPrefixOf_iff_prefix.1 h.1).length_le
      have := List.length_pos_iff.2 h.2
      simp only [List.length_drop]
      omega⟩
  else
    .error (.unexpected (dropCommon word cs))

mutual

/-- A value at the very front of a text. -/
def readValue (cs : List Char) : Except Stop (Read Json cs.length) :=
  match cs with
  | '"' :: rest => (readString rest).map fun r => ⟨.string r.value, r.rest, by
      have := r.shorter
      simp only [List.length_cons]
      omega⟩
  | '[' :: rest =>
    match h : skipSpace rest with
    | ']' :: rest' => .ok ⟨.array [], rest', by
        have := length_skipSpace rest
        rw [h] at this
        simp only [List.length_cons] at this ⊢
        omega⟩
    | _ => (readItems rest).map fun r => ⟨.array r.value, r.rest, by
        have := r.shorter
        simp only [List.length_cons]
        omega⟩
  | '\x7b' :: rest =>
    match h : skipSpace rest with
    | '\x7d' :: rest' => .ok ⟨.object [], rest', by
        have := length_skipSpace rest
        rw [h] at this
        simp only [List.length_cons] at this ⊢
        omega⟩
    | _ => (readMembers .memberOrBrace rest).map fun r => ⟨.object (settle r.value), r.rest, by
        have := r.shorter
        simp only [List.length_cons]
        omega⟩
  | '-' :: rest => (readMagnitude true rest).map fun r => r.weaken (by simp)
  | 't' :: rest => readWord "true".toList (.bool true) ('t' :: rest)
  | 'f' :: rest => readWord "false".toList (.bool false) ('f' :: rest)
  | 'n' :: rest => readWord "null".toList .null ('n' :: rest)
  | cs => readMagnitude false cs
termination_by 2 * cs.length
decreasing_by all_goals simp only [List.length_cons]; omega

/-- The items of an array up to its closing bracket, at least one. -/
def readItems (cs : List Char) : Except Stop (Read (List Json) cs.length) :=
  let start := skipSpace cs
  match readValue start with
  | .error e => .error e
  | .ok v =>
    match h : skipSpace v.rest with
    | ',' :: rest => (readItems rest).map fun r => ⟨v.value :: r.value, r.rest, by
        have := r.shorter
        have := v.shorter
        have := length_skipSpace cs
        have := length_skipSpace v.rest
        simp only [h, List.length_cons, start] at *
        omega⟩
    | ']' :: rest => .ok ⟨[v.value], rest, by
        have := v.shorter
        have := length_skipSpace cs
        have := length_skipSpace v.rest
        simp only [h, List.length_cons, start] at *
        omega⟩
    | after => .error ⟨.commaOrBracket, after⟩
termination_by 2 * cs.length + 1
decreasing_by
  · have := length_skipSpace cs
    omega
  · have := v.shorter
    have := length_skipSpace cs
    have := length_skipSpace v.rest
    simp only [h, List.length_cons, start] at *
    omega

/-- The members of an object up to its closing brace, at least one.  The cause is for a text that
starts with no name. -/
def readMembers (nameless : FaultCause) (cs : List Char) :
    Except Stop (Read (List (Text × Json)) cs.length) :=
  match hn : skipSpace cs with
  | '"' :: nameStart =>
    match readString nameStart with
    | .error e => .error e
    | .ok name =>
      match hc : skipSpace name.rest with
      | ':' :: afterColon =>
        let start := skipSpace afterColon
        match readValue start with
        | .error e => .error e
        | .ok v =>
          match h : skipSpace v.rest with
          | ',' :: rest => (readMembers .memberName rest).map fun r =>
              ⟨(name.value, v.value) :: r.value, r.rest, by
                have := r.shorter
                have := v.shorter
                have := name.shorter
                have := length_skipSpace cs
                have := length_skipSpace name.rest
                have := length_skipSpace afterColon
                have := length_skipSpace v.rest
                simp only [h, hn, hc, List.length_cons, start] at *
                omega⟩
          | '\x7d' :: rest => .ok ⟨[(name.value, v.value)], rest, by
              have := v.shorter
              have := name.shorter
              have := length_skipSpace cs
              have := length_skipSpace name.rest
              have := length_skipSpace afterColon
              have := length_skipSpace v.rest
              simp only [h, hn, hc, List.length_cons, start] at *
              omega⟩
          | after => .error ⟨.commaOrBrace, after⟩
      | after => .error ⟨.colon, after⟩
  | after => .error ⟨nameless, after⟩
termination_by 2 * cs.length + 1
decreasing_by
  · have := name.shorter
    have := length_skipSpace cs
    have := length_skipSpace name.rest
    have := length_skipSpace afterColon
    simp only [hn, hc, List.length_cons] at *
    omega
  · have := v.shorter
    have := name.shorter
    have := length_skipSpace cs
    have := length_skipSpace name.rest
    have := length_skipSpace afterColon
    have := length_skipSpace v.rest
    simp only [h, hn, hc, List.length_cons, start] at *
    omega

end

/-- A text that is one value, or the stop. -/
def readWhole (cs : List Char) : Except Stop Json :=
  match readValue (skipSpace cs) with
  | .error e => .error e
  | .ok v =>
    match skipSpace v.rest with
    | [] => .ok v.value
    | after => .error ⟨.endOfValue, after⟩

/-- The fault where reading a text stopped. -/
def Stop.inText (s : Stop) (cs : List Char) : Fault :=
  ⟨s.cause, cs.take (cs.length - s.rest.length), s.rest⟩

/-- Reads a text that is one value. -/
def read (cs : List Char) : Except Fault Json :=
  (readWhole cs).mapError fun s => s.inText cs

def read? (cs : List Char) : Option Json :=
  (read cs).toOption

end NestedPascal.Json
