/-!
# Texts over 16-bit code units

Names, messages and strings of data are sequences of characters, but their offsets, columns and
lengths count 16-bit code units, of which a character beyond the basic plane takes two.  A unit of
such a pair can also stand alone: at the head of a run of dropped input, or in a string written with
escapes.  A text is therefore a list of glyphs, each a character or an unpaired surrogate.
-/

namespace NestedPascal

/-- The number of 16-bit code units that a character takes. -/
def unitWidth (c : Char) : Nat :=
  if c.toNat < 0x10000 then 1 else 2

theorem unitWidth_pos (c : Char) : 0 < unitWidth c := by
  unfold unitWidth
  split <;> decide

/-- The number of 16-bit code units that a list of characters takes. -/
def unitLength : List Char → Nat
  | [] => 0
  | c :: cs => unitWidth c + unitLength cs

@[simp] theorem unitLength_nil : unitLength [] = 0 := rfl

@[simp] theorem unitLength_cons (c : Char) (cs : List Char) :
    unitLength (c :: cs) = unitWidth c + unitLength cs := rfl

@[simp] theorem unitLength_append (as bs : List Char) :
    unitLength (as ++ bs) = unitLength as + unitLength bs := by
  induction as with
  | nil => simp
  | cons a as ih => rw [List.cons_append, unitLength_cons, unitLength_cons, ih, Nat.add_assoc]

/-- The 16-bit code units of a list of characters. -/
def codeUnits (cs : List Char) : List Nat :=
  cs.flatMap fun c =>
    let n := c.toNat
    if n < 0x10000 then [n] else [0xD800 + (n - 0x10000) / 0x400, 0xDC00 + (n - 0x10000) % 0x400]

theorem length_codeUnits (cs : List Char) : (codeUnits cs).length = unitLength cs := by
  induction cs with
  | nil => rfl
  | cons c cs ih =>
    simp only [codeUnits, List.flatMap_cons, List.length_append, unitLength_cons] at *
    rw [ih]
    unfold unitWidth
    split <;> simp_all

theorem codeUnits_of_basic {c : Char} (cs : List Char) (h : c.toNat < 0x10000) :
    codeUnits (c :: cs) = c.toNat :: codeUnits cs := by
  simp only [codeUnits, List.flatMap_cons]
  rw [if_pos h, List.singleton_append]

theorem codeUnits_of_beyond {c : Char} (cs : List Char) (h : ¬c.toNat < 0x10000) :
    codeUnits (c :: cs) = (0xD800 + (c.toNat - 0x10000) / 0x400) ::
      (0xDC00 + (c.toNat - 0x10000) % 0x400) :: codeUnits cs := by
  simp only [codeUnits, List.flatMap_cons]
  rw [if_neg h, List.cons_append, List.singleton_append]

/-- One symbol of a text. -/
inductive Glyph where
  | char (c : Char)
  /-- A surrogate code unit that belongs to no pair. -/
  | unpaired (unit : Nat)
deriving DecidableEq, Repr, Inhabited

/-- The first code unit of a character, standing alone. -/
def Glyph.firstUnit (c : Char) : Glyph :=
  if c.toNat < 0x10000 then .char c else .unpaired (0xD800 + (c.toNat - 0x10000) / 0x400)

/-- The character shown for a glyph: an unpaired surrogate has none of its own. -/
def Glyph.shown : Glyph → Char
  | .char c => c
  | .unpaired _ => '\uFFFD'

abbrev Text := List Glyph

namespace Text

def ofChars (cs : List Char) : Text :=
  cs.map .char

def ofString (s : String) : Text :=
  ofChars s.toList

instance : Coe String Text := ⟨ofString⟩

/-- The characters shown for a text. -/
def shown (t : Text) : List Char :=
  t.map Glyph.shown

def toString (t : Text) : String :=
  String.ofList t.shown

@[simp] theorem shown_ofChars (cs : List Char) : (ofChars cs).shown = cs := by
  simp [shown, ofChars, Function.comp_def, Glyph.shown]

@[simp] theorem toString_ofString (s : String) : (ofString s).toString = s := by
  simp [toString, ofString]

theorem ofString_injective {s t : String} (h : ofString s = ofString t) : s = t := by
  have := congrArg toString h
  simpa using this

/-- Puts a glyph before a text.  A high surrogate meeting a low one makes one character of them. -/
def push (g : Glyph) (t : Text) : Text :=
  match g, t with
  | .unpaired high, .unpaired low :: rest =>
    if high < 0xDC00 ∧ 0xDC00 ≤ low then
      .char (Char.ofNat (0x10000 + (high - 0xD800) * 0x400 + (low - 0xDC00))) :: rest
    else
      g :: t
  | _, _ => g :: t

/-- The glyph of a code unit. -/
def glyphOfUnit (unit : Nat) : Glyph :=
  if 0xD800 ≤ unit ∧ unit < 0xE000 then .unpaired unit else .char (Char.ofNat unit)

/-- The text that a list of code units spells. -/
def ofUnits (units : List Nat) : Text :=
  units.foldr (fun unit t => push (glyphOfUnit unit) t) []

theorem glyphOfUnit_of_basic {c : Char} (h : c.toNat < 0x10000) :
    glyphOfUnit c.toNat = .char c := by
  have free : ¬(0xD800 ≤ c.toNat ∧ c.toNat < 0xE000) := by
    have valid : c.toNat < 0xD800 ∨ (0xDFFF < c.toNat ∧ c.toNat < 0x110000) := c.valid
    omega
  simp only [glyphOfUnit]
  rw [if_neg free, Char.ofNat_toNat]

theorem push_char (c : Char) (t : Text) : push (.char c) t = .char c :: t := by
  simp [push]

end Text

end NestedPascal
