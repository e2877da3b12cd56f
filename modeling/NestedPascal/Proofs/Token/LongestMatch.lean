import Mathlib.Data.List.Infix
import Mathlib.Data.List.TakeWhile
import NestedPascal.Token.Lexeme

/-!
# The longest match

What the classes of lexemes are is told here without saying how they are read.  Going through the
classes in their order, and letting identifiers take over from keywords, finds the longest member of
any class: where two classes have a member at one place, the one listed first has the longer, unless
it is a keyword.
-/

namespace NestedPascal

theorem isLetter_ascii {c : Char} (h : isLetter c = true) : c.toNat < 0x80 := by
  simp only [isLetter, Bool.or_eq_true, Bool.and_eq_true, decide_eq_true_eq, beq_iff_eq] at h
  rcases h with (⟨-, h⟩ | ⟨-, h⟩) | rfl
  · exact Nat.lt_of_le_of_lt h (by decide)
  · exact Nat.lt_of_le_of_lt h (by decide)
  · decide

theorem isDigit_ascii {c : Char} (h : isDigit c = true) : c.toNat < 0x80 := by
  simp only [isDigit, Bool.and_eq_true, decide_eq_true_eq] at h
  exact Nat.lt_of_le_of_lt h.2 (by decide)

theorem ascii_of_toLower {c : Char} (h : c.toLower.toNat < 0x80) : c.toNat < 0x80 := by
  unfold Char.toLower at h
  split at h
  next hupper => exact Nat.lt_of_le_of_lt hupper.2 (by decide)
  next => exact h

theorem isLetter_of_toLower {c : Char} (h : isLetter c.toLower = true) : isLetter c = true := by
  have key : ∀ n : Fin 0x80,
      isLetter (Char.ofNat n).toLower = true → isLetter (Char.ofNat n) = true := by decide
  simpa only [Char.ofNat_toNat] using
    key ⟨c.toNat, ascii_of_toLower (isLetter_ascii h)⟩ (by simpa using h)

namespace Lexeme

/-- The texts of a class. -/
def Member : Lexeme → List Char → Prop
  | blank, text => text ≠ [] ∧ ∀ c ∈ text, isBlank c = true
  | comment, text => ∃ inside, text = '\x7b' :: (inside ++ ['\x7d']) ∧ '\x7d' ∉ inside
  | token (.keyword k), text => canonicalChars text = k.spelling
  | token .identifier, text =>
    ∃ first rest, text = first :: rest ∧ isLetter first = true ∧
      ∀ c ∈ rest, isLetterOrDigit c = true
  | token .realNumber, text =>
    ∃ whole fraction, text = whole ++ '.' :: fraction ∧ (whole ≠ [] ∧ ∀ c ∈ whole, isDigit c = true) ∧
      fraction ≠ [] ∧ ∀ c ∈ fraction, isDigit c = true
  | token .integerNumber, text => text ≠ [] ∧ ∀ c ∈ text, isDigit c = true
  | token (.mark m), text => text = m.spelling

/-! ## What a class reads is its longest member -/

/-- The number is the length of the longest text of a kind at the front of another text, or zero. -/
structure LongestOf (kind : List Char → Prop) (cs : List Char) (n : Nat) : Prop where
  exists_of_pos : 0 < n → ∃ text, kind text ∧ text <+: cs ∧ text.length = n
  le : ∀ text, kind text → text <+: cs → text.length ≤ n

section

variable {p : Char → Bool} {text cs rest : List Char} {stop : Char}

theorem takeWhile_append_stop (htext : ∀ c ∈ text, p c = true) (hstop : p stop = false) :
    (text ++ stop :: rest).takeWhile p = text := by
  rw [List.takeWhile_append_of_pos htext, List.takeWhile_cons_of_neg (by simp [hstop]),
    List.append_nil]

theorem dropWhile_append_stop (htext : ∀ c ∈ text, p c = true) (hstop : p stop = false) :
    (text ++ stop :: rest).dropWhile p = stop :: rest := by
  rw [List.dropWhile_append_of_pos htext, List.dropWhile_cons_of_neg (by simp [hstop])]

theorem length_le_takeWhile (htext : ∀ c ∈ text, p c = true) (hfront : text <+: cs) :
    text.length ≤ (cs.takeWhile p).length := by
  obtain ⟨rest, rfl⟩ := hfront
  rw [List.takeWhile_append_of_pos htext, List.length_append]
  exact Nat.le_add_right ..

end

theorem longestOf_run (p : Char → Bool) (cs : List Char) :
    LongestOf (fun text => text ≠ [] ∧ ∀ c ∈ text, p c = true) cs (cs.takeWhile p).length where
  exists_of_pos h :=
    ⟨cs.takeWhile p, ⟨List.length_pos_iff.mp h, fun _ => List.mem_takeWhile_imp⟩,
      List.takeWhile_prefix p, rfl⟩
  le _ htext hfront := length_le_takeWhile htext.2 hfront

theorem longestOf_comment (cs : List Char) : LongestOf comment.Member cs (commentLength cs) := by
  constructor
  · intro h
    unfold commentLength at h ⊢
    split at h
    next rest =>
      have hsplit := List.takeWhile_append_dropWhile (p := (· != '\x7d')) (l := rest)
      cases hafter : rest.dropWhile (· != '\x7d') with
      | nil =>
          rw [hafter, List.append_nil] at hsplit
          simp [hsplit] at h
      | cons stop after =>
          have hstop : stop = '\x7d' := by
            simpa [hafter] using List.head?_dropWhile_not (· != '\x7d') rest
          subst stop
          have hshorter : (rest.takeWhile (· != '\x7d')).length < rest.length := by
            rw [← congrArg List.length hsplit, hafter, List.length_append, List.length_cons]
            omega
          refine ⟨_, ⟨rest.takeWhile (· != '\x7d'), rfl, ?_⟩, ?_, ?_⟩
          · intro hmem
            simpa using List.mem_takeWhile_imp hmem
          · refine List.cons_prefix_cons.mpr ⟨rfl, after, ?_⟩
            rw [List.append_assoc, List.singleton_append, ← hafter]
            exact hsplit
          · simp [hshorter]
    next => contradiction
  · rintro text ⟨inside, rfl, hinside⟩ ⟨rest, rfl⟩
    have hinside' : ∀ c ∈ inside, (c != '\x7d') = true := by
      intro c hc
      rw [bne_iff_ne]
      rintro rfl
      exact hinside hc
    have htake : (inside ++ '\x7d' :: rest).takeWhile (· != '\x7d') = inside :=
      takeWhile_append_stop hinside' (by simp)
    simp [commentLength, htake]

theorem longestOf_identifier (cs : List Char) :
    LongestOf (token .identifier).Member cs (identifierLength cs) := by
  constructor
  · intro h
    unfold identifierLength at h ⊢
    split at h
    next c rest =>
      split at h
      next hletter =>
        refine ⟨c :: rest.takeWhile isLetterOrDigit,
          ⟨c, _, rfl, hletter, fun _ => List.mem_takeWhile_imp⟩, ?_, ?_⟩
        · exact List.cons_prefix_cons.mpr ⟨rfl, List.takeWhile_prefix _⟩
        · simp [hletter]
      next => contradiction
    next => contradiction
  · rintro text ⟨first, body, rfl, hfirst, hbody⟩ ⟨rest, rfl⟩
    have hle := length_le_takeWhile hbody (List.prefix_append body rest)
    simp only [List.cons_append, identifierLength, hfirst, if_true, List.length_cons]
    omega

theorem longestOf_real (cs : List Char) :
    LongestOf (token .realNumber).Member cs (realLength cs) := by
  constructor
  · intro h
    have hsplit := spanDigits_append cs
    unfold realLength at h ⊢
    simp only at h ⊢
    split at h
    next rest hrest =>
      split at h
      next => contradiction
      next hparts =>
        simp only [List.isEmpty_iff, not_or] at hparts
        refine ⟨(spanDigits cs).1 ++ '.' :: (spanDigits rest).1, ⟨_, _, rfl,
          ⟨hparts.1, fun _ => List.mem_takeWhile_imp⟩,
          hparts.2, fun _ => List.mem_takeWhile_imp⟩, ?_, ?_⟩
        · refine ⟨(spanDigits rest).2, ?_⟩
          rw [List.append_assoc, List.cons_append, spanDigits_append rest, ← hrest]
          exact hsplit
        · simp [hparts]
          omega
    next => contradiction
  · rintro text ⟨whole, fraction, rfl, ⟨hwhole, hdigits⟩, hfraction, hdigits'⟩ ⟨rest, rfl⟩
    have hle := length_le_takeWhile hdigits' (List.prefix_append fraction rest)
    have hspan : spanDigits (whole ++ '.' :: fraction ++ rest) = (whole, '.' :: (fraction ++ rest)) := by
      rw [List.append_assoc, List.cons_append, spanDigits,
        takeWhile_append_stop hdigits (by decide), dropWhile_append_stop hdigits (by decide)]
    have hmore : (fraction ++ rest).takeWhile isDigit ≠ [] := by
      intro hnil
      rw [hnil] at hle
      exact hfraction (List.eq_nil_of_length_eq_zero (Nat.le_zero.mp hle))
    simp only [realLength, hspan]
    simp only [spanDigits, List.isEmpty_iff, hwhole, hmore, or_self, if_false, List.length_append,
      List.length_cons]
    omega

theorem longestOf_keyword (k : Keyword) (cs : List Char) :
    LongestOf (token (.keyword k)).Member cs ((token (.keyword k)).longest cs) := by
  rw [longest]
  constructor
  · intro h
    split at h
    next hfront =>
      have hlength : (canonicalChars (cs.take k.spelling.length)).length ≤ k.spelling.length := by
        rw [canonicalChars, List.length_map]
        exact List.length_take_le ..
      have hspelled : k.spelling = canonicalChars (cs.take k.spelling.length) :=
        (List.isPrefixOf_iff_prefix.mp hfront).eq_of_length_le hlength
      refine ⟨cs.take k.spelling.length, hspelled.symm, List.take_prefix .., ?_⟩
      rw [if_pos hfront]
      have hsame := congrArg List.length hspelled
      rw [canonicalChars, List.length_map] at hsame
      exact hsame.symm
    next => contradiction
  · intro text htext hfront
    have hspelled : canonicalChars text = k.spelling := htext
    have hlength : text.length = k.spelling.length := by
      rw [← hspelled, canonicalChars, List.length_map]
    have htake : cs.take k.spelling.length = text := by
      rw [← hlength]
      exact (List.prefix_iff_eq_take.mp hfront).symm
    rw [htake, hspelled, if_pos (List.isPrefixOf_iff_prefix.mpr List.prefix_rfl), hlength]

theorem longestOf_mark (m : Mark) (cs : List Char) :
    LongestOf (token (.mark m)).Member cs ((token (.mark m)).longest cs) := by
  rw [longest]
  constructor
  · intro h
    split at h
    next hfront =>
      rw [if_pos hfront]
      exact ⟨m.spelling, rfl, List.isPrefixOf_iff_prefix.mp hfront, rfl⟩
    next => contradiction
  · rintro text rfl hfront
    rw [if_pos (List.isPrefixOf_iff_prefix.mpr hfront)]

/-- A class reads the longest of its members. -/
theorem longestOf_longest (l : Lexeme) (cs : List Char) : LongestOf l.Member cs (l.longest cs) :=
  match l with
  | blank => longestOf_run isBlank cs
  | comment => longestOf_comment cs
  | token (.keyword k) => longestOf_keyword k cs
  | token .identifier => longestOf_identifier cs
  | token .realNumber => longestOf_real cs
  | token .integerNumber => longestOf_run isDigit cs
  | token (.mark m) => longestOf_mark m cs

/-! ## Where two classes meet -/

/-- What the first character of a text tells about it. -/
inductive Opening where
  | blank
  | brace
  | word
  | number
  | sign (c : Char)
deriving DecidableEq

/-- The opening that a character makes. -/
def Opening.ofChar (c : Char) : Opening :=
  if isBlank c then blank
  else if c = '\x7b' then brace
  else if isLetter c then word
  else if isDigit c then number
  else sign c

/-- The opening of the members of a class. -/
def opening : Lexeme → Opening
  | blank => .blank
  | comment => .brace
  | token (.keyword _) => .word
  | token .identifier => .word
  | token .realNumber => .number
  | token .integerNumber => .number
  | token (.mark m) => .sign (m.spelling.headD ' ')

theorem Opening.ofChar_letter {c : Char} (h : isLetter c = true) : ofChar c = word := by
  have key : ∀ n : Fin 0x80, isLetter (Char.ofNat n) = true → ofChar (Char.ofNat n) = word := by
    decide
  simpa only [Char.ofNat_toNat] using key ⟨c.toNat, isLetter_ascii h⟩ (by simpa using h)

theorem Opening.ofChar_digit {c : Char} (h : isDigit c = true) : ofChar c = number := by
  have key : ∀ n : Fin 0x80, isDigit (Char.ofNat n) = true → ofChar (Char.ofNat n) = number := by
    decide
  simpa only [Char.ofNat_toNat] using key ⟨c.toNat, isDigit_ascii h⟩ (by simpa using h)

theorem Member.exists_cons {l : Lexeme} {text : List Char} (h : l.Member text) :
    ∃ c rest, text = c :: rest ∧ Opening.ofChar c = l.opening := by
  have digits {text : List Char} (h : text ≠ [] ∧ ∀ c ∈ text, isDigit c = true) :
      ∃ c rest, text = c :: rest ∧ Opening.ofChar c = .number := by
    obtain ⟨c, rest, rfl⟩ := List.exists_cons_of_ne_nil h.1
    exact ⟨c, rest, rfl, Opening.ofChar_digit (h.2 c List.mem_cons_self)⟩
  match l, h with
  | blank, h =>
      obtain ⟨c, rest, rfl⟩ := List.exists_cons_of_ne_nil h.1
      exact ⟨c, rest, rfl, if_pos (h.2 c List.mem_cons_self)⟩
  | comment, ⟨inside, htext, _⟩ => exact ⟨_, _, htext, by decide⟩
  | token (.keyword k), h =>
      cases text with
      | nil =>
          have hspelled : [] = k.spelling := h
          cases k <;> contradiction
      | cons c rest =>
          have hlower : isLetter c.toLower = true := by
            have hspelled : c.toLower :: canonicalChars rest = k.spelling := h
            cases k <;> (obtain ⟨hc, -⟩ := List.cons.inj hspelled; rw [hc]; decide)
          exact ⟨c, rest, rfl, Opening.ofChar_letter (isLetter_of_toLower hlower)⟩
  | token .identifier, ⟨c, rest, htext, hc, _⟩ => exact ⟨c, rest, htext, Opening.ofChar_letter hc⟩
  | token .realNumber, ⟨whole, fraction, htext, hwhole, _⟩ =>
      obtain ⟨c, rest, rfl, hc⟩ := digits hwhole
      exact ⟨c, rest ++ '.' :: fraction, htext, hc⟩
  | token .integerNumber, h => exact digits h
  | token (.mark m), h =>
      have htext : text = m.spelling := h
      subst text
      cases m <;> exact ⟨_, _, rfl, by decide⟩

theorem Member.of_keyword {k : Keyword} {text : List Char}
    (h : (token (.keyword k)).Member text) : (token .identifier).Member text := by
  have hletter : ∀ c ∈ text, isLetter c = true := by
    intro c hc
    have hlower : c.toLower ∈ k.spelling := by
      have hspelled : canonicalChars text = k.spelling := h
      exact hspelled ▸ List.mem_map_of_mem hc
    have hspelling : k.spelling.all isLetter = true := by cases k <;> decide
    exact isLetter_of_toLower (List.all_eq_true.mp hspelling _ hlower)
  obtain ⟨c, rest, rfl, -⟩ := h.exists_cons
  refine ⟨c, rest, rfl, hletter c List.mem_cons_self, fun d hd => ?_⟩
  simp [isLetterOrDigit, hletter d (List.mem_cons_of_mem c hd)]

/-- Classes with members at the front of one text have one opening. -/
theorem opening_eq {cs text text' : List Char} {l l' : Lexeme} (h : l.Member text)
    (hfront : text <+: cs) (h' : l'.Member text') (hfront' : text' <+: cs) :
    l.opening = l'.opening := by
  obtain ⟨c, rest, rfl, hopening⟩ := h.exists_cons
  obtain ⟨c', rest', rfl, hopening'⟩ := h'.exists_cons
  obtain ⟨more, rfl⟩ := hfront
  obtain ⟨hc, -⟩ := List.cons_prefix_cons.mp hfront'
  rw [← hopening, ← hopening', hc]

/-! ## The class that is found -/

theorem longest_pos_iff {l : Lexeme} {cs : List Char} :
    0 < l.longest cs ↔ ∃ text, l.Member text ∧ text <+: cs := by
  constructor
  · intro h
    obtain ⟨text, hmember, hfront, -⟩ := (longestOf_longest l cs).exists_of_pos h
    exact ⟨text, hmember, hfront⟩
  · rintro ⟨text, hmember, hfront⟩
    obtain ⟨c, rest, rfl, -⟩ := hmember.exists_cons
    exact Nat.lt_of_lt_of_le (Nat.succ_pos _) ((longestOf_longest l cs).le _ hmember hfront)

theorem mem_all : ∀ l : Lexeme, l ∈ all
  | blank => by decide
  | comment => by decide
  | token (.keyword k) => by cases k <;> decide
  | token .identifier => by decide
  | token .realNumber => by decide
  | token .integerNumber => by decide
  | token (.mark m) => by cases m <;> decide

theorem idxOf_le_of_find? {p : Lexeme → Bool} {ls : List Lexeme} {l l' : Lexeme}
    (h : ls.find? p = some l) (h' : p l' = true) : ls.idxOf l ≤ ls.idxOf l' := by
  induction ls with
  | nil => contradiction
  | cons first ls ih =>
      rw [List.find?_cons] at h
      split at h
      next =>
        obtain rfl := Option.some.inj h
        simp
      next hfirst =>
        have hne : first ≠ l' := by
          rintro rfl
          rw [h'] at hfirst
          contradiction
        have hle := ih h
        rw [List.idxOf_cons_ne ls hne, List.idxOf_cons]
        cases first == l
        · exact Nat.succ_le_succ hle
        · exact Nat.zero_le _

theorem keyword_eq_of_isPrefix {k k' : Keyword} (h : k.spelling <+: k'.spelling) : k = k' := by
  revert h
  cases k <;> cases k' <;> decide

theorem mark_meeting {m m' : Mark} (h : m.spelling.headD ' ' = m'.spelling.headD ' ')
    (hlisted : all.idxOf (token (.mark m)) ≤ all.idxOf (token (.mark m'))) :
    m = m' ∨ m = .assign ∧ m' = .colon := by
  revert h hlisted
  cases m <;> cases m' <;> decide

/-- The classes that meet, in the order in which they are listed. -/
theorem meeting {l l' : Lexeme} (h : l.opening = l'.opening)
    (hlisted : all.idxOf l ≤ all.idxOf l') :
    l = l' ∨ (∃ k k', l = token (.keyword k) ∧ l' = token (.keyword k')) ∨
      (∃ k, l = token (.keyword k) ∧ l' = token .identifier) ∨
      (l = token .realNumber ∧ l' = token .integerNumber) ∨
      (l = token (.mark .assign) ∧ l' = token (.mark .colon)) :=
  match l, l', h, hlisted with
  | blank, blank, _, _ => .inl rfl
  | comment, comment, _, _ => .inl rfl
  | token (.keyword k), token (.keyword k'), _, _ => .inr (.inl ⟨k, k', rfl, rfl⟩)
  | token (.keyword k), token .identifier, _, _ => .inr (.inr (.inl ⟨k, rfl, rfl⟩))
  | token .identifier, token (.keyword k), _, hlisted =>
      absurd hlisted (by cases k <;> decide)
  | token .identifier, token .identifier, _, _ => .inl rfl
  | token .realNumber, token .realNumber, _, _ => .inl rfl
  | token .realNumber, token .integerNumber, _, _ => .inr (.inr (.inr (.inl ⟨rfl, rfl⟩)))
  | token .integerNumber, token .realNumber, _, hlisted => absurd hlisted (by decide)
  | token .integerNumber, token .integerNumber, _, _ => .inl rfl
  | token (.mark m), token (.mark m'), h, hlisted => by
      rcases mark_meeting (Opening.sign.inj h) hlisted with rfl | ⟨rfl, rfl⟩
      · exact .inl rfl
      · exact .inr (.inr (.inr (.inr ⟨rfl, rfl⟩)))

/-- Of two classes that meet, the one listed first has the longer member, unless it is a keyword. -/
theorem longest_le_of_listed {cs : List Char} {l l' : Lexeme} (h : 0 < l.longest cs)
    (h' : 0 < l'.longest cs) (hlisted : all.idxOf l ≤ all.idxOf l') :
    l'.longest cs ≤ l.longest cs ∨ ∃ k, l = token (.keyword k) ∧ l' = token .identifier := by
  obtain ⟨text, hmember, hfront, hlength⟩ := (longestOf_longest l cs).exists_of_pos h
  obtain ⟨text', hmember', hfront', hlength'⟩ := (longestOf_longest l' cs).exists_of_pos h'
  have hopening := opening_eq hmember hfront hmember' hfront'
  rcases meeting hopening hlisted with rfl | ⟨k, k', rfl, rfl⟩ | hword | ⟨rfl, rfl⟩ | ⟨rfl, rfl⟩
  · exact .inl (Nat.le_refl _)
  · have hsame : k = k' := by
      rcases List.prefix_or_prefix_of_prefix hfront hfront' with hle | hle
      · exact keyword_eq_of_isPrefix (hmember ▸ hmember' ▸ hle.map Char.toLower)
      · exact (keyword_eq_of_isPrefix (hmember ▸ hmember' ▸ hle.map Char.toLower)).symm
    rw [hsame]
    exact .inl (Nat.le_refl _)
  · exact .inr hword
  · -- The digits of an integer end before the point of a real number.
    obtain ⟨whole, fraction, rfl, ⟨-, hwhole⟩, -, -⟩ := hmember
    obtain ⟨rest, rfl⟩ := hfront
    have hle := length_le_takeWhile hmember'.2 hfront'
    rw [List.append_assoc, List.cons_append, takeWhile_append_stop hwhole (by decide)] at hle
    rw [List.length_append] at hlength
    exact .inl (by omega)
  · obtain rfl : text = [':', '='] := hmember
    obtain rfl : text' = [':'] := hmember'
    exact .inl (by rw [← hlength, ← hlength']; decide)

/-- A class has a text at the front of another, and no text of any class is longer there.  What is
both a keyword and an identifier is a keyword. -/
structure IsLongest (l : Lexeme) (text rest : List Char) : Prop where
  member : l.Member text
  longest : ∀ (l' : Lexeme) (text' : List Char), l'.Member text' → text' <+: text ++ rest →
    text'.length ≤ text.length
  no_keyword : l = token .identifier → ∀ k : Keyword, ¬ (token (.keyword k)).Member text

/-- Which class it is where several have a text at the front of another. -/
structure Preferences (l : Lexeme) (text rest : List Char) : Prop where
  /-- The longest identifier there is, as a whole, a keyword or none. -/
  word : ∀ text', (token .identifier).Member text' → text' <+: text ++ rest →
    (token .identifier).Member text ∧ text'.length ≤ text.length ∧
      ((∃ k, l = token (.keyword k) ∧ canonicalChars text = k.spelling) ∨
        l = token .identifier ∧ ∀ k : Keyword, canonicalChars text ≠ k.spelling)
  real : ∀ text', (token .realNumber).Member text' → text' <+: text ++ rest → l = token .realNumber
  assign : [':', '='] <+: text ++ rest → l = token (.mark .assign)

/-- No class has a text at the front of another. -/
def NoneAt (cs : List Char) : Prop :=
  ∀ (l : Lexeme) (text : List Char), l.Member text → ¬ text <+: cs

theorem longerAlternative?_eq_some {l other : Lexeme} (h : l.longerAlternative? = some other) :
    ∃ k, l = token (.keyword k) ∧ other = token .identifier := by
  unfold longerAlternative? at h
  split at h
  next k => exact ⟨k, rfl, (Option.some.inj h).symm⟩
  next => contradiction

theorem longerAlternative?_eq_none {l : Lexeme} (h : l.longerAlternative? = none) (k : Keyword) :
    l ≠ token (.keyword k) := by
  rintro rfl
  contradiction

/-- What is found has the greatest length, and more than any keyword has if it is an identifier. -/
theorem greatest_of_match? {cs : List Char} {l : Lexeme} {n : Nat} (h : match? cs = some (l, n)) :
    n = l.longest cs ∧ (∀ l' : Lexeme, l'.longest cs ≤ n) ∧
      (l = token .identifier → ∀ k, (token (.keyword k)).longest cs < n) := by
  have hpositive := match?_pos h
  rw [match?, Option.map_eq_some_iff] at h
  obtain ⟨found, hfound, heq⟩ := h
  have hfoundPositive : 0 < found.longest cs := by simpa using List.find?_some hfound
  have hlisted (l' : Lexeme) (h' : 0 < l'.longest cs) : all.idxOf found ≤ all.idxOf l' :=
    idxOf_le_of_find? hfound (by simpa using h')
  have hbound (l' : Lexeme) : l'.longest cs ≤ found.longest cs ∨
      ∃ k, found = token (.keyword k) ∧ l' = token .identifier := by
    rcases Nat.eq_zero_or_pos (l'.longest cs) with hzero | h'
    · exact .inl (by omega)
    · exact longest_le_of_listed hfoundPositive h' (hlisted l' h')
  unfold orLonger at heq
  split at heq
  next other halternative =>
    obtain ⟨k, rfl, rfl⟩ := longerAlternative?_eq_some halternative
    split at heq
    next hlt =>
      obtain ⟨rfl, rfl⟩ := Prod.mk.inj heq
      refine ⟨rfl, fun l' => ?_, fun _ k' => ?_⟩
      · rcases hbound l' with hle | ⟨-, -, rfl⟩ <;> omega
      · rcases hbound (token (.keyword k')) with hle | ⟨-, -, hword⟩
        · omega
        · nomatch hword
    next hle =>
      obtain ⟨rfl, rfl⟩ := Prod.mk.inj heq
      refine ⟨rfl, fun l' => ?_, fun hword => nomatch hword⟩
      rcases hbound l' with hle' | ⟨-, -, rfl⟩ <;> omega
  next halternative =>
    obtain ⟨rfl, rfl⟩ := Prod.mk.inj heq
    refine ⟨rfl, fun l' => ?_, ?_⟩
    · rcases hbound l' with hle | ⟨k, hk, -⟩
      · exact hle
      · exact absurd hk (longerAlternative?_eq_none halternative k)
    · rintro rfl k
      by_contra hle
      have hbefore := hlisted (token (.keyword k)) (by omega)
      revert hbefore
      cases k <;> decide

theorem exists_of_match? {cs : List Char} {l : Lexeme} {n : Nat} (h : match? cs = some (l, n)) :
    ∃ text rest, cs = text ++ rest ∧ text.length = n ∧ IsLongest l text rest := by
  have hpositive := match?_pos h
  obtain ⟨hn, hmost, hkeyword⟩ := greatest_of_match? h
  obtain ⟨text, hmember, ⟨rest, rfl⟩, hlength⟩ :=
    (longestOf_longest l cs).exists_of_pos (hn ▸ hpositive)
  refine ⟨text, rest, rfl, hlength.trans hn.symm, hmember, ?_, ?_⟩
  · intro l' text' hmember' hfront'
    have hle := (longestOf_longest l' _).le text' hmember' hfront'
    have hle' := hmost l'
    omega
  · intro hl k hk
    have hle := (longestOf_longest _ _).le text hk (List.prefix_append text rest)
    have hlt := hkeyword hl k
    omega

/-- A text belongs to one class, or is both a keyword and an identifier. -/
theorem eq_of_member {l l' : Lexeme} {text : List Char} (h : l.Member text) (h' : l'.Member text)
    (hlisted : all.idxOf l ≤ all.idxOf l') :
    l = l' ∨ ∃ k, l = token (.keyword k) ∧ l' = token .identifier := by
  have hopening := opening_eq h List.prefix_rfl h' List.prefix_rfl
  rcases meeting hopening hlisted with rfl | ⟨k, k', rfl, rfl⟩ | hword | ⟨rfl, rfl⟩ | ⟨rfl, rfl⟩
  · exact .inl rfl
  · have hspelling : k.spelling = k'.spelling := h.symm.trans h'
    obtain rfl : k = k' := keyword_eq_of_isPrefix (by rw [hspelling])
    exact .inl rfl
  · exact .inr hword
  · obtain ⟨whole, fraction, rfl, -⟩ := h
    have hpoint := h'.2 '.' (by simp)
    contradiction
  · obtain rfl : text = [':', '='] := h
    have hcolon : [':', '='] = [':'] := h'
    contradiction

namespace IsLongest

variable {l l' : Lexeme} {text text' rest rest' : List Char}

/-- One class at most has the longest text at a place. -/
theorem unique (h : IsLongest l text rest) (h' : IsLongest l' text' rest')
    (hsame : text ++ rest = text' ++ rest') : l = l' ∧ text = text' := by
  have hle := h.longest l' text' h'.member (hsame ▸ List.prefix_append text' rest')
  have hge := h'.longest l text h.member (hsame ▸ List.prefix_append text rest)
  obtain ⟨rfl, -⟩ := List.append_inj hsame (by omega)
  refine ⟨?_, rfl⟩
  rcases Nat.le_total (all.idxOf l) (all.idxOf l') with hlisted | hlisted
  · rcases eq_of_member h.member h'.member hlisted with heq | ⟨k, rfl, rfl⟩
    · exact heq
    · exact absurd h.member (h'.no_keyword rfl k)
  · rcases eq_of_member h'.member h.member hlisted with heq | ⟨k, rfl, rfl⟩
    · exact heq.symm
    · exact absurd h'.member (h.no_keyword rfl k)

theorem preferences (h : IsLongest l text rest) : Preferences l text rest where
  word text' hmember hfront := by
    have hle := h.longest _ _ hmember hfront
    have hopening := opening_eq h.member (List.prefix_append ..) hmember hfront
    match l, h, hopening with
    | token (.keyword k), h, _ => exact ⟨h.member.of_keyword, hle, .inl ⟨k, rfl, h.member⟩⟩
    | token .identifier, h, _ => exact ⟨h.member, hle, .inr ⟨rfl, h.no_keyword rfl⟩⟩
  real text' hmember hfront := by
    have hle := h.longest _ _ hmember hfront
    have hopening := opening_eq h.member (List.prefix_append ..) hmember hfront
    match l, h, hopening with
    | token .realNumber, _, _ => rfl
    | token .integerNumber, h, _ =>
        obtain ⟨whole, fraction, rfl, -⟩ := hmember
        have hpoint : '.' ∈ text :=
          (List.prefix_of_prefix_length_le hfront (List.prefix_append ..) hle).subset (by simp)
        have hdigit := h.member.2 '.' hpoint
        contradiction
  assign hfront := by
    have hmember : (token (.mark .assign)).Member [':', '='] := rfl
    have hle := h.longest _ _ hmember hfront
    have hopening := opening_eq h.member (List.prefix_append ..) hmember hfront
    match l, h, hopening with
    | token (.mark m), h, hopening =>
        rcases mark_meeting (Opening.sign.inj hopening.symm) (by cases m <;> decide) with rfl | ⟨-, rfl⟩
        · rfl
        · obtain rfl : text = [':'] := h.member
          contradiction

end IsLongest

theorem match?_eq_none_iff {cs : List Char} : match? cs = none ↔ NoneAt cs := by
  rw [match?, Option.map_eq_none_iff, List.find?_eq_none]
  constructor
  · intro h l text hmember hfront
    have hpositive := longest_pos_iff.mpr ⟨text, hmember, hfront⟩
    exact h l (mem_all l) (decide_eq_true hpositive)
  · intro h l _ hpositive
    obtain ⟨text, hmember, hfront⟩ := longest_pos_iff.mp (of_decide_eq_true hpositive)
    exact h l text hmember hfront

end Lexeme

end NestedPascal
