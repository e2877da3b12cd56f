import NestedPascal.Proofs.Text.LetterCase
import NestedPascal.Proofs.Token.Decomposition
import NestedPascal.Proofs.Tree.Relabelling

/-!
# Lexing and the case of letters

Each class has as long a member at the front of a text as at the front of the same text in lower
case.  So both are cut at the same places into segments of the same kinds, and the tokens of the
latter are those of the former in lower case.  Dropped input has no letters, and so the lexical
errors are the same.
-/

namespace NestedPascal

/-! ## Lexemes -/

namespace Lexeme

variable (cs : List Char)

theorem spanDigits_canonicalChars :
    spanDigits (canonicalChars cs) =
      (canonicalChars (spanDigits cs).1, canonicalChars (spanDigits cs).2) := by
  rw [spanDigits, takeWhile_canonicalChars isDigit_toLower, dropWhile_canonicalChars isDigit_toLower,
    spanDigits]

theorem identifierLength_canonicalChars :
    identifierLength (canonicalChars cs) = identifierLength cs := by
  cases cs with
  | nil => rfl
  | cons c rest =>
      have hboth : ∀ d : Char, isLetterOrDigit d.toLower = isLetterOrDigit d := by
        simp [isLetterOrDigit]
      simp [identifierLength, takeWhile_canonicalChars hboth]

theorem commentLength_canonicalChars : commentLength (canonicalChars cs) = commentLength cs := by
  have hclosing : ∀ d : Char, (d.toLower != '\x7d') = (d != '\x7d') := by
    intro d
    simp only [bne, beq_eq_decide, toLower_eq_iff (d := '\x7d') (by decide)]
  cases cs with
  | nil => rfl
  | cons c rest =>
      rw [canonicalChars_cons]
      by_cases hopen : c = '\x7b'
      · subst c
        rw [toLower_of_not_letter (by decide)]
        simp only [commentLength, takeWhile_canonicalChars (p := (· != '\x7d')) hclosing,
          length_canonicalChars]
      · have hopen' : c.toLower ≠ '\x7b' := fun h => hopen ((toLower_eq_iff (by decide)).mp h)
        simp [commentLength, hopen, hopen']

theorem realLength_canonicalChars : realLength (canonicalChars cs) = realLength cs := by
  simp only [realLength, spanDigits_canonicalChars]
  cases hrest : (spanDigits cs).2 with
  | nil => rfl
  | cons c rest =>
      by_cases hpoint : c = '.'
      · subst c
        rw [canonicalChars_cons, toLower_of_not_letter (by decide)]
        simp only [spanDigits_canonicalChars, length_canonicalChars, isEmpty_canonicalChars]
      · have hpoint' : c.toLower ≠ '.' := fun h => hpoint ((toLower_eq_iff (by decide)).mp h)
        simp [hpoint, hpoint']

theorem isPrefixOf_canonicalChars (m : Mark) :
    m.spelling.isPrefixOf (canonicalChars cs) = m.spelling.isPrefixOf cs := by
  have hno : ∀ d ∈ m.spelling, isLetter d = false := by
    have hall : m.spelling.all (!isLetter ·) = true := by cases m <;> decide
    simpa using hall
  generalize m.spelling = spelling at hno
  induction spelling generalizing cs with
  | nil => rfl
  | cons d spelling ih =>
      obtain ⟨hd, hspelling⟩ := List.forall_mem_cons.mp hno
      cases cs with
      | nil => rfl
      | cons c cs =>
          have hsame : (d == c.toLower) = (d == c) := by
            simp only [beq_eq_decide, eq_comm (a := d), toLower_eq_iff hd]
          rw [canonicalChars_cons, List.isPrefixOf_cons_cons, hsame, ih cs hspelling,
            List.isPrefixOf_cons_cons]

theorem longest_canonicalChars (l : Lexeme) : l.longest (canonicalChars cs) = l.longest cs := by
  cases l with
  | blank =>
      rw [longest, takeWhile_canonicalChars isBlank_toLower, length_canonicalChars, longest]
  | comment => exact commentLength_canonicalChars cs
  | token kind =>
      cases kind with
      | keyword k =>
          rw [longest, take_canonicalChars, canonicalChars_canonicalChars, longest]
      | identifier => exact identifierLength_canonicalChars cs
      | realNumber => exact realLength_canonicalChars cs
      | integerNumber =>
          rw [longest, spanDigits_canonicalChars, length_canonicalChars, longest]
      | mark m => rw [longest, isPrefixOf_canonicalChars, longest]

theorem match?_canonicalChars : match? (canonicalChars cs) = match? cs := by
  have horLonger : ∀ l : Lexeme, l.orLonger (canonicalChars cs) = l.orLonger cs := by
    intro l
    simp [orLonger, longest_canonicalChars]
  simp [match?, longest_canonicalChars, horLonger]

end Lexeme

/-! ## Places -/

/-- Whether a line ends with both of its characters does not depend on case. -/
theorem crlf_of_canonicalChars {c : Char} {cs rest : List Char} (hc : c.toLower = '\r')
    (hcs : canonicalChars cs = '\n' :: rest) : c = '\r' ∧ ∃ rest, cs = '\n' :: rest := by
  cases cs with
  | nil => contradiction
  | cons d cs =>
      rw [canonicalChars_cons, List.cons.injEq] at hcs
      exact ⟨(toLower_eq_iff (by decide)).mp hc, cs,
        by rw [(toLower_eq_iff (by decide)).mp hcs.1]⟩

theorem Position.advance_canonicalChars (place : Position) (cs : List Char) :
    place.advance (canonicalChars cs) = place.advance cs := by
  fun_induction Position.advance place cs with
  | case1 => rfl
  | case2 p rest ih => exact ih
  | case3 p c rest hcrlf hend ih =>
      have hsame : c.toLower = c := by rcases hend with rfl | rfl <;> rfl
      rw [canonicalChars_cons, hsame, Position.advance, if_pos hend, ih]
      intro rest' hc hrest
      obtain ⟨hc, rest', hrest⟩ := crlf_of_canonicalChars (hsame.trans hc) hrest
      exact hcrlf rest' hc hrest
  | case4 p c rest hcrlf hend ih =>
      have hend' : ¬ (c.toLower = '\n' ∨ c.toLower = '\r') := by
        rw [toLower_eq_iff (by decide), toLower_eq_iff (by decide)]
        exact hend
      rw [canonicalChars_cons, Position.advance, if_neg hend', unitWidth_toLower, ih]
      intro rest' hc hrest
      obtain ⟨hc, rest', hrest⟩ := crlf_of_canonicalChars hc hrest
      exact hcrlf rest' hc hrest

/-! ## Segments -/

namespace Segment

/-- The segment in lower case. -/
def lower (s : Segment) : Segment :=
  { s with text := canonicalChars s.text }

theorem droppedRun_canonicalChars (cs : List Char) :
    droppedRun (canonicalChars cs) = canonicalChars (droppedRun cs) := by
  induction cs with
  | nil => rfl
  | cons c rest ih =>
      rw [canonicalChars_cons, droppedRun, ← canonicalChars_cons, Lexeme.match?_canonicalChars,
        droppedRun]
      split
      next => rfl
      next => rw [ih, canonicalChars_cons]

theorem first_canonicalChars (c : Char) (rest : List Char) :
    first c.toLower (canonicalChars rest) = first c rest := by
  have hmatch := Lexeme.match?_canonicalChars (c :: rest)
  rw [canonicalChars_cons] at hmatch
  unfold first
  rw [hmatch, droppedRun_canonicalChars, length_canonicalChars]

theorem cut_canonicalChars (place : Position) (cs : List Char) :
    cut place (canonicalChars cs) = (cut place cs).map lower := by
  fun_induction cut place cs with
  | case1 => rw [canonicalChars_nil, cut, List.map_nil]
  | case2 place c rest text ih =>
      rw [canonicalChars_cons, cut, first_canonicalChars, ← canonicalChars_cons,
        take_canonicalChars, drop_canonicalChars, place.advance_canonicalChars, ih, List.map_cons,
        lower]

theorem ofSource_canonicalChars (source : List Char) :
    ofSource (canonicalChars source) = (ofSource source).map lower :=
  cut_canonicalChars .start source

/-- No lexeme starts in dropped input, and one does at every letter. -/
theorem lower_of_dropped {source : List Char} {s : Segment} (hs : s ∈ ofSource source)
    (hkind : s.kind = .dropped) : s.lower = s := by
  obtain ⟨rest, htakes⟩ := takes_of_mem hs
  rw [hkind] at htakes
  have hdropped : IsDropped s.text rest := htakes
  have htext : canonicalChars s.text = s.text := by
    refine canonicalChars_of_no_letter fun c hc => ?_
    by_contra hletter
    obtain ⟨before, after, hsplit⟩ := List.append_of_mem hc
    have hnone := hdropped.noneInside (c :: after) (List.cons_ne_nil c after)
      (hsplit ▸ List.suffix_append before (c :: after))
    exact hnone (.token .identifier) [c] ⟨c, [], rfl, by simpa using hletter, by simp⟩
      (List.cons_prefix_cons.mpr ⟨rfl, List.nil_prefix⟩)
  rw [lower, htext]

end Segment

/-! ## Tokens and errors -/

/-- Names in lower case, and places as they are. -/
def Relabelling.lowerCase : Relabelling where
  span := id
  text name := String.ofList (canonicalChars name.toList)
  span_to _ _ := rfl
  canonicalName_text := canonicalName_canonicalChars

theorem tokensOf_canonicalChars (source : List Char) :
    tokensOf (canonicalChars source) = (tokensOf source).map (·.relabel .lowerCase) := by
  have htoken (s : Segment) : s.lower.token? = s.token?.map (·.relabel .lowerCase) := by
    obtain ⟨kind, text, place⟩ := s
    simp only [Segment.token?, Segment.lower]
    split
    next => simp [Segment.span, Token.relabel, Relabelling.lowerCase]
    next => rfl
  rw [tokensOf, Segment.ofSource_canonicalChars, List.filterMap_map, tokensOf, List.map_filterMap]
  exact congrArg (List.filterMap · _) (funext htoken)

theorem lexicalErrors_canonicalChars (source : List Char) :
    lexicalErrors (canonicalChars source) = lexicalErrors source := by
  rw [lexicalErrors, Segment.ofSource_canonicalChars, List.filterMap_map, lexicalErrors]
  refine List.filterMap_congr fun s hs => ?_
  by_cases hkind : s.kind = .dropped
  · rw [Function.comp_apply, Segment.lower_of_dropped hs hkind]
  · have hnone (s : Segment) (h : s.kind ≠ .dropped) : s.error? = none := by
      unfold Segment.error?
      split
      next hdropped _ => exact absurd hdropped h
      next => rfl
    rw [Function.comp_apply, hnone s hkind, hnone s.lower hkind]

theorem isLetter_of_isDigit {c : Char} (h : isDigit c = true) : isLetter c = false := by
  have key : ∀ n : Fin 0x80,
      isDigit (Char.ofNat n) = true → isLetter (Char.ofNat n) = false := by decide
  simpa only [Char.ofNat_toNat] using key ⟨c.toNat, isDigit_ascii h⟩ (by simpa using h)

theorem Lexeme.no_letter_of_numeral {kind : TokenKind} {text : List Char}
    (h : (token kind).Member text) (hkind : kind = .integerNumber ∨ kind = .realNumber) :
    ∀ c ∈ text, isLetter c = false := by
  rcases hkind with rfl | rfl
  · exact fun c hc => isLetter_of_isDigit (h.2 c hc)
  · obtain ⟨whole, fraction, rfl, ⟨-, hwhole⟩, -, hfraction⟩ := h
    intro c hc
    rw [List.mem_append, List.mem_cons] at hc
    rcases hc with hc | rfl | hc
    · exact isLetter_of_isDigit (hwhole c hc)
    · decide
    · exact isLetter_of_isDigit (hfraction c hc)

theorem keepsNumerals_tokensOf (source : List Char) :
    Relabelling.lowerCase.KeepsNumerals (tokensOf source) := by
  intro t ht hnumeral
  obtain ⟨s, hs, htoken⟩ := List.mem_filterMap.mp ht
  obtain ⟨rest, htakes⟩ := Segment.takes_of_mem hs
  unfold Segment.token? at htoken
  split at htoken
  next kind hkind =>
    rw [hkind] at htakes
    obtain rfl := Option.some.inj htoken
    have hno := Lexeme.no_letter_of_numeral htakes.member hnumeral
    simp [Relabelling.lowerCase, canonicalChars_of_no_letter hno]
  next => contradiction

end NestedPascal
