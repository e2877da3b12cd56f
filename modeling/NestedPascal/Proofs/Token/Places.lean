import NestedPascal.Proofs.Text.Lines
import NestedPascal.Proofs.Text.Spans
import NestedPascal.Proofs.Token.Layout

/-!
# Places of tokens

The place of each segment is kept up to date over blanks, comments and dropped runs.  No segment
ends between a carriage return and its line feed, so that its line and its column are those of its
offset; and no line ends within a token or a dropped run, so that its span covers its text and
nothing else.
-/

namespace NestedPascal

open Lexeme (IsLongest NoneAt)

/-- A span on one line that covers a text of a source, which starts at an offset. -/
structure Span.Covers (s : Span) (units : List Nat) (offset : Nat) (text : List Nat) : Prop where
  covered : (units.drop offset).take text.length = text
  startLine : s.startLine = lineOf units offset
  startColumn : s.startColumn = columnOf units offset
  endLine : s.endLine = s.startLine
  endColumn : s.endColumn = s.startColumn + text.length
  /-- The units whose places lie in the span are those of the text. -/
  exact : ∀ k, s.first ≤ placeOf units k ∧ placeOf units k < s.stop ↔
    offset ≤ k ∧ k < offset + text.length

/-! ## Positions that are kept up to date -/

namespace Position

variable {units : List Nat} {p : Position}

/-- The line and the column of a position are those of its offset. -/
structure Agrees (units : List Nat) (p : Position) : Prop where
  line : p.line = lineOf units p.offset
  column : p.column = columnOf units p.offset

theorem agrees_start (units : List Nat) : start.Agrees units := by
  constructor <;> rfl

theorem Agrees.next (h : p.Agrees units) (hnot : ¬ EndsLine units (p.offset + 1)) :
    Agrees units ⟨p.offset + 1, p.line, p.column + 1⟩ where
  line := h.line.trans (lineOf_succ_of_not hnot).symm
  column := by rw [columnOf_succ_of_not hnot, h.column]

theorem Agrees.newline (h : p.Agrees units) (hends : EndsLine units (p.offset + 1)) :
    Agrees units ⟨p.offset + 1, p.line + 1, 1⟩ where
  line := by rw [lineOf_succ_of_endsLine hends, h.line]
  column := (columnOf_succ_of_endsLine hends).symm

/-- A position stays up to date over a text that does not part a line end from what follows it. -/
theorem Agrees.advance {text rest : List Char} (h : p.Agrees units)
    (hunits : units.drop p.offset = codeUnits (text ++ rest)) (hwhole : ¬ PartsLineEnd text rest) :
    (p.advance text).Agrees units := by
  fun_induction Position.advance p text with
  | case1 p => exact h
  | case2 p text ih =>
      have hreturn : units.drop p.offset = carriageReturn :: lineFeed :: codeUnits (text ++ rest) :=
        hunits
      have hfeed := drop_succ_of_drop hreturn
      -- The line does not end between the two.
      have hnot : ¬ EndsLine units (p.offset + 1) := by
        rw [endsLine_succ_iff hreturn, List.head?_cons]
        decide
      have hends : EndsLine units (p.offset + 1 + 1) := (endsLine_succ_iff hfeed).mpr (.inl rfl)
      exact ih ((h.next hnot).newline hends) (drop_succ_of_drop hfeed)
        fun hparts => hwhole hparts.cons.cons
  | case3 p c text hpair hbreak ih =>
      have hbasic : c.toNat < 0x10000 := by
        rcases hbreak with rfl | rfl <;> decide
      rw [List.cons_append, codeUnits_of_basic _ hbasic] at hunits
      have hends : EndsLine units (p.offset + 1) := by
        rw [endsLine_succ_iff hunits]
        rcases hbreak with rfl | rfl
        · exact .inl rfl
        · refine .inr ⟨rfl, head?_codeUnits_ne_lineFeed fun after hafter => ?_⟩
          cases text with
          | nil => exact hwhole ⟨[], after, rfl, hafter⟩
          | cons d text =>
              obtain ⟨rfl, -⟩ := List.cons.inj hafter
              exact hpair text rfl rfl
      exact ih (h.newline hends) (drop_succ_of_drop hunits) fun hparts => hwhole hparts.cons
  | case4 p c text hpair hbreak ih =>
      have hfeed : c.toNat ≠ lineFeed := fun hc => hbreak (.inl (Char.toNat_inj.mp hc))
      have hreturn : c.toNat ≠ carriageReturn := fun hc => hbreak (.inr (Char.toNat_inj.mp hc))
      by_cases hbasic : c.toNat < 0x10000
      · rw [List.cons_append, codeUnits_of_basic _ hbasic] at hunits
        have hnot : ¬ EndsLine units (p.offset + 1) := by
          rw [endsLine_succ_iff hunits]
          simp [hfeed, hreturn]
        simp only [unitWidth, if_pos hbasic] at ih ⊢
        exact ih (h.next hnot) (drop_succ_of_drop hunits) fun hparts => hwhole hparts.cons
      · have hline : lineFeed = 10 ∧ carriageReturn = 13 := ⟨rfl, rfl⟩
        rw [List.cons_append, codeUnits_of_beyond _ hbasic] at hunits
        have hlow := drop_succ_of_drop hunits
        have hnot : ¬ EndsLine units (p.offset + 1) := by
          rw [endsLine_succ_iff hunits]
          omega
        have hnot' : ¬ EndsLine units (p.offset + 1 + 1) := by
          rw [endsLine_succ_iff hlow]
          omega
        simp only [unitWidth, if_neg hbasic] at ih ⊢
        exact ih ((h.next hnot).next hnot') (drop_succ_of_drop hlow)
          fun hparts => hwhole hparts.cons

/-- Over a text without line breaks a position stays on its line. -/
theorem advance_of_unbroken {text : List Char} (h : ∀ c ∈ text, c ≠ '\n' ∧ c ≠ '\r') :
    p.advance text = ⟨p.offset + unitLength text, p.line, p.column + unitLength text⟩ := by
  induction text generalizing p with
  | nil => rfl
  | cons c text ih =>
      obtain ⟨⟨hfeed, hreturn⟩, htext⟩ := List.forall_mem_cons.mp h
      rw [Position.advance, if_neg (by simp [hfeed, hreturn]), ih htext, unitLength_cons,
        Nat.add_assoc, Nat.add_assoc]
      intro _ hc
      exact absurd hc hreturn

end Position

/-! ## Line ends and segments -/

theorem not_noneAt_blank {c : Char} (hc : isBlank c = true) (rest : List Char) :
    ¬ NoneAt (c :: rest) := by
  intro hnone
  have hmember : Lexeme.blank.Member [c] :=
    ⟨List.cons_ne_nil c [], by simpa using hc⟩
  exact hnone .blank [c] hmember (List.prefix_append [c] rest)

theorem IsDropped.isBlank_eq_false {text rest : List Char} (h : IsDropped text rest) :
    ∀ c ∈ text, isBlank c = false := by
  intro c hc
  obtain ⟨before, after, rfl⟩ := List.append_of_mem hc
  cases hblank : isBlank c with
  | false => rfl
  | true =>
      have hnone := h.noneInside (c :: after) (List.cons_ne_nil c after) (List.suffix_append ..)
      exact absurd hnone (not_noneAt_blank hblank _)

namespace SegmentKind

/-- Tokens and dropped runs, not what may stand between them. -/
def IsInline : SegmentKind → Prop
  | lexeme (.token _) => True
  | lexeme _ => False
  | dropped => True

/-- Neither tokens nor dropped runs hold blanks. -/
theorem Takes.isBlank_eq_false {kind : SegmentKind} {text rest : List Char}
    (h : kind.Takes text rest) (hinline : kind.IsInline) : ∀ c ∈ text, isBlank c = false := by
  match kind, h with
  | lexeme (.token k), h =>
      intro c hc
      exact (Bool.or_eq_false_iff.mp (IsLongest.member h |>.startsGap_eq_false c hc)).1
  | dropped, h => exact IsDropped.isBlank_eq_false h

theorem Takes.unbroken {kind : SegmentKind} {text rest : List Char} (h : kind.Takes text rest)
    (hinline : kind.IsInline) : ∀ c ∈ text, c ≠ '\n' ∧ c ≠ '\r' := by
  intro c hc
  have hblank := h.isBlank_eq_false hinline c hc
  constructor
  · rintro rfl
    contradiction
  · rintro rfl
    contradiction

/-- No segment ends between a carriage return and its line feed. -/
theorem Takes.not_partsLineEnd {kind : SegmentKind} {text rest : List Char}
    (h : kind.Takes text rest) : ¬ PartsLineEnd text rest := by
  rintro ⟨before, after, rfl, rfl⟩
  match kind, h with
  | lexeme .blank, h =>
      have hfeed := IsLongest.not_isBlank h '\n' rfl
      contradiction
  | lexeme .comment, h =>
      obtain ⟨inside, htext, -⟩ := IsLongest.member h
      have hlast := congrArg List.getLast? htext
      rw [List.getLast?_concat, ← List.cons_append, List.getLast?_concat] at hlast
      contradiction
  | lexeme (.token k), h =>
      exact absurd rfl (h.unbroken trivial '\r' (by simp)).2
  | dropped, h =>
      exact absurd rfl (h.unbroken trivial '\r' (by simp)).2

end SegmentKind

/-! ## Places of segments -/

theorem codeUnits_append (front back : List Char) :
    codeUnits (front ++ back) = codeUnits front ++ codeUnits back :=
  List.flatMap_append

namespace Segment

variable {units : List Nat} {s : Segment}

/-- The segment stands in the units of a source where its place says. -/
structure Placed (units : List Nat) (s : Segment) : Prop where
  agrees : s.place.Agrees units
  takes : ∃ rest, units.drop s.place.offset = codeUnits (s.text ++ rest) ∧ s.kind.Takes s.text rest

theorem drop_advance {place : Position} {text rest : List Char}
    (h : units.drop place.offset = codeUnits (text ++ rest)) :
    units.drop (place.advance text).offset = codeUnits rest := by
  rw [offset_advance, ← List.drop_drop, h, codeUnits_append, ← length_codeUnits, List.drop_left]

theorem placed_of_cut {place : Position} {cs : List Char}
    (hunits : units.drop place.offset = codeUnits cs) (hplace : place.Agrees units) :
    ∀ s ∈ cut place cs, s.Placed units := by
  fun_induction cut place cs with
  | case1 => exact fun _ hs => absurd hs List.not_mem_nil
  | case2 place c rest text ih =>
      have htakes := takes_first c rest
      rw [← List.take_append_drop (first c rest).2 (c :: rest)] at hunits
      have hnext := ih (drop_advance hunits) (hplace.advance hunits htakes.not_partsLineEnd)
      exact List.forall_mem_cons.mpr ⟨⟨hplace, _, hunits, htakes⟩, hnext⟩

theorem placed_of_mem {source : List Char} (hs : s ∈ ofSource source) :
    s.Placed (codeUnits source) :=
  placed_of_cut rfl (Position.agrees_start _) s hs

theorem Placed.first_eq (h : s.Placed units) : s.span.first = placeOf units s.place.offset := by
  rw [Span.first, span, h.agrees.line, h.agrees.column, placeOf]

theorem Placed.agrees_advance (h : s.Placed units) : (s.place.advance s.text).Agrees units := by
  obtain ⟨rest, hunits, htakes⟩ := h.takes
  exact h.agrees.advance hunits htakes.not_partsLineEnd

/-- A token or a dropped run stops at the place of the offset after it. -/
theorem Placed.stop_eq (h : s.Placed units) (hinline : s.kind.IsInline) :
    s.span.stop = placeOf units (s.place.offset + unitLength s.text) := by
  obtain ⟨rest, -, htakes⟩ := h.takes
  have hafter := h.agrees_advance
  rw [Position.advance_of_unbroken (htakes.unbroken hinline)] at hafter
  rw [Span.stop, span, placeOf, ← hafter.line, ← hafter.column]

theorem Placed.covers (h : s.Placed units) (hinline : s.kind.IsInline) :
    s.span.Covers units s.place.offset (codeUnits s.text) where
  covered := by
    obtain ⟨rest, hunits, -⟩ := h.takes
    rw [hunits, codeUnits_append, List.take_left]
  startLine := h.agrees.line
  startColumn := h.agrees.column
  endLine := rfl
  endColumn := by rw [length_codeUnits, span]
  exact k := by
    rw [h.first_eq, h.stop_eq hinline, (placeOf_strictMono units).le_iff_le,
      (placeOf_strictMono units).lt_iff_lt, length_codeUnits]

theorem Placed.place_lt (h : s.Placed units) :
    placeOf units s.place.offset < placeOf units (s.place.offset + unitLength s.text) := by
  obtain ⟨rest, -, htakes⟩ := h.takes
  exact placeOf_strictMono units (Nat.lt_add_of_pos_right (unitLength_pos htakes.ne_nil))

/-- A token lies between the place of its offset and that of the offset after it. -/
theorem Placed.token_places (h : s.Placed units) {t : Token} (ht : s.token? = some t) :
    t.span.first = placeOf units s.place.offset ∧
      t.span.stop = placeOf units (s.place.offset + unitLength s.text) := by
  obtain ⟨hkind, heq⟩ := token?_eq_some ht
  rw [heq]
  exact ⟨h.first_eq, h.stop_eq (by rw [hkind]; trivial)⟩

end Segment

/-! ## Places that are reported -/

section

variable {source : List Char}

theorem exists_segment_of_error {e : LexicalError} (he : e ∈ lexicalErrors source) :
    ∃ s ∈ Segment.ofSource source, s.kind = .dropped ∧ s.ReportedAs e ∧ e.span = s.span := by
  obtain ⟨s, hs, hreported⟩ := List.mem_filterMap.mp he
  refine ⟨s, hs, ?_⟩
  unfold Segment.error? at hreported
  split at hreported
  next c rest hkind htext =>
    cases hreported
    exact ⟨hkind, ⟨hkind, rfl, by rw [htext]⟩, rfl⟩
  next => contradiction

theorem Token.covers_of_mem {t : Token} (ht : t ∈ tokensOf source) :
    t.span.Covers (codeUnits source) t.offset (codeUnits t.image.toList) := by
  obtain ⟨s, hs, hemitted⟩ := List.mem_filterMap.mp ht
  obtain ⟨hkind, heq⟩ := Segment.token?_eq_some hemitted
  rw [heq, String.toList_ofList]
  exact (Segment.placed_of_mem hs).covers (by rw [hkind]; trivial)

theorem LexicalError.covers_of_mem {e : LexicalError} (he : e ∈ lexicalErrors source) :
    ∃ s ∈ Segment.ofSource source, s.ReportedAs e ∧
      e.span.Covers (codeUnits source) e.place.offset (codeUnits s.text) := by
  obtain ⟨s, hs, hkind, hreported, hspan⟩ := exists_segment_of_error he
  refine ⟨s, hs, hreported, ?_⟩
  rw [hspan, hreported.place]
  exact (Segment.placed_of_mem hs).covers (by rw [hkind]; trivial)

end

end NestedPascal
