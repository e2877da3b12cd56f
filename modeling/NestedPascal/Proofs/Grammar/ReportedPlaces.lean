import NestedPascal.Proofs.Grammar.FirstError
import NestedPascal.Proofs.Grammar.Leaves
import NestedPascal.Proofs.Token.Places

/-!
# Places that parsing reports

Whatever parsing points at is the span of a token or of a lexical error, and that span covers the
text of it in the source.
-/

namespace NestedPascal

namespace Program

variable {source : List Char} {file : String} {detailed : Bool}

/-- A parse error points at a token, unless there is none. -/
theorem location_of_ofTokens (detailed : Bool) {ts : List Token} {e : ParseError}
    (h : ofTokens file ts = .error e) :
    ∃ span : Span, (e.diagnostic file detailed ts).location = some (span.inFile file) ∧
      ((∃ t ∈ ts, span = t.span) ∨ ts = [] ∧ span = ⟨1, 1, 1, 2⟩) := by
  obtain ⟨taken, rest, rfl, hfound, -, -⟩ := stops_at_first_impossible h
  refine ⟨_, rfl, ?_⟩
  split
  next t ht =>
    left
    refine ⟨t, ?_, rfl⟩
    rcases Option.or_eq_some_iff.mp ht with hfirst | ⟨-, hlast⟩
    · rw [hfound] at hfirst
      exact List.mem_append_right _ (List.mem_of_mem_head? hfirst)
    · exact List.mem_of_getLast? hlast
  next hnone =>
    right
    exact ⟨List.getLast?_eq_none_iff.mp (Option.or_eq_none_iff.mp hnone).2, rfl⟩

theorem location_of_parse {ds : List Diagnostic} (h : parse source file detailed = .error ds) :
    ∀ d ∈ ds, ∃ span : Span, d.location = some (span.inFile file) ∧
      ((∃ e ∈ lexicalErrors source, span = e.span) ∨ (∃ t ∈ tokensOf source, span = t.span) ∨
        tokensOf source = [] ∧ span = ⟨1, 1, 1, 2⟩) := by
  simp only [parse] at h
  split at h
  next =>
    split at h
    next e herror =>
      cases h
      obtain ⟨span, hlocation, hspan⟩ := location_of_ofTokens detailed herror
      exact List.forall_mem_singleton.mpr ⟨span, hlocation, .inr hspan⟩
    next =>
      split at h
      next t ht =>
        cases h
        refine List.forall_mem_singleton.mpr ⟨t.span, rfl, .inr (.inl ⟨t, ?_, rfl⟩)⟩
        exact List.mem_of_find?_eq_some ht
      next => contradiction
  next =>
    cases h
    intro d hd
    obtain ⟨e, he, rfl⟩ := List.mem_map.mp hd
    exact ⟨e.span, rfl, .inl ⟨e, he, rfl⟩⟩

/-- Lines and columns agree with offsets: every token and every lexical error is told at the line
and the column of its offset and covers its own text and nothing else.  What parsing points at is one
of them, and so is each leaf of a tree. -/
theorem positions_agree_with_offsets (source : List Char) (file : String) (detailed : Bool) :
    (∀ t ∈ tokensOf source,
        t.span.Covers (codeUnits source) t.offset (codeUnits t.image.toList)) ∧
      (∀ e ∈ lexicalErrors source, ∃ s ∈ Segment.ofSource source, s.ReportedAs e ∧
        e.span.Covers (codeUnits source) e.place.offset (codeUnits s.text)) ∧
      (∀ ds, parse source file detailed = .error ds → ∀ d ∈ ds, ∃ span : Span,
        d.location = some (span.inFile file) ∧
          ((∃ e ∈ lexicalErrors source, span = e.span) ∨ (∃ t ∈ tokensOf source, span = t.span) ∨
            tokensOf source = [] ∧ span = ⟨1, 1, 1, 2⟩)) ∧
      ∀ p, parse source file detailed = .ok p → SpansOf (tokensOf source) p.block.leaves :=
  ⟨fun _ ht => Token.covers_of_mem ht, fun _ he => LexicalError.covers_of_mem he,
    fun _ h => location_of_parse h, fun _ h => leaves_of_parse h⟩

/-- Lines end with a carriage return and a line feed together, inside a comment, and with either
alone; the column counts both units of a pair. -/
example : (tokensOf "a\r\n\x7b\n😀\x7d b\rc".toList).map Token.span =
    [⟨1, 1, 1, 2⟩, ⟨3, 5, 3, 6⟩, ⟨4, 1, 4, 2⟩] := by decide +kernel

end Program

end NestedPascal
