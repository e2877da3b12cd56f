import Mathlib.Data.List.Forall2
import NestedPascal.Grammar.Program
import NestedPascal.Proofs.Token.Decomposition

/-!
# Lexing

The tokens and the lexical errors of a source are segments of it, in order, and a source with an
error among its segments is refused with all of them.
-/

namespace NestedPascal

open Lexeme (IsLongest)

def SegmentKind.isToken : SegmentKind → Bool
  | lexeme (.token _) => true
  | _ => false

/-- The token is a segment as it stands in the source. -/
structure Segment.EmittedAs (s : Segment) (t : Token) : Prop where
  kind : s.kind = .lexeme (.token t.kind)
  image : t.image.toList = s.text
  offset : t.offset = s.place.offset

/-- The error is about the whole of a segment. -/
structure Segment.ReportedAs (s : Segment) (e : LexicalError) : Prop where
  kind : s.kind = .dropped
  place : e.place = s.place
  count : e.count = unitLength s.text

theorem Segment.token?_eq_some {s : Segment} {t : Token} (h : s.token? = some t) :
    s.kind = .lexeme (.token t.kind) ∧
      t = ⟨t.kind, String.ofList s.text, s.place.offset, s.span⟩ := by
  unfold token? at h
  split at h
  next kind hkind =>
    cases h
    exact ⟨hkind, rfl⟩
  next => contradiction

theorem forall₂_filterMap {α β : Type} {R : α → β → Prop} {p : α → Bool} {f : α → Option β}
    {as : List α} (hin : ∀ a ∈ as, p a = true → ∃ b, f a = some b ∧ R a b)
    (hout : ∀ a ∈ as, p a = false → f a = none) :
    List.Forall₂ R (as.filter p) (as.filterMap f) := by
  induction as with
  | nil => exact .nil
  | cons a as ih =>
      have ih := ih (fun b hb => hin b (List.mem_cons_of_mem a hb))
        (fun b hb => hout b (List.mem_cons_of_mem a hb))
      cases ha : p a with
      | true =>
          obtain ⟨b, hb, hR⟩ := hin a List.mem_cons_self ha
          rw [List.filter_cons_of_pos ha, List.filterMap_cons_some hb]
          exact .cons hR ih
      | false =>
          rw [List.filter_cons_of_neg (by simp [ha]),
            List.filterMap_cons_none (hout a List.mem_cons_self ha)]
          exact ih

theorem tokensOf_emitted (source : List Char) :
    List.Forall₂ Segment.EmittedAs ((Segment.ofSource source).filter (·.kind.isToken))
      (tokensOf source) := by
  refine forall₂_filterMap (fun s _ hs => ?_) (fun s _ hs => ?_)
  · match s, hs with
    | ⟨.lexeme (.token kind), text, place⟩, _ => exact ⟨_, rfl, rfl, String.toList_ofList, rfl⟩
  · unfold Segment.token?
    split
    next kind hkind => simp [hkind, SegmentKind.isToken] at hs
    next => rfl

theorem lexicalErrors_reported (source : List Char) :
    List.Forall₂ Segment.ReportedAs ((Segment.ofSource source).filter (·.kind = .dropped))
      (lexicalErrors source) := by
  refine forall₂_filterMap (fun s hmem hs => ?_) (fun s _ hs => ?_)
  · obtain ⟨rest, htakes⟩ := Segment.takes_of_mem hmem
    obtain ⟨c, text, htext⟩ := List.exists_cons_of_ne_nil htakes.ne_nil
    have hkind : s.kind = .dropped := of_decide_eq_true hs
    exact ⟨_, by rw [Segment.error?, hkind, htext], hkind, rfl, by rw [htext]⟩
  · unfold Segment.error?
    split
    next hkind _ => simp [hkind] at hs
    next => rfl

/-- The diagnostic is that of a lexical error about a segment. -/
structure Segment.DiagnosedAs (file : String) (s : Segment) (d : Diagnostic) : Prop where
  code : d.code = some "E_LEX"
  location : d.location = some (s.span.inFile file)
  message : ∃ e, s.ReportedAs e ∧ d.message = e.message

theorem Segment.ReportedAs.diagnosed {s : Segment} {e : LexicalError} (h : s.ReportedAs e)
    (file : String) : s.DiagnosedAs file (e.diagnostic file) where
  code := rfl
  location := by
    rw [LexicalError.diagnostic, LexicalError.span, Segment.span, h.place, h.count]
  message := ⟨e, h, rfl⟩

namespace Program

variable (source : List Char) (file : String) (detailed : Bool)

theorem parse_of_dropped
    (h : (Segment.ofSource source).filter (·.kind = .dropped) ≠ []) :
    ∃ ds, parse source file detailed = .error ds ∧
      List.Forall₂ (Segment.DiagnosedAs file)
        ((Segment.ofSource source).filter (·.kind = .dropped)) ds := by
  have hreported := lexicalErrors_reported source
  have hsome : lexicalErrors source ≠ [] := by
    intro hnone
    rw [hnone] at hreported
    exact h (List.forall₂_nil_right_iff.mp hreported)
  refine ⟨(lexicalErrors source).map (LexicalError.diagnostic file), ?_, ?_⟩
  · simp [parse, hsome]
  · rw [List.forall₂_map_right_iff]
    exact hreported.imp fun _ _ he => he.diagnosed file

theorem parse_of_no_dropped
    (h : (Segment.ofSource source).filter (·.kind = .dropped) = []) {ds : List Diagnostic}
    (hparse : parse source file detailed = .error ds) : ∀ d ∈ ds, d.code ≠ some "E_LEX" := by
  have hreported := lexicalErrors_reported source
  rw [h] at hreported
  have hnone : lexicalErrors source = [] := List.forall₂_nil_left_iff.mp hreported
  have hcode : ErrorCode.parse.text ≠ "E_LEX" := by decide
  simp only [parse, hnone, List.isEmpty_nil, if_true] at hparse
  split at hparse
  next =>
    obtain rfl := Except.error.inj hparse
    simpa [ParseError.diagnostic] using hcode
  next =>
    split at hparse
    next =>
      obtain rfl := Except.error.inj hparse
      simpa [Token.rangeDiagnostic] using hcode
    next => contradiction

/-- Lexing takes a source apart in the one way in which every piece is the longest lexeme at its
place or a run in which none starts.  Its tokens and errors are pieces in their order, and if there
is an error, parsing reports these errors and nothing else. -/
theorem lexing_is_longest_match :
    (∀ pieces, Decomposes source pieces ↔
        pieces = (Segment.ofSource source).map fun s => (s.kind, s.text)) ∧
      (Segment.ofSource source).flatMap (·.text) = source ∧
      (∀ before s after, Segment.ofSource source = before ++ s :: after →
        s.place.offset = unitLength (before.flatMap (·.text))) ∧
      (∀ l text rest, IsLongest l text rest → l.Preferences text rest) ∧
      List.Forall₂ Segment.EmittedAs ((Segment.ofSource source).filter (·.kind.isToken))
        (tokensOf source) ∧
      List.Forall₂ Segment.ReportedAs ((Segment.ofSource source).filter (·.kind = .dropped))
        (lexicalErrors source) ∧
      ((Segment.ofSource source).filter (·.kind = .dropped) ≠ [] →
        ∃ ds, parse source file detailed = .error ds ∧
          List.Forall₂ (Segment.DiagnosedAs file)
            ((Segment.ofSource source).filter (·.kind = .dropped)) ds) ∧
      ((Segment.ofSource source).filter (·.kind = .dropped) = [] →
        ∀ ds, parse source file detailed = .error ds → ∀ d ∈ ds, d.code ≠ some "E_LEX") := by
  have hdecomposes := Segment.decomposes_cut .start source
  refine ⟨fun pieces => Segment.decomposes_iff, ?_, ?_, fun l text rest h => h.preferences,
    tokensOf_emitted source, lexicalErrors_reported source, parse_of_dropped source file detailed,
    fun h ds hparse => parse_of_no_dropped source file detailed h hparse⟩
  · have hwhole := hdecomposes.flatMap_eq
    rwa [List.flatMap_map] at hwhole
  · intro before s after h
    simpa [Position.start] using Segment.offset_of_cut h

end Program

end NestedPascal
