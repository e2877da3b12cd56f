import NestedPascal.Proofs.Grammar.FirstError
import NestedPascal.Proofs.Grammar.Relabelling
import NestedPascal.Proofs.Grammar.SourceTree
import NestedPascal.Proofs.Paired
import NestedPascal.Proofs.Run.Relabelling
import NestedPascal.Proofs.Scope.Relabelling
import NestedPascal.Proofs.Token.Layout

/-!
# Layout does not matter

Sources that differ in layout have the same tokens, at other places.  Nothing but reports looks at
places, so the sources parse to one tree but for the spans in it, or fail at one token, and what
they parse to is analysed and runs in one way.
-/

namespace NestedPascal

/-- The relabelling that takes the places away. -/
def Relabelling.placeless : Relabelling where
  span _ := default
  text := id
  span_to _ _ := rfl
  canonicalName_text _ := rfl

/-! ## Tokens that are numbered -/

/-- Tokens without their places, numbered as they come in a list. -/
def Relabelling.numbered (ts : List Token) : Relabelling.placeless.OfTokens where
  token t := ⟨t.kind, t.image, ts.idxOf t, default⟩
  kind _ := rfl
  image _ := rfl
  span _ := rfl

open Relabelling (placeless numbered)

structure Token.SameLexeme (t t' : Token) : Prop where
  kind : t.kind = t'.kind
  image : t.image = t'.image

theorem Relaid.sameLexemes {source source' : List Char} (h : Relaid source source') :
    List.Forall₂ Token.SameLexeme (tokensOf source) (tokensOf source') := by
  refine forall₂_of_map_eq (f := Token.piece) (fun t t' hpiece => ?_) h.map_piece_eq.symm
  simp only [Token.piece, Prod.mk.injEq, SegmentKind.lexeme.injEq, Lexeme.token.injEq] at hpiece
  exact ⟨hpiece.1, String.toList_injective hpiece.2⟩

/-- Without their places the tokens are the same, number by number. -/
theorem map_numbered_eq {ts ts' : List Token} (h : List.Forall₂ Token.SameLexeme ts ts')
    (hts : ts.Nodup) (hts' : ts'.Nodup) :
    ts.map (numbered ts).token = ts'.map (numbered ts').token := by
  refine List.ext_getElem (by simpa using h.length_eq) fun i hi hi' => ?_
  rw [List.length_map] at hi hi'
  obtain ⟨hkind, himage⟩ := (List.forall₂_iff_get.mp h).2 i hi hi'
  simp only [List.get_eq_getElem] at hkind himage
  simp only [List.getElem_map, numbered, hts.idxOf_getElem, hts'.idxOf_getElem, hkind, himage]

/-- The tokens have one number in two lists. -/
def SameNumber (ts ts' : List Token) (t t' : Token) : Prop :=
  ∃ i : Nat, ts[i]? = some t ∧ ts'[i]? = some t'

theorem sameNumber_of_numbered_eq {ts ts' : List Token} (hlength : ts.length = ts'.length)
    {t t' : Token} (ht : t ∈ ts) (h : (numbered ts).token t = (numbered ts').token t') :
    SameNumber ts ts' t t' := by
  simp only [numbered, Token.mk.injEq] at h
  obtain ⟨-, -, hnumber, -⟩ := h
  have hlt := List.idxOf_lt_length_of_mem ht
  rw [hnumber, hlength] at hlt
  refine ⟨ts.idxOf t, List.getElem?_idxOf ht, ?_⟩
  rw [hnumber]
  exact List.getElem?_idxOf (List.idxOf_lt_length_iff.mp hlt)

theorem sameNumber_getLast {ts ts' : List Token} (hlength : ts.length = ts'.length) {t : Token}
    (ht : ts.getLast? = some t) : ∃ t', ts'.getLast? = some t' ∧ SameNumber ts ts' t t' := by
  have hne : ts' ≠ [] := by
    rintro rfl
    rw [List.length_eq_zero_iff.mp hlength] at ht
    contradiction
  refine ⟨ts'.getLast hne, List.getLast?_eq_some_getLast hne, ts.length - 1, ?_, ?_⟩
  · rw [← List.getLast?_eq_getElem?, ht]
  · rw [hlength, ← List.getLast?_eq_getElem?, List.getLast?_eq_some_getLast hne]

/-! ## Parsing -/

/-- Two diagnostics tell the same of one token, or of no token at all. -/
structure Diagnostic.SameReport (file : String) (ts ts' : List Token) (d d' : Diagnostic) :
    Prop where
  code : d.code = d'.code
  message : d.message = d'.message
  hint : d.hint = d'.hint
  location : (∃ t t', SameNumber ts ts' t t' ∧ d.location = some (t.span.inFile file) ∧
      d'.location = some (t'.span.inFile file)) ∨
    ts = [] ∧ ts' = [] ∧ d.location = d'.location

section

variable {ts ts' : List Token} (hlength : ts.length = ts'.length)

include hlength

theorem ParseError.sameReport {e e' : ParseError} (he : ∀ t ∈ e.found, t ∈ ts)
    (h : e.mapFound (numbered ts).token = e'.mapFound (numbered ts').token) (file : String)
    (detailed : Bool) :
    (e.diagnostic file detailed ts).SameReport file ts ts' (e'.diagnostic file detailed ts') := by
  obtain ⟨expected, found⟩ := e
  obtain ⟨expected', found'⟩ := e'
  obtain ⟨rfl, hfound⟩ := ParseError.mk.inj h
  cases found with
  | none =>
      obtain rfl : found' = none := by simpa using hfound.symm
      refine ⟨rfl, rfl, rfl, ?_⟩
      simp only [diagnostic, Option.none_or]
      cases hlast : ts.getLast? with
      | none =>
          have hnil : ts = [] := List.getLast?_eq_none_iff.mp hlast
          have hnil' : ts' = [] := List.length_eq_zero_iff.mp (by rw [← hlength, hnil]; rfl)
          exact .inr ⟨hnil, hnil', by rw [hnil', List.getLast?_nil]⟩
      | some t =>
          obtain ⟨t', hlast', hnumber⟩ := sameNumber_getLast hlength hlast
          exact .inl ⟨t, t', hnumber, rfl, by rw [hlast']⟩
  | some t =>
      cases found' with
      | none => contradiction
      | some t' =>
          have hsame := Option.some.inj hfound
          have himage : t.image = t'.image := by
            change ((numbered ts).token t).image = ((numbered ts').token t').image
            rw [hsame]
          have hnumber := sameNumber_of_numbered_eq hlength (he t rfl) hsame
          refine ⟨rfl, ?_, rfl, .inl ⟨t, t', hnumber, rfl, rfl⟩⟩
          simp only [diagnostic, message, detailedMessage, foundImage, himage]

theorem Token.sameReport {t t' : Token} (ht : t ∈ ts)
    (h : (numbered ts).token t = (numbered ts').token t') (file : String) :
    (t.rangeDiagnostic file).SameReport file ts ts' (t'.rangeDiagnostic file) := by
  have himage : t.image = t'.image := by
    change ((numbered ts).token t).image = ((numbered ts').token t').image
    rw [h]
  refine ⟨rfl, by rw [rangeDiagnostic, rangeDiagnostic, himage], rfl, .inl ⟨t, t', ?_, rfl, rfl⟩⟩
  exact sameNumber_of_numbered_eq hlength ht h

end

theorem Program.mem_of_ofTokens_error {file : String} {ts : List Token} {e : ParseError}
    (h : ofTokens file ts = .error e) : ∀ t ∈ e.found, t ∈ ts := by
  obtain ⟨taken, rest, hts, hfound, -⟩ := stops_at_first_impossible h
  intro t ht
  rw [hfound] at ht
  rw [hts]
  exact List.mem_append_right taken (List.mem_of_head? ht)

/-- Tokens that are the same without their places parse to one tree or fail at one of them. -/
theorem Program.ofTokens_of_numbered_eq {ts ts' : List Token}
    (h : ts.map (numbered ts).token = ts'.map (numbered ts').token) (file : String) :
    Paired
      (fun e e' => e.mapFound (numbered ts).token = e'.mapFound (numbered ts').token)
      (fun p p' => p.relabel placeless = p'.relabel placeless)
      (ofTokens file ts) (ofTokens file ts') := by
  refine Paired.of_images_eq (fun _ _ hp => hp) (fun _ _ he => he) ?_
  rw [← ofTokens_map (numbered ts) file fun _ _ _ => rfl, h,
    ofTokens_map (numbered ts') file fun _ _ _ => rfl]

/-- Sources that differ in layout parse to one tree, or fail at one token. -/
theorem Program.parse_relaid {source source' : List Char} (h : Relaid source source')
    (file : String) (detailed : Bool) :
    Paired (List.Forall₂ (Diagnostic.SameReport file (tokensOf source) (tokensOf source')))
      (fun p p' => p.relabel placeless = p'.relabel placeless) (parse source file detailed)
      (parse source' file detailed) := by
  have hsame := h.sameLexemes
  have hnumbered := map_numbered_eq hsame (nodup_tokensOf source) (nodup_tokensOf source')
  have hlength := hsame.length_eq
  simp only [parse, h.lexicalErrors_left, h.lexicalErrors_right, List.isEmpty_nil, if_true]
  generalize tokensOf source = ts at hnumbered hlength ⊢
  generalize tokensOf source' = ts' at hnumbered hlength ⊢
  have hrange : Option.Rel (fun t t' => (numbered ts).token t = (numbered ts').token t')
      (ts.find? Token.outOfRange) (ts'.find? Token.outOfRange) := by
    have hfound := congrArg (List.find? Token.outOfRange) hnumbered
    rw [List.find?_map, List.find?_map] at hfound
    exact optionRel_of_map_eq (fun _ _ heq => heq) hfound
  have hparsed := ofTokens_of_numbered_eq hnumbered file
  generalize hparse : ofTokens file ts = parsed at hparsed ⊢
  generalize ofTokens file ts' = parsed' at hparsed ⊢
  cases hparsed with
  | error he =>
      refine .error (.cons ?_ .nil)
      exact ParseError.sameReport hlength (mem_of_ofTokens_error hparse) he file detailed
  | ok hp =>
      generalize hfirst : ts.find? Token.outOfRange = first at hrange ⊢
      generalize ts'.find? Token.outOfRange = first' at hrange ⊢
      cases hrange with
      | none => exact .ok hp
      | some ht =>
          refine .error (.cons ?_ .nil)
          exact Token.sameReport hlength (List.mem_of_find?_eq_some hfirst) ht file

/-! ## Analysis and runs -/

theorem SemanticCause.relabel_placeless (c : SemanticCause) : c.relabel placeless = c := by
  cases c <;> rfl

theorem EvaluationCause.relabel_placeless (c : EvaluationCause) : c.relabel placeless = c := by
  cases c <;> rfl

theorem Frame.relabel_placeless (f : Frame Nat) : f.relabel placeless = f := by
  obtain ⟨name, role, nesting, level, link, members⟩ := f
  cases role <;> rfl

theorem CallStack.relabel_placeless (s : CallStack (Frame Nat)) : s.relabel placeless = s := by
  have hid : (fun f : Frame Nat => f.relabel placeless) = id := funext Frame.relabel_placeless
  rw [relabel, hid, Array.map_id]

/-- Two programs that go the same way but for places: their trees and annotations differ in spans at
most, and under any limit on the depth of calls they leave the same stack. -/
structure Program.GoesAlike (p p' : Program) : Prop where
  tree : p.relabel placeless = p'.relabel placeless
  annotated : p.analyze.program.relabel placeless = p'.analyze.program.relabel placeless
  scopes : Paired (fun e e' => e.cause = e'.cause) Eq p.analyze.scopes p'.analyze.scopes
  stack : ∀ limit, (p.analyze.program.run limit).stack = (p'.analyze.program.run limit).stack
  error : ∀ limit, Option.Rel (fun e e' => e.cause = e'.cause) (p.analyze.program.run limit).error
    (p'.analyze.program.run limit).error

theorem Program.goesAlike_of_relabel_eq {p p' : Program}
    (h : p.relabel placeless = p'.relabel placeless) : p.GoesAlike p' := by
  obtain ⟨hannotated, hscopes⟩ := analyze_eq_of_relabel_eq h
  refine ⟨h, hannotated, ?_, fun limit => ?_, fun limit => ?_⟩
  · refine Paired.of_mapError_eq (f := id) (g := (·.relabel placeless)) (fun _ _ heq => heq)
      (fun e e' he => ?_) (by simpa using hscopes)
    have hcause := congrArg SemanticError.cause he
    rwa [SemanticError.relabel, SemanticError.relabel, SemanticCause.relabel_placeless,
      SemanticCause.relabel_placeless] at hcause
  · have hstack := (run_eq_of_relabel_eq hannotated limit).1
    rwa [CallStack.relabel_placeless, CallStack.relabel_placeless] at hstack
  · refine optionRel_of_map_eq (fun e e' he => ?_) (run_eq_of_relabel_eq hannotated limit).2
    have hcause := congrArg EvaluationError.cause he
    rwa [EvaluationError.relabel, EvaluationError.relabel, EvaluationCause.relabel_placeless,
      EvaluationCause.relabel_placeless] at hcause

namespace Program

/-- Sources that differ in layout have the same tokens and parse, are analysed and run alike. -/
theorem layout_insensitive {source source' : List Char} (h : Relaid source source')
    (file : String) (detailed : Bool) :
    List.Forall₂ Token.SameLexeme (tokensOf source) (tokensOf source') ∧
      lexicalErrors source' = [] ∧
      Paired (List.Forall₂ (Diagnostic.SameReport file (tokensOf source) (tokensOf source')))
        GoesAlike (parse source file detailed) (parse source' file detailed) := by
  refine ⟨h.sameLexemes, h.lexicalErrors_right, ?_⟩
  exact (parse_relaid h file detailed).imp (fun _ _ hds => hds) fun _ _ => goesAlike_of_relabel_eq

/-- A comment stands for the blank before a call. -/
theorem layout_insensitive_of_comment :
    let declared := "program p; var x : integer; procedure q(n : integer); begin x := x + n end; "
    let source := (declared ++ "begin x := 1; q(2) end.").toList
    let source' := (declared ++ "begin x := 1;{twice}q(2) end.").toList
    ∃ p p', parse source "p.pas" false = .ok p ∧ parse source' "p.pas" false = .ok p' ∧
      p.GoesAlike p' := by
  intro declared source source'
  have hrelaid : Relaid source source' := by
    let pieces := (Segment.ofSource source).map Segment.piece
    have hpieces : pieces = pieces.take 49 ++ ([(.lexeme .blank, [' '])] ++ pieces.drop 50) := by
      decide +kernel
    have hsource' : source' = (pieces.take 49).flatMap (·.2) ++
        ('\x7b' :: ("twice".toList ++ ['\x7d']) ++ (pieces.drop 50).flatMap (·.2)) := by
      decide +kernel
    have hcomment : '\x7d' ∉ "twice".toList := by decide
    rw [hsource']
    exact Relaid.splice hpieces (by decide +kernel) (by decide) (.comment hcomment .nil) (by decide)
  have haccepted : (parse source "p.pas" false).toOption.any (fun _ => true) = true := by
    decide +kernel
  obtain ⟨p, hp, -⟩ := parse_of_any haccepted
  obtain ⟨-, -, hparsed⟩ := layout_insensitive hrelaid "p.pas" false
  rw [hp] at hparsed
  generalize hp' : parse source' "p.pas" false = parsed at hparsed
  cases hparsed with
  | ok hlike => exact ⟨p, _, hp, rfl, hlike⟩

end Program

end NestedPascal
