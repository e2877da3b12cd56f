import Mathlib.Order.Bounds.Basic
import NestedPascal.Proofs.Grammar.PredictivePhrases

/-!
# The first syntax error

A source that lexes and is no program has one parse error: at its first token that no program can
have after the tokens before it, or at its end if some program goes on from there.
-/

namespace NestedPascal

namespace Grammar

/-- Whether some program starts with the tokens. -/
def Viable (ts : List Token) : Prop := ∃ d : Program, ts <+: d.tokens

theorem Viable.of_prefix {ts us : List Token} (h : Viable us) (hts : ts <+: us) : Viable ts := by
  obtain ⟨d, hd⟩ := h
  exact ⟨d, hts.trans hd⟩

/-- The tokens before the first impossible one are as many as a program can start with. -/
theorem Viable.isGreatest {taken rest : List Token} (htaken : Viable taken)
    (hnext : ∀ t ∈ rest.head?, ¬ Viable (taken ++ [t])) :
    IsGreatest {k | k ≤ (taken ++ rest).length ∧ Viable ((taken ++ rest).take k)} taken.length := by
  refine ⟨⟨by simp, by rwa [List.take_left]⟩, ?_⟩
  rintro k ⟨hk, hviable⟩
  by_contra hlonger
  rw [Nat.not_le] at hlonger
  cases rest with
  | nil =>
      rw [List.append_nil] at hk
      omega
  | cons t rest =>
      apply hnext t rfl
      have htake : (taken ++ t :: rest).take (taken.length + 1) = taken ++ [t] := by
        rw [List.take_length_add_append, List.take_succ_cons, List.take_zero]
      rw [← htake]
      exact hviable.of_prefix (List.take_prefix_take_left hlonger)

end Grammar

open Grammar

namespace Program

variable {file : String} {ts : List Token} {e : ParseError}

theorem ofTokens_eq_error (h : ofTokens file ts = .error e) :
    Parse.program file ts = .error e ∨
      ∃ parsed, Parse.program file ts = .ok parsed ∧ parsed.rest ≠ [] ∧
        e = ⟨.endOfInput, parsed.rest.head?⟩ := by
  rw [ofTokens] at h
  cases hparsed : Parse.program file ts with
  | error e' =>
      rw [hparsed] at h
      cases h
      exact .inl rfl
  | ok parsed =>
      rw [hparsed] at h
      by_cases hrest : parsed.rest = []
      · simp [bind, Except.bind, hrest] at h
      · have he : (Parse.fail .endOfInput parsed.rest : Except _ Program) = .error e := by
          simpa [bind, Except.bind, hrest] using h
        cases he
        exact .inr ⟨parsed, rfl, hrest, rfl⟩

/-- The parser stops at the first token that no program has after those before it. -/
theorem stops_at_first_impossible (h : ofTokens file ts = .error e) :
    ∃ taken rest, ts = taken ++ rest ∧ e.found = rest.head? ∧ Viable taken ∧
      ∀ t ∈ rest.head?, ¬ Viable (taken ++ [t]) := by
  rcases ofTokens_eq_error h with hprogram | ⟨parsed, hparsed, hrest, rfl⟩
  · have hstops : Parse.remaining (Parse.program file ts) = .error e := by rw [hprogram]; rfl
    obtain ⟨taken, rest, hts, hfound, hviable, hsame⟩ :=
      (Parse.program_predictive file ts).stops e hstops
    refine ⟨taken, rest, hts, hfound, hviable, ?_⟩
    -- The parser would read a program that goes on with this token.
    rintro t ht ⟨d, more, hd⟩
    have hagain := hsame (t :: more) ht.symm
    have htokens : taken ++ t :: more = d.tokens ++ [] := by
      rw [List.append_nil, ← hd, List.append_assoc, List.singleton_append]
    obtain ⟨hshorter, hgives⟩ := Parse.program_gives file d default []
    rw [htokens, hgives] at hagain
    contradiction
  · obtain ⟨d, hts, -⟩ := Parse.program_reads file default ts parsed hparsed
    refine ⟨d.tokens, parsed.rest, hts, rfl, ⟨d, List.prefix_rfl⟩, ?_⟩
    -- No program goes on where another one is complete.
    rintro t - ⟨d', more, hd'⟩
    have hboth : d.tokens ++ ([t] ++ more) = d'.tokens ++ [] := by
      rw [← List.append_assoc, hd', List.append_nil]
    obtain ⟨-, hmore⟩ := Program.unambiguous d d' _ _ hboth headIs_true headIs_true
    contradiction

end Program

/-- A diagnostic blames the token after the first `k`, or the end of the input if there is none. -/
structure Diagnostic.Blames (d : Diagnostic) (file : String) (ts : List Token) (k : Nat) :
    Prop where
  code : d.code = some "E_PARSE"
  token : ∀ t, ts[k]? = some t →
    d.message = Text.ofString ("Unexpected token '" ++ t.image ++ "'.") ∧
      d.location = some (t.span.inFile file)
  ending : k = ts.length →
    d.message = Text.ofString "Unexpected end of input." ∧
      d.location = some ((match ts.getLast? with
        | some t => t.span
        | none => ⟨1, 1, 1, 2⟩).inFile file)

theorem ParseError.blames (file : String) {taken rest : List Token} {e : ParseError}
    (hfound : e.found = rest.head?) :
    (e.diagnostic file false (taken ++ rest)).Blames file (taken ++ rest) taken.length where
  code := rfl
  token t ht := by
    rw [List.getElem?_append_right (Nat.le_refl _), Nat.sub_self, ← List.head?_eq_getElem?,
      ← hfound] at ht
    simp [diagnostic, message, ht]
  ending hlength := by
    have hrest : rest = [] := by simpa using hlength
    subst hrest
    rw [List.head?_nil] at hfound
    cases hlast : taken.getLast? <;> simp [diagnostic, message, hfound, hlast]

namespace Program

/-- A source that lexes and does not derive from the grammar has one diagnostic.  It blames the first
token that no program has after those before it, or else the end of the input. -/
theorem first_error_at_first_impossible_token {source : List Char} (file : String)
    (hlexical : lexicalErrors source = [])
    (hunderivable : ¬ ∃ d : Grammar.Program, d.tokens = tokensOf source) :
    ∃ k diagnostic,
      IsGreatest {k | k ≤ (tokensOf source).length ∧ Viable ((tokensOf source).take k)} k ∧
      diagnostic.Blames file (tokensOf source) k ∧
      parse source file false = .error [diagnostic] ∧
      ∃ message, parse source file true = .error [{ diagnostic with message := message }] := by
  cases htokens : ofTokens file (tokensOf source) with
  | ok p =>
      obtain ⟨d, hd, -⟩ := ofTokens_eq_ok_iff.mp htokens
      exact absurd ⟨d, hd⟩ hunderivable
  | error e =>
      have hparse (detailed : Bool) :
          parse source file detailed = .error [e.diagnostic file detailed (tokensOf source)] := by
        simp only [parse, hlexical, List.isEmpty_nil, if_true, htokens]
      obtain ⟨taken, rest, hts, hfound, htaken, hnext⟩ := stops_at_first_impossible htokens
      rw [hts] at hparse ⊢
      exact ⟨taken.length, _, htaken.isGreatest hnext, e.blames file hfound, hparse false,
        e.detailedMessage, hparse true⟩

/-- The token after a complete program is the first impossible one. -/
theorem first_error_after_complete_program :
    lexicalErrors "program p; begin end. x".toList = [] ∧
      (¬ ∃ d : Grammar.Program, d.tokens = tokensOf "program p; begin end. x".toList) ∧
      ∃ diagnostic,
        IsGreatest {k | k ≤ (tokensOf "program p; begin end. x".toList).length ∧
          Viable ((tokensOf "program p; begin end. x".toList).take k)} 6 ∧
        diagnostic.Blames "p.pas" (tokensOf "program p; begin end. x".toList) 6 ∧
        parse "program p; begin end. x".toList "p.pas" false = .error [diagnostic] ∧
        ∃ message, parse "program p; begin end. x".toList "p.pas" true =
          .error [{ diagnostic with message := message }] := by
  have hlexical : lexicalErrors "program p; begin end. x".toList = [] := by decide +kernel
  have hunderivable :
      ¬ ∃ d : Grammar.Program, d.tokens = tokensOf "program p; begin end. x".toList := by
    rintro ⟨d, hd⟩
    have hrefused : (ofTokens "p.pas" (tokensOf "program p; begin end. x".toList)).toOption.isNone =
        true := by decide +kernel
    rw [ofTokens_eq_ok_iff.mpr ⟨d, hd, rfl⟩] at hrefused
    contradiction
  obtain ⟨k, diagnostic, hgreatest, hblames, hparse, hdetailed⟩ :=
    first_error_at_first_impossible_token "p.pas" hlexical hunderivable
  have hmessage : ((parse "program p; begin end. x".toList "p.pas" false).map fun _ => ()).mapError
      (fun diagnostics => diagnostics.map Diagnostic.message) =
        .error [Text.ofString "Unexpected token 'x'."] := by decide +kernel
  have htext : diagnostic.message = Text.ofString "Unexpected token 'x'." := by
    rw [hparse] at hmessage
    simpa [Except.map, Except.mapError] using hmessage
  have hlength : (tokensOf "program p; begin end. x".toList).length = 7 := by decide +kernel
  have hk : k = 6 := by
    rcases Nat.lt_or_eq_of_le hgreatest.1.1 with hk | hk
    · have honly : ∀ k < 7, ((tokensOf "program p; begin end. x".toList)[k]?.map fun t =>
          "Unexpected token '" ++ t.image ++ "'.") = some "Unexpected token 'x'." → k = 6 := by
        decide +kernel
      obtain ⟨htoken, -⟩ := hblames.token _ (List.getElem?_eq_getElem hk)
      apply honly k (by omega)
      rw [List.getElem?_eq_getElem hk, Option.map_some]
      exact congrArg some (Text.ofString_injective (htoken.symm.trans htext))
    · obtain ⟨hending, -⟩ := hblames.ending hk
      have hsame := Text.ofString_injective (hending.symm.trans htext)
      exact absurd hsame (by decide)
  subst hk
  exact ⟨hlexical, hunderivable, diagnostic, hgreatest, hblames, hparse, hdetailed⟩

end Program

end NestedPascal
