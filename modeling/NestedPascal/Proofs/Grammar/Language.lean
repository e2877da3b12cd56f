import NestedPascal.Proofs.Grammar.Block
import NestedPascal.Proofs.Grammar.SourceTree

/-!
# The language of the grammar

A source is a program exactly if its tokens derive from the grammar and its integer numerals are
INTEGERs, and then it has one derivation, whose tree is the program.
-/

namespace NestedPascal

namespace Grammar

/-- The derivations of programs: a heading, a block and a dot. -/
structure Program where
  word : Terminal (.keyword .program)
  name : Terminal .identifier
  semicolon : Terminal (.mark .semicolon)
  block : Block
  dot : Terminal (.mark .dot)

namespace Program

def tokens (d : Program) : List Token :=
  d.word.token :: d.name.token :: d.semicolon.token :: (d.block.tokens ++ [d.dot.token])

/-- The program with this derivation in a file. -/
def tree (file : String) (d : Program) : NestedPascal.Program :=
  ⟨file, spanOver d.tokens, d.name.token.image, d.block.tree⟩

theorem unambiguous : Unambiguous tokens fun _ => True := by
  intro d d' rest rest' h _ _
  obtain ⟨word, name, semicolon, block, dot⟩ := d
  obtain ⟨word', name', semicolon', block', dot'⟩ := d'
  simp only [tokens, List.cons_append, List.append_assoc, List.nil_append] at h
  obtain ⟨rfl, hname⟩ := word.unambiguous word' h
  obtain ⟨rfl, hsemicolon⟩ := name.unambiguous name' hname
  obtain ⟨rfl, hblock⟩ := semicolon.unambiguous semicolon' hsemicolon
  obtain ⟨rfl, hdot⟩ := block.unambiguous block' hblock
  obtain ⟨rfl, hafter⟩ := dot.unambiguous dot' hdot
  exact ⟨rfl, hafter⟩

end Program

end Grammar

namespace Parse

open Grammar

theorem program_reads (file : String) (before : Span) (ts : List Token) :
    Reads Grammar.Program.tokens (Grammar.Program.tree file) before ts (program file ts) := by
  rw [program]
  apply (token_reads (.keyword .program) before ts).bind
  intro word left _ hts
  apply (token_reads .identifier word.token.span left).bind
  intro name left _ hword
  apply (token_reads (.mark .semicolon) name.token.span left).bind
  intro semicolon left _ hname
  apply (block_reads semicolon.token.span left).bind
  intro block left _ hsemicolon
  apply (token_reads (.mark .dot) (endOf semicolon.token.span block.tokens) left).bind
  intro dot left _ hblock
  refine .ok ⟨word, name, semicolon, block, dot⟩ ?_ ?_ ?_
  · simp [Grammar.Program.tokens, hts, hword, hname, hsemicolon, hblock]
  · simp [Grammar.Program.tree, Grammar.Program.tokens, spanOver]
  · simp [Grammar.Program.tokens]

theorem program_gives (file : String) (d : Grammar.Program) (before : Span) (rest : List Token) :
    Gives (program file (d.tokens ++ rest)) (d.tree file) (endOf before d.tokens) rest := by
  rw [Grammar.Program.tokens, List.cons_append, List.cons_append, List.cons_append,
    List.append_assoc, List.singleton_append, program]
  apply (token_gives d.word _).bind
  intro _
  apply (token_gives d.name _).bind
  intro _
  apply (token_gives d.semicolon _).bind
  intro _
  apply (block_gives d.block d.semicolon.token.span _).bind
  intro _
  apply (token_gives d.dot rest).bind
  intro _
  refine .of_eq ?_ ?_ rfl
  · simp [Grammar.Program.tree, Grammar.Program.tokens, spanOver]
  · simp

end Parse

namespace Program

variable {file : String} {p : Program}

theorem ofTokens_eq_ok_iff_parsed {ts : List Token} :
    ofTokens file ts = .ok p ↔
      ∃ parsed, Parse.program file ts = .ok parsed ∧ parsed.rest = [] ∧ parsed.tree = p := by
  rw [ofTokens]
  cases hparsed : Parse.program file ts with
  | error e => simp [bind, Except.bind]
  | ok parsed =>
      by_cases hrest : parsed.rest = [] <;> simp [bind, Except.bind, Parse.fail, hrest]

theorem ofTokens_eq_ok_iff {ts : List Token} :
    ofTokens file ts = .ok p ↔ ∃ d : Grammar.Program, d.tokens = ts ∧ d.tree file = p := by
  rw [ofTokens_eq_ok_iff_parsed]
  constructor
  · rintro ⟨parsed, hparsed, hrest, rfl⟩
    obtain ⟨d, htokens, htree, -⟩ := Parse.program_reads file default ts parsed hparsed
    rw [hrest, List.append_nil] at htokens
    exact ⟨d, htokens.symm, htree.symm⟩
  · rintro ⟨d, rfl, rfl⟩
    obtain ⟨h, hgives⟩ := Parse.program_gives file d default []
    rw [← List.append_nil d.tokens]
    exact ⟨_, hgives, rfl, rfl⟩

theorem parse_eq_ok_iff {source : List Char} {detailed : Bool}
    (hlexical : lexicalErrors source = []) :
    parse source file detailed = .ok p ↔
      ofTokens file (tokensOf source) = .ok p ∧ ∀ t ∈ tokensOf source, t.outOfRange = false := by
  have hinRange : (∀ t ∈ tokensOf source, t.outOfRange = false) ↔
      (tokensOf source).find? Token.outOfRange = none := by simp
  rw [hinRange]
  simp only [parse, hlexical, List.isEmpty_nil, if_true]
  cases ofTokens file (tokensOf source) with
  | error e => simp
  | ok program => cases (tokensOf source).find? Token.outOfRange <;> simp

/-- A source that is a program lexes. -/
theorem lexes_of_parse {source : List Char} {detailed : Bool}
    (hparse : parse source file detailed = .ok p) : lexicalErrors source = [] := by
  unfold parse at hparse
  simp only at hparse
  split at hparse
  next h => exact List.isEmpty_iff.mp h
  next => contradiction

end Program

theorem Token.outOfRange_eq_false_iff {t : Token} :
    t.outOfRange = false ↔
      (t.kind = .integerNumber → decimalValue t.image.toList ≤ 2147483647) := by
  have hrange : decide (integerMax < decimalValue t.image.toList) = false ↔
      decimalValue t.image.toList ≤ 2147483647 := by
    rw [decide_eq_false_iff_not, integerMax]
    omega
  rw [outOfRange, Bool.and_eq_false_imp, beq_iff_eq, hrange]

namespace Program

/-- A source that lexes is a program exactly if its tokens derive from the grammar and no integer
numeral in it exceeds the largest INTEGER.  It is the tree of the only derivation of those tokens;
any other source gets a diagnostic. -/
theorem parse_accepts_exactly_derivable {source : List Char} {file : String} {detailed : Bool}
    (hlexical : lexicalErrors source = []) :
    (∀ p, parse source file detailed = .ok p ↔
        (∃ d : Grammar.Program, d.tokens = tokensOf source ∧ d.tree file = p) ∧
          ∀ t ∈ tokensOf source,
            t.kind = .integerNumber → decimalValue t.image.toList ≤ 2147483647) ∧
      (∀ d d' : Grammar.Program, d.tokens = tokensOf source → d'.tokens = tokensOf source →
        d = d') ∧
      ∀ diagnostics, parse source file detailed = .error diagnostics → diagnostics ≠ [] := by
  refine ⟨?_, ?_, ?_⟩
  · intro p
    rw [parse_eq_ok_iff hlexical, ofTokens_eq_ok_iff]
    simp only [Token.outOfRange_eq_false_iff]
  · intro d d' hd hd'
    have htokens : d.tokens ++ [] = d'.tokens ++ [] := by rw [hd, hd']
    exact (Grammar.Program.unambiguous d d' [] [] htokens headIs_true headIs_true).1
  · intro diagnostics h
    simp only [parse, hlexical, List.isEmpty_nil, if_true] at h
    split at h
    next =>
      cases h
      simp
    next =>
      split at h
      next =>
        cases h
        simp
      next => contradiction

/-- The tokens of one source derive from the grammar; those of another one do not. -/
theorem derivable_and_underivable_sources :
    lexicalErrors "program p; var a, b : real; begin ; a := 1 - b - -2 * 3 end.".toList = [] ∧
      (∃ d : Grammar.Program,
        d.tokens =
            tokensOf "program p; var a, b : real; begin ; a := 1 - b - -2 * 3 end.".toList ∧
          parse "program p; var a, b : real; begin ; a := 1 - b - -2 * 3 end.".toList "p.pas" false =
            .ok (d.tree "p.pas")) ∧
      lexicalErrors "program p; begin a := 1 - end.".toList = [] ∧
      ¬ ∃ d : Grammar.Program, d.tokens = tokensOf "program p; begin a := 1 - end.".toList := by
  have hlexical :
      lexicalErrors "program p; var a, b : real; begin ; a := 1 - b - -2 * 3 end.".toList = [] := by
    decide +kernel
  have hlexical' : lexicalErrors "program p; begin a := 1 - end.".toList = [] := by decide +kernel
  refine ⟨hlexical, ?_, hlexical', ?_⟩
  · have haccepted : (parse "program p; var a, b : real; begin ; a := 1 - b - -2 * 3 end.".toList
        "p.pas" false).toOption.any (fun _ => true) = true := by decide +kernel
    obtain ⟨p, hp, -⟩ := parse_of_any haccepted
    obtain ⟨⟨d, htokens, htree⟩, -⟩ := ((parse_accepts_exactly_derivable hlexical).1 p).mp hp
    exact ⟨d, htokens, by rw [hp, htree]⟩
  · rintro ⟨d, htokens⟩
    have hrange : ∀ t ∈ tokensOf "program p; begin a := 1 - end.".toList,
        t.kind = .integerNumber → decimalValue t.image.toList ≤ 2147483647 := by decide +kernel
    have hrefused : (parse "program p; begin a := 1 - end.".toList "p.pas" false).toOption.isNone =
        true := by decide +kernel
    have hparse : parse "program p; begin a := 1 - end.".toList "p.pas" false =
        .ok (d.tree "p.pas") :=
      ((parse_accepts_exactly_derivable hlexical').1 _).mpr ⟨⟨d, htokens, rfl⟩, hrange⟩
    rw [hparse] at hrefused
    contradiction

end Program

end NestedPascal
