import NestedPascal.Proofs.Grammar.SourceTree
import NestedPascal.Proofs.Scope.Requirements

/-!
# What the analysis of programs accepts

A program from a source is accepted exactly if it is well formed, and one that is not is told the
first requirement that it breaks.  Accepted or not, the program that comes back is annotated with
what its names denote, as far as it is annotated.
-/

namespace NestedPascal

namespace Program

variable {p : Program}

theorem globalScope_analyzed (hp : p.FromSource) :
    p.globalScope.Analyzed (p.block.analyze [] (ScopeTable.new "global" 1) []) := by
  have hentered : (ScopeTable.new "global" 1).Holds
      ((([] : List TypedName).map (·.symbol 1)).map .variable) := ScopeTable.holds_new "global" 1
  exact Block.analyze_analyzed .nil hentered rfl p.block hp.block

theorem analyze_program_globalScope (p : Program) :
    p.analyze.program.globalScope =
      { p.globalScope with block := (p.block.analyze [] (ScopeTable.new "global" 1) []).part } :=
  rfl

theorem analyze_scopes_cases (p : Program) :
    ((p.block.analyze [] (ScopeTable.new "global" 1) []).error = none ∧
        ∃ scopes, p.analyze.scopes = .ok scopes) ∨
      ∃ e, (p.block.analyze [] (ScopeTable.new "global" 1) []).error = some e ∧
        p.analyze.scopes = .error e := by
  rw [analyze]
  cases herror : (p.block.analyze [] (ScopeTable.new "global" 1) []).error with
  | none => exact .inl ⟨rfl, _, rfl⟩
  | some e => exact .inr ⟨e, rfl, rfl⟩

theorem exists_scopes_of_isOk (hok : p.analyze.scopes.isOk = true) :
    ∃ scopes, p.analyze.scopes = .ok scopes := by
  cases hscopes : p.analyze.scopes with
  | ok scopes => exact ⟨scopes, rfl⟩
  | error e =>
      rw [hscopes] at hok
      contradiction

theorem error_of_analyze_ok (hok : ∃ scopes, p.analyze.scopes = .ok scopes) :
    (p.block.analyze [] (ScopeTable.new "global" 1) []).error = none := by
  rcases p.analyze_scopes_cases with ⟨hnone, -⟩ | ⟨e, -, herror⟩
  · exact hnone
  · obtain ⟨scopes, hok⟩ := hok
    rw [herror] at hok
    contradiction

/-- Whatever is annotated in the bodies of the program denotes what it should. -/
def Annotated (p : Program) : Prop :=
  ∀ path s, p.scope? path = some s → statementsAnnotatedIn s.visible s.block.body

/-- Analysis annotates right, even where it fails later. -/
theorem annotated_of_analyze (hp : p.FromSource) : p.analyze.program.Annotated := by
  intro path s hs
  rw [scope?, analyze_program_globalScope] at hs
  rcases (globalScope_analyzed hp).partly path s hs with hsource | ⟨chain, raw, hchain, hraw, heq⟩
  · exact statementsAnnotatedIn_of_fromSource s.visible _ hsource
  · rw [← heq]
    exact resolveStatements_annotatedIn hchain raw hraw

/-- The statements of every scope went through resolution. -/
def Resolved (p : Program) : Prop :=
  ∀ path s, p.scope? path = some s → s.Resolved

theorem resolved_of_analyze (hp : p.FromSource) (hok : ∃ scopes, p.analyze.scopes = .ok scopes) :
    p.analyze.program.Resolved := by
  intro path s hs
  rw [scope?, analyze_program_globalScope] at hs
  exact (globalScope_analyzed hp).fully (error_of_analyze_ok hok) path s hs

/-- Analysis accepts the well-formed programs and no others.  It refuses any other with the code and
the span of the first requirement that the program breaks. -/
theorem analyze_accepts_exactly_wellFormed {source : List Char} {file : String} {detailed : Bool}
    (hparse : Program.parse source file detailed = .ok p) :
    ((∃ scopes, p.analyze.scopes = .ok scopes) ↔ p.WellFormed) ∧
      ∀ e, p.analyze.scopes = .error e →
        ∃ broken, FirstBroken p.requirements broken ∧ e.cause.code = broken.code ∧
          e.span = broken.span := by
  have hanalyzed := globalScope_analyzed (fromSource_of_parse hparse)
  constructor
  · rw [← requirements_hold_iff]
    constructor
    · intro hok
      exact hanalyzed.passes (error_of_analyze_ok hok)
    · intro hholds
      rcases p.analyze_scopes_cases with ⟨-, hok⟩ | ⟨e, herror, -⟩
      · exact hok
      · obtain ⟨broken, ⟨before, after, heq, -, hbroken⟩, -⟩ := hanalyzed.rejects e herror
        have hmem : broken ∈ p.requirements := by
          change p.requirements = _ at heq
          simp [heq]
        exact absurd (hholds broken hmem) hbroken
  · intro e he
    rcases p.analyze_scopes_cases with ⟨-, scopes, hok⟩ | ⟨e', herror, he'⟩
    · rw [hok] at he
      contradiction
    · rw [he', Except.error.injEq] at he
      exact he ▸ hanalyzed.rejects e' herror

/-- One program is accepted; another assigns to a name that it does not declare. -/
theorem accepted_and_refused_programs :
    (∃ p, parse "program p; procedure q(x : real); begin end; begin q(2) end.".toList "p.pas" false =
        .ok p ∧ p.WellFormed) ∧
      ∃ p, parse "program p; begin x := 1 end.".toList "p.pas" false = .ok p ∧ ¬ p.WellFormed ∧
        ∃ broken, FirstBroken p.requirements broken ∧ broken.code = .idNotFound := by
  constructor
  · have haccepted : (parse "program p; procedure q(x : real); begin end; begin q(2) end.".toList
        "p.pas" false).toOption.any (·.analyze.scopes.isOk) = true := by decide +kernel
    obtain ⟨p, hp, hok⟩ := parse_of_any haccepted
    exact ⟨p, hp, (analyze_accepts_exactly_wellFormed hp).1.mp (exists_scopes_of_isOk hok)⟩
  · have hrefused : (parse "program p; begin x := 1 end.".toList "p.pas" false).toOption.any
        (fun p => match p.analyze.scopes with
          | .ok _ => false
          | .error e => e.cause.code = .idNotFound) = true := by decide +kernel
    obtain ⟨p, hp, hcode⟩ := parse_of_any hrefused
    obtain ⟨haccepts, hrefuses⟩ := analyze_accepts_exactly_wellFormed hp
    refine ⟨p, hp, ?_⟩
    rw [← haccepts]
    cases hscopes : p.analyze.scopes with
    | ok scopes =>
        rw [hscopes] at hcode
        contradiction
    | error e =>
        rw [hscopes] at hcode
        obtain ⟨broken, hfirst, hbroken, -⟩ := hrefuses e hscopes
        refine ⟨by simp, broken, hfirst, ?_⟩
        rw [← hbroken]
        exact of_decide_eq_true hcode

end Program

end NestedPascal
