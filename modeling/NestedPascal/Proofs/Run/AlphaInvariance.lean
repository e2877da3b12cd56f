import NestedPascal.Proofs.Run.Renaming
import NestedPascal.Proofs.Scope.NameUses
import NestedPascal.Proofs.Scope.RenamedAnalysis

/-!
# Names of declarations do not matter

Which name a declaration has shows in the names of frames and members and nowhere else.  Take any
declaration of an accepted program, whatever it shadows and whatever shadows it, and any name that
the program does not use: under that name the program is accepted with the same annotations, and it
runs as it did.
-/

namespace NestedPascal

namespace Program

/-- All names in a program as they are written: its own, those it declares and those it uses. -/
def names (p : Program) : List String :=
  p.name :: (p.block.declaredNames ++ p.uses.map NameUse.name)

/-- A run of the renamed program goes like that of the program.  Frames, levels, links, the order of
members and their values are the same; if one run fails, the other fails for the same code at the
same place. -/
structure RunsRenamed (p : Program) (ρ : Renaming) (limit : DepthLimit) : Prop where
  /-- Once a run has gone through, the frame of the program is the only one left. -/
  succeeds : (p.run limit).error = none → ((p.rename ρ).run limit).error = none ∧
    ((p.rename ρ).run limit).stack = (p.run limit).stack.rename ρ [[]]
  fails : ∀ e, (p.run limit).error = some e → ∃ e', ((p.rename ρ).run limit).error = some e' ∧
    e'.cause.code = e.cause.code ∧ e'.span = e.span
  /-- Each frame is renamed for the declaration whose block it runs. -/
  stack : ∃ c, p.Reaches limit c ∧ c.EndsWith p.block limit (p.run limit).error ∧
    (p.run limit).stack = c.machine.stack ∧
    ((p.rename ρ).run limit).stack = (p.run limit).stack.rename ρ c.declarations

section

variable {p : Program} {ρ : Renaming} {limit : DepthLimit}

theorem declarations_of_length_one (hannotated : p.Annotated) {c : Configuration}
    (hc : p.Reaches limit c) (hlength : c.activations.length = 1) : c.declarations = [[]] := by
  have hlinked := (Configuration.consistent_of_reaches hannotated hc).linked
  obtain ⟨d, hd⟩ := List.length_eq_one_iff.mp
    (by rw [Configuration.declarations, List.length_reverse, List.length_map, hlength] :
      c.declarations.length = 1)
  have hfirst : c.declarations[0]? = some d := by rw [hd]; rfl
  obtain ⟨f, -, hf⟩ := hlinked.exists_frame hfirst
  rw [hd, (hf.bottom rfl).2.1]

theorem runsRenamed (hannotated : p.Annotated) (hresolved : p.Resolved)
    (hunused : p.globalScope.Everywhere (·.visible.Avoids (canonicalName ρ.fresh)))
    (limit : DepthLimit) : p.RunsRenamed ρ limit := by
  obtain ⟨c, hc, hend, hstack, hrenamed, hblame⟩ :=
    run_rename limit hannotated hresolved hunused
  refine ⟨?_, ?_, c, hc, hend, hstack, hrenamed⟩
  · intro hnone
    rw [hnone] at hend hblame
    refine ⟨Option.map_eq_none_iff.mp hblame, ?_⟩
    rw [hrenamed, declarations_of_length_one hannotated hc hend.2]
  · intro e he
    rw [he] at hblame
    obtain ⟨e', he', hsame⟩ := Option.map_eq_some_iff.mp hblame
    rw [EvaluationError.blame, EvaluationError.blame, Prod.mk.injEq] at hsame
    exact ⟨e', he', hsame.1, hsame.2⟩

end

/-- Whatever declaration of an accepted program gets whatever name that occurs nowhere in it: once
declaration and uses are renamed and all annotations are taken away, analysis accepts the program
and puts the renamed annotations back, and under every limit it runs as the program does. -/
theorem alpha_invariance {source : List Char} {file : String} {detailed : Bool} {p : Program}
    (hparse : parse source file detailed = .ok p) (hok : ∃ scopes, p.analyze.scopes = .ok scopes)
    {path : DeclarationPath} {s : LexicalScope} (hs : p.analyze.program.scope? path = some s)
    {symbol : ScopeSymbol} (hdeclared : symbol ∈ s.offered) {fresh : String}
    (hfresh : IsIdentifier fresh)
    (hunused : ∀ name ∈ p.names, canonicalName name ≠ canonicalName fresh) :
    let annotated := p.analyze.program
    let ρ : Renaming := ⟨path, symbol.name, fresh⟩
    (∃ s', (annotated.rename ρ).scope? path = some s' ∧ symbol.rename ρ path ∈ s'.offered ∧
        (symbol.rename ρ path).name = canonicalName fresh) ∧
      (∃ scopes, (annotated.rename ρ).bare.analyze.scopes = .ok scopes) ∧
      (annotated.rename ρ).bare.analyze.program = annotated.rename ρ ∧
      ∀ limit, annotated.RunsRenamed ρ limit := by
  intro annotated ρ
  have hsource := fromSource_of_parse hparse
  have hdeclarations : ∀ n ∈ p.block.declaredNames, canonicalName n ≠ canonicalName ρ.fresh :=
    fun n hn => hunused n (List.mem_cons_of_mem _ (List.mem_append_left _ hn))
  have hrenamable := renamable_of_analyze hsource hok hdeclarations
  obtain ⟨haccepted, hannotations⟩ := analyze_rename hsource hok hfresh hdeclarations
  refine ⟨?_, haccepted, hannotations, fun limit => runsRenamed (annotated_of_analyze hsource)
    (resolved_of_analyze hsource hok) (hrenamable.mono fun _ h => h.avoids) limit⟩
  have hdeclaration := declaration_of_scope? hs
  refine ⟨s.rename ρ, by rw [scope?_rename, hs, Option.map_some], ?_, ?_⟩
  · rw [s.offered_rename, hdeclaration]
    exact List.mem_map_of_mem hdeclared
  · have hname := LexicalScope.name_rename_of_mem_offered hdeclared (ρ := ρ)
    rw [hdeclaration] at hname
    rw [hname, Renaming.key, if_pos ⟨rfl, rfl⟩]

/-- A program whose variable is shadowed by a parameter.  Under another name it keeps the value that
it had, and where the limit refuses the call the renamed program is refused it too. -/
theorem alpha_invariance_of_shadowing :
    ∃ p, parse ("program p; var x : integer; procedure q(x : integer); begin x := x + 1 end; " ++
        "begin x := 1; q(x + x) end.").toList "p.pas" false = .ok p ∧
      let annotated := p.analyze.program
      let ρ : Renaming := ⟨[], "x", "Y"⟩
      (annotated.rename ρ).bare.analyze.program = annotated.rename ρ ∧
      ((annotated.run (.ofInt 8)).error = none ∧
        (annotated.run (.ofInt 8)).stack.frames.toList.map (·.members.entries.map (·.1)) = [["x"]] ∧
        ((annotated.rename ρ).run (.ofInt 8)).stack.frames.toList.map
          (·.members.entries.map (·.1)) = [["y"]]) ∧
      ∃ e, ((annotated.rename ρ).run (.ofInt 1)).error = some e ∧ e.cause.code = .callDepth := by
  have htest : (parse ("program p; var x : integer; procedure q(x : integer); begin x := x + 1 " ++
      "end; begin x := 1; q(x + x) end.").toList "p.pas" false).toOption.any (fun p =>
        p.analyze.scopes.isOk &&
        p.names.all (fun name => canonicalName name ≠ "y") &&
        decide (ScopeSymbol.variable ⟨"x", .integer, 1⟩ ∈ p.analyze.program.globalScope.offered) &&
        (p.analyze.program.run (.ofInt 8)).error.isNone &&
        (p.analyze.program.run (.ofInt 8)).stack.frames.toList.map
          (·.members.entries.map (·.1)) = [["x"]] &&
        (p.analyze.program.run (.ofInt 1)).error.map (·.cause.code) = some .callDepth) = true := by
    decide +kernel
  obtain ⟨p, hp, htest⟩ := parse_of_any htest
  simp only [Bool.and_eq_true, decide_eq_true_eq, List.all_eq_true] at htest
  obtain ⟨⟨⟨⟨⟨hok, hnames⟩, hdeclared⟩, hnone⟩, hmembers⟩, hcode⟩ := htest
  have hy : canonicalName "Y" = "y" := by decide +kernel
  have hfresh : IsIdentifier "Y" := by
    refine ⟨⟨'Y', [], rfl, rfl, by simp⟩, fun k => ?_⟩
    cases k <;> decide
  have hglobal : p.analyze.program.scope? [] = some p.analyze.program.globalScope := rfl
  obtain ⟨-, -, hannotations, hruns⟩ := alpha_invariance hp (exists_scopes_of_isOk hok) hglobal
    hdeclared hfresh (by simpa [hy] using hnames)
  refine ⟨p, hp, ?_⟩
  intro annotated ρ
  refine ⟨hannotations, ?_, ?_⟩
  · have hdone := Option.isNone_iff_eq_none.mp hnone
    refine ⟨hdone, hmembers, ?_⟩
    obtain ⟨f, hf, hkeys⟩ := List.map_eq_singleton_iff.mp hmembers
    have hstack : ((p.analyze.program.rename ρ).run (.ofInt 8)).stack =
        (p.analyze.program.run (.ofInt 8)).stack.rename ρ [[]] := ((hruns _).succeeds hdone).2
    have hx : ρ.key [] "x" = "y" := by rw [Renaming.key, if_pos ⟨rfl, rfl⟩, hy]
    have hrenamed : f.members.entries.map (ρ.key [] ·.1) = ["y"] := by
      rw [← hx, ← List.map_singleton, ← hkeys, List.map_map]
      rfl
    rw [hstack]
    simpa [CallStack.rename, hf, Frame.rename, Register.mapKeys] using hrenamed
  · obtain ⟨e, he, hdepth⟩ := Option.map_eq_some_iff.mp hcode
    obtain ⟨e', he', hsame, -⟩ := (hruns _).fails e he
    exact ⟨e', he', hsame.trans hdepth⟩

end Program

end NestedPascal
