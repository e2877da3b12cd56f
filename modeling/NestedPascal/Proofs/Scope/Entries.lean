import NestedPascal.Proofs.Scope.Acceptance
import NestedPascal.Proofs.Scope.Progress
import NestedPascal.Proofs.Tree.Procedures

/-!
# Scopes that analysis enters

Analysis enters the scope of the program and then, in source order, that of each procedure whose body
it comes to.  So the scopes entered are those that stand before the first requirement that is broken,
and all scopes of the program if none is.
-/

namespace NestedPascal

/-- What analysis comes to: a scope that it enters or a requirement that it checks. -/
inductive Landmark where
  | entry (scope : String) (level : Nat) (span : Span)
  | check (r : Requirement)

/-- What tells of the landmark when it is passed. -/
def Landmark.event? : Landmark → Option Event
  | .entry scope level span => some ⟨.scopeEnter scope level, span⟩
  | .check _ => none

mutual

def Block.landmarks (path : DeclarationPath) (params : List TypedName) (outer : Visible) :
    Block → List Landmark
  | .mk span declarations bodySpan body =>
    let scope : LexicalScope := ⟨path, params, .mk span declarations bodySpan body, outer⟩
    (headerRequirements (params.map (canonicalName ·.name)) declarations).map .check ++
      declarationLandmarks path outer scope.hoisted 0 declarations ++
      (statementRequirements scope.visible body).map .check

def declarationLandmarks (path : DeclarationPath) (outer : Visible) (offered : List ScopeSymbol)
    (place : Nat) : List Declaration → List Landmark
  | [] => []
  | .variable v :: rest =>
    .check (.fresh (offered.map ScopeSymbol.name) (canonicalName v.name) v.span) ::
      declarationLandmarks path outer (offered ++ [.variable (v.symbol (path.length + 1))])
        (place + 1) rest
  | .procedure span name params block :: rest =>
    .entry (canonicalName name) (path.length + 2) span ::
      ((paramRequirements [] params).map .check ++
        block.landmarks (path ++ [place]) params (offered :: outer)) ++
      declarationLandmarks path outer offered (place + 1) rest

end

def Program.landmarks (p : Program) : List Landmark :=
  .entry "global" 1 p.span :: p.block.landmarks [] [] []

/-- The requirements are checked until one is broken; the entries are told that come before. -/
inductive Enters (landmarks : List Landmark) (entries : List Event) :
    Option SemanticError → Prop where
  | done : (∀ r, .check r ∈ landmarks → r.Holds) → entries = landmarks.filterMap Landmark.event? →
    Enters landmarks entries none
  | stopped (before broken after) {e} : landmarks = before ++ .check broken :: after →
    (∀ r, .check r ∈ before → r.Holds) → ¬ broken.Holds → e.cause.code = broken.code →
    e.span = broken.span → entries = before.filterMap Landmark.event? →
    Enters landmarks entries (some e)

namespace Enters

variable {front back : List Landmark} {entries entries' : List Event} {error : Option SemanticError}
  {e : SemanticError}

theorem nil : Enters [] [] none :=
  .done (by simp) rfl

theorem append (h : Enters front entries none) (h' : Enters back entries' error) :
    Enters (front ++ back) (entries ++ entries') error := by
  cases h with
  | done hholds hentries =>
      have hall {landmarks : List Landmark} (hback : ∀ r, .check r ∈ landmarks → r.Holds) :
          ∀ r, .check r ∈ front ++ landmarks → r.Holds :=
        fun r hr => (List.mem_append.mp hr).elim (hholds r) (hback r)
      cases h' with
      | done hholds' hentries' =>
          refine .done (hall hholds') ?_
          rw [hentries, hentries', List.filterMap_append]
      | stopped before broken after hsplit hholds' hbroken hcode hspan hentries' =>
          refine .stopped (front ++ before) broken after ?_ (hall hholds') hbroken hcode hspan ?_
          · rw [hsplit, List.append_assoc]
          · rw [hentries, hentries', List.filterMap_append]

theorem stop (h : Enters front entries (some e)) : Enters (front ++ back) entries (some e) := by
  cases h with
  | stopped before broken after hsplit hholds hbroken hcode hspan hentries =>
      refine .stopped before broken (after ++ back) ?_ hholds hbroken hcode hspan hentries
      rw [hsplit, List.append_assoc, List.cons_append]

theorem entry (scope : String) (level : Nat) (span : Span) :
    Enters [.entry scope level span] [⟨.scopeEnter scope level, span⟩] none :=
  .done (by simp) rfl

end Enters

section

variable {requirements : List Requirement}

@[simp]
theorem Landmark.filterMap_event?_check :
    (requirements.map Landmark.check).filterMap Landmark.event? = [] := by
  simp [List.filterMap_map, Function.comp_def, Landmark.event?]

theorem Enters.checks (h : ∀ r ∈ requirements, r.Holds) :
    Enters (requirements.map .check) [] none :=
  .done (by simpa using h) Landmark.filterMap_event?_check.symm

theorem Rejects.enters {e : SemanticError} (h : Rejects requirements e) :
    Enters (requirements.map .check) [] (some e) := by
  obtain ⟨broken, ⟨before, after, rfl, hbefore, hbroken⟩, hcode, hspan⟩ := h
  refine .stopped (before.map .check) broken (after.map .check) (by simp) ?_ hbroken hcode hspan ?_
  · simpa using hbefore
  · exact Landmark.filterMap_event?_check.symm

theorem Settles.enters {α : Type} {P : α → Prop} {result : Except SemanticError α}
    (h : Settles requirements P result) :
    Enters (requirements.map .check) [] (problem? result) := by
  cases result with
  | ok a => exact .checks (h.passes a rfl).1
  | error e => exact (h.rejects e rfl).enters

end

def Event.isScopeEntry (e : Event) : Bool :=
  match e.kind with
  | .scopeEnter .. => true
  | _ => false

/-- The entries among the events of an analysis. -/
def Analysis.entries {α : Type} (a : Analysis α) : List Event :=
  a.events.filter Event.isScopeEntry

theorem filter_scopeEvents {α : Type} (span : Span) (entered : ScopeTable) (inner : Analysis α) :
    (scopeEvents span entered inner).filter Event.isScopeEntry =
      ⟨.scopeEnter entered.name entered.level, span⟩ :: inner.entries := by
  rw [scopeEvents, List.cons_append, List.filter_cons_of_pos rfl, List.filter_append,
    Analysis.entries]
  cases inner.error <;> simp [Event.isScopeEntry]

theorem procedureScope_enters {own : ScopeTable} {offered : List ScopeSymbol}
    (hown : own.Holds offered) {name : String} {params : List TypedName} {level : Nat}
    {declaration : DeclarationPath}
    (hmem : .procedure ⟨canonicalName name, params.map (·.symbol (own.level + 1)), level,
      declaration⟩ ∈ offered)
    (hparams : ∀ p ∈ params, p.FromSource) (span : Span) (block : Block)
    {analyzeBody : ScopeTable → Analysis Block} {landmarks : List Landmark}
    (hbody : ∀ table : ScopeTable,
      table.Holds ((params.map (·.symbol (own.level + 1))).map .variable) →
        table.level = own.level + 1 →
        Enters landmarks (analyzeBody table).entries (analyzeBody table).error) :
    Enters (.entry (canonicalName name) (own.level + 1) span ::
        ((paramRequirements [] params).map .check ++ landmarks))
      (procedureScope own span name params block analyzeBody).entries
      (procedureScope own span name params block analyzeBody).error := by
  have hentry := Enters.entry (canonicalName name) (own.level + 1) span
  rw [Analysis.entries]
  rcases procedureScope_cases hown hmem hparams span block analyzeBody with
    ⟨e, herror, -, hevents, hrejects⟩ | ⟨table, htable, hlevel, hholds, -, hevents, herror⟩
  · rw [herror, hevents]
    exact hentry.append hrejects.enters.stop
  · rw [herror, hevents, filter_scopeEvents]
    exact hentry.append ((Enters.checks hholds).append (hbody table htable hlevel))

mutual

theorem Block.analyze_enters {outer : ScopeChain} {visible : Visible}
    (houter : Represents outer visible) {own : ScopeTable} {path : DeclarationPath}
    {params : List TypedName}
    (hown : own.Holds ((params.map (·.symbol (path.length + 1))).map .variable))
    (hlevel : own.level = path.length + 1) :
    (block : Block) → block.FromSource →
      Enters (block.landmarks path params visible) (block.analyze outer own path).entries
        (block.analyze outer own path).error
  | .mk span declarations bodySpan body, hblock => by
    have hsettles := ScopeTable.declareHeaders_settles outer path 0 hblock.1 hown hlevel
    have hheaders := hsettles.enters
    have hentered : ((params.map (·.symbol (path.length + 1))).map ScopeSymbol.variable).map
        ScopeSymbol.name = params.map (canonicalName ·.name) := by
      simp [ScopeSymbol.name, TypedName.symbol]
    rw [hentered] at hheaders
    rw [Block.analyze, Block.landmarks]
    cases hresult : own.declareHeaders outer path 0 declarations with
    | error e =>
        rw [hresult] at hheaders
        rw [List.append_assoc]
        exact hheaders.stop
    | ok own' =>
        rw [hresult] at hheaders
        obtain ⟨-, htable, hlevel'⟩ := hsettles.passes own' hresult
        set s : LexicalScope := ⟨path, params, .mk span declarations bodySpan body, visible⟩
        have hown' : own'.Holds s.hoisted := htable
        have hprocedures : ∀ q ∈ procedureSymbols path 0 declarations, .procedure q ∈ s.hoisted :=
          fun q hq => List.mem_append_right _ (List.mem_map_of_mem hq)
        have hmembers := analyzeDeclarations_enters houter hown' (hlevel'.trans hlevel) 0
          declarations hblock.1 hprocedures
        have hanalyzed := analyzeDeclarations_analyzed houter hown' (hlevel'.trans hlevel) 0
          declarations hblock.1 hprocedures
        have hfront := hheaders.append hmembers
        simp only
        cases herror : (analyzeDeclarations outer own' path 0 declarations).error with
        | some e =>
            rw [herror] at hfront
            simpa [Analysis.within, Analysis.entries, herror] using hfront.stop
        | none =>
            rw [herror] at hfront
            have hchain : Represents ((analyzeDeclarations outer own' path 0 declarations).table ::
                outer) s.visible := .cons (hanalyzed.table herror) houter
            have hall := hfront.append (resolveStatements_settles hchain body hblock.2).enters
            rw [List.append_nil] at hall
            cases hresolved : (resolveStatements
                ((analyzeDeclarations outer own' path 0 declarations).table :: outer) body).2 with
            | ok _ =>
                rw [hresolved] at hall
                exact hall
            | error e =>
                rw [hresolved] at hall
                exact hall

theorem analyzeDeclarations_enters {outer : ScopeChain} {visible : Visible}
    (houter : Represents outer visible) {own : ScopeTable} {offered : List ScopeSymbol}
    {path : DeclarationPath} (hown : own.Holds offered) (hlevel : own.level = path.length + 1)
    (place : Nat) :
    (declarations : List Declaration) → declarationsFromSource declarations →
      (∀ q ∈ procedureSymbols path place declarations, .procedure q ∈ offered) →
      Enters (declarationLandmarks path visible offered place declarations)
        (analyzeDeclarations outer own path place declarations).entries
        (analyzeDeclarations outer own path place declarations).error
  | [], _, _ => .nil
  | .variable v :: rest, hdeclarations, hheaders => by
    have hsettles := ScopeTable.declareVariable_settles hown outer hdeclarations.1
    have hfirst := hsettles.enters
    rw [hlevel] at hsettles
    rw [analyzeDeclarations, declarationLandmarks]
    cases hresult : own.declareVariable outer v with
    | error e =>
        rw [hresult] at hfirst
        exact hfirst.stop
    | ok own' =>
        rw [hresult] at hfirst
        obtain ⟨-, hown', hlevel'⟩ := hsettles.passes own' hresult
        exact hfirst.append (analyzeDeclarations_enters houter hown' hlevel' (place + 1) rest
          hdeclarations.2 (fun q hq => List.mem_append_left _ (hheaders q hq)))
  | .procedure span name params block :: rest, hdeclarations, hheaders => by
    have hsymbol := hheaders _ (List.mem_cons_self ..)
    have hdeep : own.level + 1 = (path ++ [place]).length + 1 := by
      rw [hlevel, List.length_append, List.length_singleton]
    have hformals : path.length + 2 = own.level + 1 := by rw [hlevel]
    rw [hformals] at hsymbol
    have hscope := procedureScope_enters hown hsymbol hdeclarations.1.2.1 span block
      fun table htable htableLevel => Block.analyze_enters (.cons hown houter) (hdeep ▸ htable)
        (htableLevel.trans hdeep) block hdeclarations.1.2.2
    have hmore := analyzeDeclarations_enters houter hown hlevel (place + 1) rest hdeclarations.2
      (fun q hq => hheaders q (List.mem_cons_of_mem _ hq))
    rw [analyzeDeclarations, declarationLandmarks, hformals]
    cases herror : (procedureScope own span name params block fun table =>
        block.analyze (own :: outer) table (path ++ [place])).error with
    | some e =>
        rw [herror] at hscope
        exact hscope.stop
    | none =>
        rw [herror] at hscope
        simpa [Analysis.within, Analysis.entries] using hscope.append hmore

end

mutual

theorem Block.length_entries_landmarks (path : DeclarationPath) (params : List TypedName)
    (outer : Visible) :
    (block : Block) →
      ((block.landmarks path params outer).filterMap Landmark.event?).length = block.procedureCount
  | .mk span declarations bodySpan body => by
    rw [Block.landmarks, Block.procedureCount]
    simp only [List.filterMap_append, Landmark.filterMap_event?_check, List.nil_append,
      List.append_nil]
    exact length_entries_declarationLandmarks path outer _ 0 declarations

theorem length_entries_declarationLandmarks (path : DeclarationPath) (outer : Visible)
    (offered : List ScopeSymbol) (place : Nat) :
    (declarations : List Declaration) →
      ((declarationLandmarks path outer offered place declarations).filterMap
        Landmark.event?).length = procedureCount declarations
  | [] => rfl
  | .variable v :: rest => by
    rw [declarationLandmarks, procedureCount]
    exact length_entries_declarationLandmarks path outer _ (place + 1) rest
  | .procedure span name params block :: rest => by
    have hblock := Block.length_entries_landmarks (path ++ [place]) params (offered :: outer) block
    have hrest := length_entries_declarationLandmarks path outer offered (place + 1) rest
    rw [declarationLandmarks, procedureCount, List.filterMap_append, List.length_append, hrest,
      List.filterMap_cons, List.filterMap_append, Landmark.filterMap_event?_check, List.nil_append]
    simp only [Landmark.event?, List.length_cons, hblock]
    omega

end

namespace Program

variable {p : Program}

/-- The error that stops the analysis of a program, if one does. -/
def analysisError? (p : Program) : Option SemanticError :=
  match p.analyze.scopes with
  | .ok _ => none
  | .error e => some e

theorem analysisError?_eq (p : Program) :
    p.analysisError? = (p.block.analyze [] (ScopeTable.new "global" 1) []).error := by
  rcases p.analyze_scopes_cases with ⟨hnone, scopes, hscopes⟩ | ⟨e, herror, hscopes⟩
  · rw [analysisError?, hscopes, hnone]
  · rw [analysisError?, hscopes, herror]

theorem exists_scopes_of_analysisError? (h : p.analysisError? = none) :
    ∃ scopes, p.analyze.scopes = .ok scopes := by
  rw [analysisError?] at h
  split at h
  next scopes hscopes => exact ⟨scopes, hscopes⟩
  next => contradiction

/-- The scopes that analysis enters are those before the first requirement that is broken. -/
theorem analyze_enters (hp : p.FromSource) :
    Enters p.landmarks (p.analyze.events.filter Event.isScopeEntry) p.analysisError? := by
  have hentered : (ScopeTable.new "global" 1).Holds
      ((([] : List TypedName).map (·.symbol 1)).map .variable) := ScopeTable.holds_new "global" 1
  have hlevel : (ScopeTable.new "global" 1).level = ([] : DeclarationPath).length + 1 := rfl
  have hblock := Block.analyze_enters .nil hentered hlevel p.block hp.block
  rw [analysisError?_eq, analyze, filter_scopeEvents]
  exact (Enters.entry "global" 1 p.span).append hblock

/-- If analysis succeeds, it has entered the scope of the program and one for each procedure. -/
theorem length_analyze_entries (hp : p.FromSource) (hok : ∃ scopes, p.analyze.scopes = .ok scopes) :
    (p.analyze.events.filter Event.isScopeEntry).length = 1 + p.block.procedureCount := by
  obtain ⟨scopes, hscopes⟩ := hok
  have henters := analyze_enters hp
  rw [analysisError?, hscopes] at henters
  cases henters with
  | done _ hentries =>
      rw [hentries, landmarks, List.filterMap_cons]
      simp only [Landmark.event?, List.length_cons, Block.length_entries_landmarks]
      omega

end Program

end NestedPascal
