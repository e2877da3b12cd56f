import Mathlib.Data.List.Nodup
import NestedPascal.Proofs.Scope.BlockAnalysis
import NestedPascal.Proofs.Tree.Renaming

/-!
# Visibility in renamed programs

The scopes of a program in which a declaration is renamed are the scopes of the program, and what
they offer is what was offered before, renamed.  If the new name is not declared in the program,
nothing is captured: wherever a name denoted something, the name that has taken its place denotes
what has become of that.
-/

namespace NestedPascal

/-! ## What renamed declarations declare -/

section

variable {ρ : Renaming}

theorem TypedName.symbol_rename (v : TypedName) (path : DeclarationPath) :
    (v.rename ρ path).symbol (path.length + 1) =
      (v.symbol (path.length + 1)).rename ρ path := by
  rw [symbol, symbol, VariableSymbol.rename, VariableSymbol.mk.injEq, Nat.add_sub_cancel,
    List.take_length]
  exact ⟨Renaming.canonicalName_text rfl, rfl, rfl⟩

theorem map_symbol_rename (params : List TypedName) (path : DeclarationPath) :
    (params.map (·.rename ρ path)).map (·.symbol (path.length + 1)) =
      (params.map (·.symbol (path.length + 1))).map (·.rename ρ path) := by
  rw [List.map_map, List.map_map]
  exact List.map_congr_left fun v _ => v.symbol_rename path

theorem variableSymbols_rename (path : DeclarationPath) (place : Nat)
    (declarations : List Declaration) :
    variableSymbols (path.length + 1) (renameDeclarations ρ path place declarations) =
      (variableSymbols (path.length + 1) declarations).map (·.rename ρ path) := by
  induction declarations generalizing place with
  | nil => rfl
  | cons d rest ih =>
      cases d with
      | «variable» v =>
          rw [renameDeclarations, Declaration.rename, variableSymbols, variableSymbols, ih,
            v.symbol_rename, List.map_cons]
      | procedure span name params block => exact ih (place + 1)

theorem procedureSymbols_rename (path : DeclarationPath) (place : Nat)
    (declarations : List Declaration) :
    procedureSymbols path place (renameDeclarations ρ path place declarations) =
      (procedureSymbols path place declarations).map (·.rename ρ) := by
  induction declarations generalizing place with
  | nil => rfl
  | cons d rest ih =>
      cases d with
      | «variable» v => exact ih (place + 1)
      | procedure span name params block =>
          have hparams := map_symbol_rename params (path ++ [place]) (ρ := ρ)
          rw [List.length_append, List.length_singleton] at hparams
          rw [renameDeclarations, Declaration.rename, procedureSymbols, procedureSymbols, ih,
            hparams, Renaming.canonicalName_text rfl, List.map_cons, ProcedureSymbol.rename,
            List.dropLast_concat]

end

/-! ## What renamed names denote -/

def renameOffers (ρ : Renaming) (path : DeclarationPath) (offers : List ScopeSymbol) :
    List ScopeSymbol :=
  offers.map (·.rename ρ path)

def Visible.rename (ρ : Renaming) (path : DeclarationPath) (visible : Visible) : Visible :=
  visible.map (renameOffers ρ path)

/-- Nothing visible has a name. -/
def Visible.Avoids (visible : Visible) (name : String) : Prop :=
  ∀ offers ∈ visible, ∀ s ∈ offers, s.name ≠ name

/-- No variable visible is of a level beyond some. -/
def Visible.UpTo (visible : Visible) (level : Nat) : Prop :=
  ∀ offers ∈ visible, ∀ v, .variable v ∈ offers → v.level ≤ level

section

variable {ρ : Renaming} {path : DeclarationPath} {visible : Visible} {name : String}
  {symbol : ScopeSymbol}

theorem ScopeSymbol.exists_key (ρ : Renaming) (path : DeclarationPath) (s : ScopeSymbol) :
    ∃ scope, (s.rename ρ path).name = ρ.key scope s.name := by
  cases s with
  | builtinType kind =>
      have hother : 0 :: ρ.scope ≠ ρ.scope := fun h => by simpa using congrArg List.length h
      exact ⟨0 :: ρ.scope, by rw [Renaming.key, if_neg fun h => hother h.1]; rfl⟩
  | «variable» v => exact ⟨_, rfl⟩
  | procedure q => exact ⟨_, rfl⟩

theorem ScopeSymbol.name_rename_inj {s t : ScopeSymbol} (hs : s.name ≠ canonicalName ρ.fresh)
    (ht : t.name ≠ canonicalName ρ.fresh) (h : (s.rename ρ path).name = (t.rename ρ path).name) :
    s.name = t.name := by
  obtain ⟨scope, hscope⟩ := s.exists_key ρ path
  obtain ⟨scope', hscope'⟩ := t.exists_key ρ path
  rw [hscope, hscope'] at h
  exact Renaming.key_inj hs ht h

theorem Visible.mem_of_denote (h : visible.denote name = some symbol) :
    symbol.name = name ∧ ∃ offers ∈ visible, symbol ∈ offers := by
  obtain ⟨offers, hoffers, hfind⟩ := List.exists_of_findSome?_eq_some h
  exact ⟨by simpa using List.find?_some hfind, offers, hoffers, List.mem_of_find?_eq_some hfind⟩

/-- What a name denotes is what the new name denotes that has taken its place. -/
theorem Visible.denote_rename (havoids : visible.Avoids (canonicalName ρ.fresh))
    (h : visible.denote name = some symbol) :
    (visible.rename ρ path).denote (symbol.rename ρ path).name = some (symbol.rename ρ path) := by
  obtain ⟨hname, own, hown, hsymbol⟩ := mem_of_denote h
  have hfresh := havoids own hown symbol hsymbol
  -- Only what had the name before can have the new one now.
  have hother : ∀ offers ∈ visible, ∀ s ∈ offers, s.name ≠ name →
      (s.rename ρ path).name ≠ (symbol.rename ρ path).name := by
    intro offers hoffers s hs hne heq
    exact hne ((ScopeSymbol.name_rename_inj (havoids offers hoffers s hs) hfresh heq).trans hname)
  clear hown hfresh havoids
  induction visible with
  | nil => contradiction
  | cons offers outer ih =>
      obtain ⟨hhere, houter⟩ := List.forall_mem_cons.mp hother
      rw [denote, List.findSome?_cons] at h
      rw [rename, List.map_cons, denote, List.findSome?_cons]
      split at h
      next found hfound =>
        cases h
        obtain ⟨-, before, after, rfl, hbefore⟩ := List.find?_eq_some_iff_append.mp hfound
        have hfind : (renameOffers ρ path (before ++ symbol :: after)).find?
            (·.name = (symbol.rename ρ path).name) = some (symbol.rename ρ path) := by
          rw [List.find?_eq_some_iff_append]
          refine ⟨by simp, renameOffers ρ path before, renameOffers ρ path after,
            by simp [renameOffers], ?_⟩
          intro s' hs'
          obtain ⟨s, hs, rfl⟩ := List.mem_map.mp hs'
          simpa using hhere s (List.mem_append_left _ hs) (by simpa using hbefore s hs)
        rw [hfind]
      next hnone =>
        have hfind : (renameOffers ρ path offers).find?
            (·.name = (symbol.rename ρ path).name) = none := by
          rw [List.find?_eq_none] at hnone ⊢
          intro s' hs'
          obtain ⟨s, hs, rfl⟩ := List.mem_map.mp hs'
          simpa using hhere s hs (by simpa using hnone s hs)
        rw [hfind]
        exact ih h houter

theorem Visible.rename_append (hvisible : visible.UpTo (path.length + 1))
    (more : DeclarationPath) : visible.rename ρ (path ++ more) = visible.rename ρ path := by
  rw [rename, rename]
  refine List.map_congr_left fun offers hoffers => List.map_congr_left fun s hs => ?_
  cases s with
  | builtinType kind => rfl
  | «variable» v =>
      rw [ScopeSymbol.rename, ScopeSymbol.rename, v.rename_append (hvisible offers hoffers v hs)]
  | procedure q => rfl

theorem nodup_names_rename {symbols : List ScopeSymbol}
    (hsymbols : (symbols.map ScopeSymbol.name).Nodup)
    (havoids : ∀ s ∈ symbols, s.name ≠ canonicalName ρ.fresh) :
    ((renameOffers ρ path symbols).map ScopeSymbol.name).Nodup := by
  rw [renameOffers, List.map_map]
  refine (List.nodup_map_iff_inj_on hsymbols.of_map).mpr ?_
  intro s hs t ht heq
  exact List.inj_on_of_nodup_map hsymbols hs ht
    (ScopeSymbol.name_rename_inj (havoids s hs) (havoids t ht) heq)

end

/-! ## Renamed scopes -/

namespace LexicalScope

variable {ρ : Renaming} {s t : LexicalScope} {name : String}

def rename (ρ : Renaming) (s : LexicalScope) : LexicalScope :=
  ⟨s.declaration, s.params.map (·.rename ρ s.declaration), s.block.rename ρ s.declaration,
    s.outer.rename ρ s.declaration⟩

theorem declarations_rename (s : LexicalScope) :
    (s.rename ρ).block.declarations =
      renameDeclarations ρ s.declaration 0 s.block.declarations := by
  obtain ⟨declaration, params, ⟨span, declarations, bodySpan, body⟩, outer⟩ := s
  rfl

theorem hoisted_rename (s : LexicalScope) :
    (s.rename ρ).hoisted = renameOffers ρ s.declaration s.hoisted := by
  have hparams : (s.rename ρ).parameters = s.parameters.map (·.rename ρ s.declaration) :=
    map_symbol_rename s.params s.declaration
  have hprocedures : (s.rename ρ).procedures = s.procedures.map (·.rename ρ) := by
    rw [procedures, declarations_rename]
    exact procedureSymbols_rename s.declaration 0 s.block.declarations
  rw [hoisted, hoisted, hparams, hprocedures, renameOffers, List.map_append, List.map_map,
    List.map_map, List.map_map, List.map_map]
  rfl

theorem offered_rename (s : LexicalScope) :
    (s.rename ρ).offered = renameOffers ρ s.declaration s.offered := by
  have hvariables : (s.rename ρ).declaredVariables =
      s.declaredVariables.map (·.rename ρ s.declaration) := by
    rw [declaredVariables, declarations_rename]
    exact variableSymbols_rename s.declaration 0 s.block.declarations
  rw [offered, offered, hoisted_rename, hvariables, renameOffers, renameOffers, List.map_append,
    List.map_map, List.map_map]
  rfl

/-- What a scope declares is renamed by the name that it has there. -/
theorem name_rename_of_mem_offered {symbol : ScopeSymbol} (h : symbol ∈ s.offered) :
    (symbol.rename ρ s.declaration).name = ρ.key s.declaration symbol.name := by
  cases symbol with
  | builtinType kind => simp [offered, hoisted] at h
  | «variable» v =>
      exact VariableSymbol.name_rename (level_of_mem_locals (variable_mem_offered.mp h))
        List.prefix_rfl
  | procedure q =>
      obtain ⟨place, -, -, -, hdeclaration, -⟩ :=
        inner?_of_mem_procedures (procedure_mem_offered.mp h)
      change ρ.key q.declaration.dropLast q.name = ρ.key s.declaration q.name
      rw [hdeclaration, List.dropLast_concat]

theorem offeredBelow_rename (s : LexicalScope) (place : Nat) :
    (s.rename ρ).offeredBelow place = renameOffers ρ s.declaration (s.offeredBelow place) := by
  rw [offeredBelow, offeredBelow, hoisted_rename, declarations_rename, take_renameDeclarations]
  have hvariables := variableSymbols_rename s.declaration 0 (s.block.declarations.take place) (ρ := ρ)
  change _ ++ List.map _ (variableSymbols (s.declaration.length + 1) _) = _
  rw [hvariables, renameOffers, renameOffers, List.map_append, List.map_map, List.map_map]
  rfl

theorem upTo_offeredBelow (houter : s.outer.UpTo s.level) (place : Nat) :
    Visible.UpTo (s.offeredBelow place :: s.outer) s.level := by
  refine List.forall_mem_cons.mpr ⟨fun v hv => ?_, houter⟩
  exact Nat.le_of_eq (level_of_mem_locals
    (variable_mem_offered.mp (s.offeredBelow_subset place hv)))

theorem inner?_rename (houter : s.outer.UpTo s.level) (place : Nat) :
    (s.rename ρ).inner? place = (s.inner? place).map (·.rename ρ) := by
  rw [inner?, inner?, declarations_rename, getElem?_renameDeclarations, Nat.zero_add]
  cases s.block.declarations[place]? with
  | none => rfl
  | some d =>
      cases d with
      | «variable» v => rfl
      | procedure span name params block =>
          have hout := Visible.rename_append (ρ := ρ) (upTo_offeredBelow houter place) [place]
          simp only [Option.map_some, Declaration.rename]
          rw [offeredBelow_rename]
          simp only [rename, hout]
          rfl

theorem descendant?_rename (houter : s.outer.UpTo s.level) (path : DeclarationPath) :
    (s.rename ρ).descendant? path = (s.descendant? path).map (·.rename ρ) := by
  induction path generalizing s with
  | nil => rfl
  | cons place path ih =>
      rw [descendant?, descendant?, inner?_rename houter]
      cases ht : s.inner? place with
      | none => rfl
      | some t =>
          obtain ⟨-, -, -, hdeclaration, heq⟩ := inner?_eq_some ht
          apply ih
          intro offers hoffers v hv
          rw [heq] at hoffers
          have hlevel := upTo_offeredBelow houter place offers hoffers v hv
          rw [level] at hlevel ⊢
          rw [hdeclaration, List.length_append]
          omega

/-! ## Scopes of a program that does not declare a name -/

theorem offered_avoids (hparams : ∀ v ∈ s.params, canonicalName v.name ≠ name)
    (hblock : ∀ n ∈ s.block.declaredNames, canonicalName n ≠ name) :
    ∀ symbol ∈ s.offered, symbol.name ≠ name := by
  have hdeclared : ∀ d ∈ s.block.declarations, ∀ n ∈ d.declaredNames, canonicalName n ≠ name := by
    intro d hd n hn
    apply hblock
    rw [Block.declaredNames_eq]
    exact mem_namesDeclaredAmong.mpr ⟨d, hd, hn⟩
  intro symbol hsymbol
  cases symbol with
  | builtinType kind => simp [offered, hoisted] at hsymbol
  | «variable» v =>
      obtain ⟨w, hw | hw, rfl⟩ := exists_declared_of_mem_locals (variable_mem_offered.mp hsymbol)
      · exact hparams w hw
      · exact hdeclared _ hw w.name (List.mem_singleton_self _)
  | procedure q =>
      obtain ⟨i, span, written, params, block, hget, rfl⟩ :=
        mem_procedureSymbols (procedure_mem_offered.mp hsymbol)
      exact hdeclared _ (List.mem_of_getElem? hget) written (List.mem_cons_self ..)

/-- A name that is declared neither around a block nor in it is visible nowhere in it. -/
theorem everywhere_avoids (houter : s.outer.Avoids name)
    (hparams : ∀ v ∈ s.params, canonicalName v.name ≠ name)
    (hblock : ∀ n ∈ s.block.declaredNames, canonicalName n ≠ name) :
    s.Everywhere (·.visible.Avoids name) := by
  intro path t ht
  induction path generalizing s with
  | nil =>
      cases ht
      exact List.forall_mem_cons.mpr ⟨offered_avoids hparams hblock, houter⟩
  | cons place path ih =>
      obtain ⟨u, hu, ht⟩ := Option.bind_eq_some_iff.mp ht
      obtain ⟨span, procedure, hget, -, heq⟩ := inner?_eq_some hu
      have hdeclared : ∀ n ∈ (Declaration.procedure span procedure u.params u.block).declaredNames,
          canonicalName n ≠ name := by
        intro n hn
        apply hblock
        rw [Block.declaredNames_eq]
        exact mem_namesDeclaredAmong.mpr ⟨_, List.mem_of_getElem? hget, hn⟩
      refine ih ?_ ?_ ?_ ht
      · rw [heq]
        refine List.forall_mem_cons.mpr ⟨fun symbol hsymbol => ?_, houter⟩
        exact offered_avoids hparams hblock symbol (s.offeredBelow_subset place hsymbol)
      · intro v hv
        exact hdeclared _ (List.mem_cons_of_mem _ (List.mem_append_left _ (List.mem_map_of_mem hv)))
      · intro n hn
        exact hdeclared n (List.mem_cons_of_mem _ (List.mem_append_right _ hn))

end LexicalScope

theorem Program.scope?_rename (p : Program) (ρ : Renaming) (path : DeclarationPath) :
    (p.rename ρ).scope? path = (p.scope? path).map (·.rename ρ) := by
  have houter : p.globalScope.outer.UpTo p.globalScope.level := by
    intro offers hoffers
    contradiction
  exact LexicalScope.descendant?_rename houter path

end NestedPascal
