import Mathlib.Data.List.Nodup
import NestedPascal.Proofs.Scope.Settling

/-!
# Entering declared names into tables

Entering a name, a parameter list or the headers of a block settles that the names are fresh, and the
table then holds the new symbols behind the ones it held.
-/

namespace NestedPascal

namespace ScopeTable

variable {t : ScopeTable} {symbols : List ScopeSymbol}

theorem Holds.find?_of_mem (h : t.Holds symbols) {s : ScopeSymbol} (hs : s ∈ symbols) :
    t.find? s.name = some s := by
  rw [h.find?_unreserved (h.unreserved s hs)]
  have hsome : (symbols.find? (·.name = s.name)).isSome := by
    rw [List.find?_isSome]
    exact ⟨s, hs, by simp⟩
  obtain ⟨found, hfound⟩ := Option.isSome_iff_exists.mp hsome
  have hname : found.name = s.name := by simpa using List.find?_some hfound
  rw [hfound, Option.some.injEq]
  exact List.inj_on_of_nodup_map h.nodup (List.mem_of_find?_eq_some hfound) hs hname

theorem requireUnique_settles (h : t.Holds symbols) {name : String} (hname : IsIdentifier name)
    (span : Span) :
    Settles [.fresh (symbols.map ScopeSymbol.name) (canonicalName name) span]
      (fun _ => canonicalName name ∉ symbols.map ScopeSymbol.name)
      (t.requireUnique (canonicalName name) name span) := by
  have htaken := h.isSome_find?_iff hname.not_reserved
  unfold requireUnique
  by_cases hsome : (t.find? (canonicalName name)).isSome = true
  · rw [if_pos hsome]
    exact .error (.first (fun hfresh => hfresh (htaken.mp hsome)) rfl rfl)
  · rw [if_neg hsome]
    have hfresh := fun hmem => hsome (htaken.mpr hmem)
    exact .ok (List.forall_mem_singleton.mpr hfresh) hfresh

theorem declareVariable_settles (h : t.Holds symbols) (outer : ScopeChain) {v : TypedName}
    (hv : v.FromSource) :
    Settles [.fresh (symbols.map ScopeSymbol.name) (canonicalName v.name) v.span]
      (fun t' => t'.Holds (symbols ++ [.variable (v.symbol t.level)]) ∧ t'.level = t.level)
      (t.declareVariable outer v) := by
  have hunique := requireUnique_settles h hv.name v.span
  rw [declareVariable, hv.resolveType h outer]
  change Settles _ _ ((t.requireUnique (canonicalName v.name) v.name v.span).bind fun _ =>
    .ok (t.insert (.variable (v.symbol t.level))))
  cases hresult : t.requireUnique (canonicalName v.name) v.name v.span with
  | error e => exact .error (hunique.rejects e hresult)
  | ok _ =>
      obtain ⟨hholds, hfresh⟩ := hunique.passes _ hresult
      exact .ok hholds ⟨h.insert hv.name.canonicalName_canonicalName hv.name.not_reserved hfresh, rfl⟩

theorem paramSymbols_eq (h : t.Holds symbols) (outer : ScopeChain) {params : List TypedName}
    (hparams : ∀ p ∈ params, p.FromSource) :
    t.paramSymbols outer params = .ok (params.map (·.symbol (t.level + 1))) := by
  induction params with
  | nil => rfl
  | cons p rest ih =>
      obtain ⟨hp, hrest⟩ := List.forall_mem_cons.mp hparams
      rw [paramSymbols, hp.resolveType h outer, ih hrest]
      rfl

theorem declareProcedure_settles (h : t.Holds symbols) (outer : ScopeChain)
    (declaration : DeclarationPath) (span : Span) {name : String} (hname : IsIdentifier name)
    {params : List TypedName} (hparams : ∀ p ∈ params, p.FromSource) :
    Settles [.fresh (symbols.map ScopeSymbol.name) (canonicalName name) span]
      (fun t' => t'.Holds (symbols ++ [.procedure ⟨canonicalName name,
        params.map (·.symbol (t.level + 1)), t.level, declaration⟩]) ∧ t'.level = t.level)
      (t.declareProcedure outer declaration span name params) := by
  have hunique := requireUnique_settles h hname span
  rw [declareProcedure, paramSymbols_eq h outer hparams]
  change Settles _ _ ((t.requireUnique (canonicalName name) name span).bind fun _ =>
    .ok (t.insert (.procedure ⟨canonicalName name, params.map (·.symbol (t.level + 1)), t.level,
      declaration⟩)))
  cases hresult : t.requireUnique (canonicalName name) name span with
  | error e => exact .error (hunique.rejects e hresult)
  | ok _ =>
      obtain ⟨hholds, hfresh⟩ := hunique.passes _ hresult
      exact .ok hholds ⟨h.insert hname.canonicalName_canonicalName hname.not_reserved hfresh, rfl⟩

theorem declareHeaders_settles (outer : ScopeChain) (path : DeclarationPath) (place : Nat)
    {declarations : List Declaration} (hdeclarations : declarationsFromSource declarations)
    (h : t.Holds symbols) (hlevel : t.level = path.length + 1) :
    Settles (headerRequirements (symbols.map ScopeSymbol.name) declarations)
      (fun t' => t'.Holds
          (symbols ++ (procedureSymbols path place declarations).map .procedure) ∧
        t'.level = t.level)
      (t.declareHeaders outer path place declarations) := by
  induction declarations generalizing t symbols place with
  | nil =>
      refine .ok (by simp [headerRequirements]) ⟨?_, rfl⟩
      simpa [procedureSymbols] using h
  | cons d rest ih =>
      cases d with
      | «variable» v => exact ih (place + 1) hdeclarations.2 h hlevel
      | procedure span name params block =>
          obtain ⟨⟨hname, hparams, -⟩, hrest⟩ := hdeclarations
          have hfirst := declareProcedure_settles h outer (path ++ [place]) span hname hparams
          rw [declareHeaders, headerRequirements, procedureSymbols]
          change Settles _ _ ((t.declareProcedure outer (path ++ [place]) span name params).bind
            fun t => t.declareHeaders outer path (place + 1) rest)
          cases hresult : t.declareProcedure outer (path ++ [place]) span name params with
          | error e => exact .error (hfirst.rejects e hresult).cons_of_singleton
          | ok t' =>
              obtain ⟨hholds, ht', hlevel'⟩ := hfirst.passes t' hresult
              have hmore := ih (place + 1) hrest ht' (hlevel'.trans hlevel)
              rw [List.map_append, List.map_singleton] at hmore
              change Settles _ _ (t'.declareHeaders outer path (place + 1) rest)
              cases hmoreResult : t'.declareHeaders outer path (place + 1) rest with
              | error e =>
                  exact .error (.cons (List.forall_mem_singleton.mp hholds)
                    (hmore.rejects e hmoreResult))
              | ok t'' =>
                  obtain ⟨hmoreHolds, ht'', hlevel''⟩ := hmore.passes t'' hmoreResult
                  refine .ok ?_ ⟨?_, hlevel''.trans hlevel'⟩
                  · exact List.forall_mem_cons.mpr ⟨List.forall_mem_singleton.mp hholds, hmoreHolds⟩
                  · simpa [hlevel] using ht''

theorem declareParams_settles {params : List TypedName} (hparams : ∀ p ∈ params, p.FromSource)
    (level : Nat) (h : t.Holds symbols) :
    Settles (paramRequirements (symbols.map ScopeSymbol.name) params)
      (fun t' => t'.Holds (symbols ++ (params.map (·.symbol level)).map .variable) ∧
        t'.level = t.level)
      (t.declareParams params (params.map (·.symbol level))) := by
  induction params generalizing t symbols with
  | nil =>
      refine .ok (by simp [paramRequirements]) ⟨?_, rfl⟩
      simpa using h
  | cons p rest ih =>
      obtain ⟨hp, hrest⟩ := List.forall_mem_cons.mp hparams
      have hunique := requireUnique_settles h hp.name p.span
      rw [List.map_cons, declareParams, paramRequirements]
      change Settles _ _ ((t.requireUnique (canonicalName p.name) p.name p.span).bind fun _ =>
        (t.insert (.variable (p.symbol level))).declareParams rest (rest.map (·.symbol level)))
      cases hresult : t.requireUnique (canonicalName p.name) p.name p.span with
      | error e => exact .error (hunique.rejects e hresult).cons_of_singleton
      | ok _ =>
          obtain ⟨hholds, hfresh⟩ := hunique.passes _ hresult
          have hinsert : (t.insert (.variable (p.symbol level))).Holds
              (symbols ++ [.variable (p.symbol level)]) :=
            h.insert hp.name.canonicalName_canonicalName hp.name.not_reserved hfresh
          have hmore := ih hrest hinsert
          rw [List.map_append, List.map_singleton] at hmore
          change Settles _ _
            ((t.insert (.variable (p.symbol level))).declareParams rest (rest.map (·.symbol level)))
          cases hmoreResult : (t.insert (.variable (p.symbol level))).declareParams rest
              (rest.map (·.symbol level)) with
          | error e =>
              exact .error (.cons (List.forall_mem_singleton.mp hholds)
                (hmore.rejects e hmoreResult))
          | ok t' =>
              obtain ⟨hmoreHolds, ht', hlevel⟩ := hmore.passes t' hmoreResult
              refine .ok ?_ ⟨?_, hlevel⟩
              · exact List.forall_mem_cons.mpr ⟨List.forall_mem_singleton.mp hholds, hmoreHolds⟩
              · simpa using ht'

end ScopeTable

end NestedPascal
