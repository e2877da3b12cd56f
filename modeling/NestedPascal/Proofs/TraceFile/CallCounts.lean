import Mathlib.Algebra.BigOperators.Group.Finset.Basic
import NestedPascal.Proofs.Binary64.Greatest
import NestedPascal.Proofs.Register
import NestedPascal.Proofs.Token.LongestMatch
import NestedPascal.Proofs.TraceFile.Summary

/-!
# Calls counted by procedure

A summary counts the calls of every procedure under its name.  For the names that programs have in
canonical form, two of them apart, the counts are numbers: one entry for each name that was called,
in the order of the first calls, and they add up to the calls in all.  The summary of two traces in
a row adds theirs.
-/

namespace NestedPascal

/-! ## Each name once -/

section EachOnce

variable {α : Type}

theorem filter_eraseDups [BEq α] [LawfulBEq α] (p : α → Bool) (xs : List α) :
    xs.eraseDups.filter p = (xs.filter p).eraseDups := by
  classical
  induction xs using List.reverseRecOn with
  | nil => rfl
  | append_singleton xs x ih =>
      rw [eraseDups_concat, List.filter_append]
      by_cases hp : p x = true
      · rw [List.filter_cons_of_pos hp, List.filter_nil, eraseDups_concat]
        by_cases hmem : x ∈ xs <;> simp [hmem, hp, ih]
      · rw [List.filter_cons_of_neg hp, List.filter_nil, List.append_nil]
        by_cases hmem : x ∈ xs <;> simp [hmem, hp, ih]

/-- What is counted for each member of a list adds up to its length. -/
theorem sum_count_eraseDups [BEq α] [LawfulBEq α] (xs : List α) :
    (xs.eraseDups.map fun x => xs.count x).sum = xs.length := by
  classical
  have hbeq : ‹BEq α› = instBEqOfDecidableEq := lawful_beq_subsingleton _ _
  subst hbeq
  have hperm : xs.eraseDups.Perm xs.dedup :=
    (List.perm_ext_iff_of_nodup (nodup_eraseDups xs) xs.nodup_dedup).mpr fun x => by simp
  rw [(hperm.map _).sum_eq, List.sum_map_count_dedup_eq_length]

end EachOnce

/-! ## Names of calls -/

namespace TraceLine

def procedure? (l : TraceLine) : Option Text :=
  (l.datum? "procedure").bind TraceDatum.text?

/-- The name that a line counts a call under. -/
def called? (l : TraceLine) : Option Text :=
  if l.event = Text.ofString "call_start" then some (l.procedure?.getD "unknown") else none

def depth? (l : TraceLine) : Option Binary64 :=
  (l.datum? "depth").bind TraceDatum.number?

end TraceLine

/-- The names of the calls that lines tell, one for each call. -/
def calledNames (lines : List TraceLine) : List Text :=
  lines.filterMap TraceLine.called?

theorem calledNames_append (lines lines' : List TraceLine) :
    calledNames (lines ++ lines') = calledNames lines ++ calledNames lines' :=
  List.filterMap_append

/-- The names of programs in canonical form: identifiers that are their own lower case. -/
def Text.IsCanonicalName (name : Text) : Prop :=
  ∃ chars, Lexeme.Member (.token .identifier) chars ∧ canonicalChars chars = chars ∧
    name = .ofChars chars

/-- Names whose calls are counted from zero and under an entry of their own. -/
def Text.IsCountable (name : Text) : Prop :=
  name.IsCanonicalName ∧ name ≠ .ofString "constructor" ∧ name ≠ .ofString "__proto__"

namespace TraceSummary

/-- The counts by procedure after one more call. -/
def countName (counts : Register Text CallCount) (name : Text) : Register Text CallCount :=
  if name = Text.ofString "__proto__" then counts
  else counts.set name ((counts.get? name).getD (initialCount name)).next

theorem countCall_eq_countName (s : TraceSummary) (name : Text) :
    s.countCall name =
      { s with calls := s.calls + 1, callsByProcedure := countName s.callsByProcedure name } := by
  rw [countCall, countName]
  split <;> rfl

theorem maxDepth_deepen_eq (s : TraceSummary) (depth : Option Binary64) :
    (s.deepen depth).maxDepth = depth.toList.foldl Binary64.greater s.maxDepth := by
  cases depth with
  | none => rfl
  | some x => exact s.maxDepth_deepen_some x

/-- What a summary has counted when lines were added to it. -/
structure Counts (lines : List TraceLine) (s s' : TraceSummary) : Prop where
  totalEvents : s'.totalEvents = s.totalEvents
  scopesEntered : s'.scopesEntered =
    s.scopesEntered + lines.countP (·.event = Text.ofString "scope_enter")
  calls : s'.calls = s.calls + (calledNames lines).length
  callsByProcedure : s'.callsByProcedure =
    (calledNames lines).foldl countName s.callsByProcedure
  maxDepth : s'.maxDepth =
    (lines.filterMap TraceLine.depth?).foldl Binary64.greater s.maxDepth

theorem Counts.trans {lines lines' : List TraceLine} {s s' s'' : TraceSummary}
    (h : Counts lines s s') (h' : Counts lines' s' s'') : Counts (lines ++ lines') s s'' := by
  refine ⟨h'.totalEvents.trans h.totalEvents, ?_, ?_, ?_, ?_⟩
  · rw [h'.scopesEntered, h.scopesEntered, List.countP_append, Nat.add_assoc]
  · rw [h'.calls, h.calls, calledNames_append, List.length_append, Nat.add_assoc]
  · rw [h'.callsByProcedure, h.callsByProcedure, ← List.foldl_append, ← calledNames_append]
  · rw [h'.maxDepth, h.maxDepth, ← List.foldl_append, ← List.filterMap_append]

theorem counts_add (s : TraceSummary) (l : TraceLine) : Counts [l] s (s.add l) := by
  have hdepth : [l].filterMap TraceLine.depth? = l.depth?.toList := by
    cases h : l.depth? <;> simp [h]
  have hevent {name : String} (h : l.event = Text.ofString name) (other : String) :
      l.event = Text.ofString other ↔ name = other := by rw [h, Text.ofString_inj]
  rw [add, ← TraceLine.depth?, deepen_eq, maxDepth_deepen_eq, ← hdepth]
  generalize hreached : ([l].filterMap TraceLine.depth?).foldl Binary64.greater s.maxDepth = reached
  simp only [mark]
  -- The start and the end of a run only set marks, which are no counts.
  split
  next h =>
    refine ⟨?_, ?_, ?_, ?_, ?_⟩ <;> simp [calledNames, TraceLine.called?, hevent h, hreached]
  split
  next h =>
    split <;> refine ⟨?_, ?_, ?_, ?_, ?_⟩ <;>
      simp [calledNames, TraceLine.called?, hevent h, hreached]
  split
  next h =>
    refine ⟨?_, ?_, ?_, ?_, ?_⟩ <;>
      simp [calledNames, TraceLine.called?, h, Text.ofString_inj, hreached]
  next hscope =>
    split
    next h =>
      refine ⟨?_, ?_, ?_, ?_, ?_⟩ <;>
        simp [calledNames, TraceLine.called?, TraceLine.procedure?, countCall_eq_countName, h,
          Text.ofString_inj, hreached]
    next h =>
      refine ⟨?_, ?_, ?_, ?_, ?_⟩ <;>
        simp [calledNames, TraceLine.called?, hscope, h, hreached]

theorem counts_foldl (lines : List TraceLine) (s : TraceSummary) :
    Counts lines s (lines.foldl add s) := by
  induction lines generalizing s with
  | nil => exact ⟨rfl, rfl, rfl, rfl, rfl⟩
  | cons l lines ih => exact (s.counts_add l).trans (ih (s.add l))

/-! ## The counts of some names -/

/-- The count of a name after some calls. -/
def countAfter (name : Text) (calls : Nat) : CallCount :=
  CallCount.next^[calls] (initialCount name)

/-- The entries of the counts are the names that can be set, in the order of their first calls, and
what each has counted. -/
theorem entries_foldl_countName (names : List Text) :
    (names.foldl countName .empty).entries =
      (names.filter (· ≠ Text.ofString "__proto__")).eraseDups.map fun name =>
        (name, countAfter name (names.count name)) := by
  induction names using List.reverseRecOn with
  | nil => rfl
  | append_singleton names name ih =>
      rw [List.foldl_append, List.foldl_cons, List.foldl_nil, List.filter_append]
      generalize names.foldl countName .empty = counts at ih
      have hother {k : Text} (hk : k ≠ name) : (names ++ [name]).count k = names.count k := by
        simp [List.count_append, hk.symm]
      rw [countName]
      by_cases hname : name = Text.ofString "__proto__"
      · rw [if_pos hname, ih, List.filter_cons_of_neg (by simp [hname]), List.filter_nil,
          List.append_nil]
        refine List.map_congr_left fun k hk => ?_
        have hset := (List.mem_filter.mp (List.mem_eraseDups.mp hk)).2
        rw [hother fun h => of_decide_eq_true hset (h.trans hname)]
      · have hmem : name ∈ (names.filter (· ≠ Text.ofString "__proto__")).eraseDups ↔
            name ∈ names := by simp [hname]
        have hfound : (counts.get? name).getD (initialCount name) =
            countAfter name (names.count name) := by
          rw [Register.get?, ih, Register.lookup_map]
          split
          next => rfl
          next h => rw [List.count_eq_zero_of_not_mem (hmem.not.mp h)]; rfl
        rw [if_neg hname, hfound, Register.set, ih, Register.replace_map _ _ (nodup_eraseDups _),
          List.filter_cons_of_pos (by simp [hname]), List.filter_nil, eraseDups_concat]
        simp only [List.mem_eraseDups]
        refine List.map_congr_left fun k _ => ?_
        by_cases hk : k = name
        · subst hk
          rw [if_pos rfl, List.count_append, List.count_singleton_self, countAfter, countAfter,
            Function.iterate_succ_apply']
        · rw [if_neg hk, hother hk]

theorem countAfter_of_zero {name : Text} (h : initialCount name = .count 0) (calls : Nat) :
    countAfter name calls = .count calls := by
  rw [countAfter, h]
  induction calls with
  | zero => rfl
  | succ calls ih => rw [Function.iterate_succ_apply', ih]; rfl

end TraceSummary

namespace Text

/-- What a record answers to a countable name is nothing. -/
theorem IsCountable.inheritedText?_eq {name : Text} (h : name.IsCountable) :
    inheritedText? name.toString = none := by
  obtain ⟨⟨chars, -, hlower, hname⟩, hconstructor, hproto⟩ := h
  have hshown : name.toString = String.ofList chars := by
    rw [hname, Text.toString, Text.shown_ofChars]
  have hupper {s : String} (hs : canonicalChars s.toList ≠ s.toList) : name.toString ≠ s := by
    rintro rfl
    rw [hshown, String.toList_ofList] at hs
    exact hs hlower
  have hreserved {s : String} (hs : name ≠ .ofString s) : name.toString ≠ s := by
    rintro rfl
    rw [hshown, Text.ofString, String.toList_ofList] at hs
    exact hs hname
  rw [inheritedText?, Option.map_eq_none_iff, Inherited.ofName?.eq_def]
  split
  case h_1 heq => exact absurd heq (hreserved hconstructor)
  case h_2 heq => exact absurd heq (hreserved hproto)
  all_goals first | rfl | exact absurd ‹_› (hupper (by decide))

/-- A canonical name is no array index, so a record keeps it where it was set. -/
theorem IsCanonicalName.arrayIndex?_eq {name : Text} (h : name.IsCanonicalName) :
    arrayIndex? name = none := by
  obtain ⟨_, ⟨first, rest, rfl, hfirst, -⟩, -, rfl⟩ := h
  have hdigit : ¬('0' ≤ first ∧ first ≤ '9') := by
    have key : ∀ n : Fin 0x80, isLetter (Char.ofNat n) = true →
        ¬('0' ≤ Char.ofNat n ∧ Char.ofNat n ≤ '9') := by decide
    simpa only [Char.ofNat_toNat] using
      key ⟨first.toNat, isLetter_ascii hfirst⟩ (by simpa using hfirst)
  simp only [Text.ofChars, List.map_cons, arrayIndex?, List.foldlM_cons, if_neg hdigit,
    Option.bind_eq_bind, Option.bind_none]

theorem isCanonicalName_ofString {s : String} {first : Char} {rest : List Char}
    (hs : s.toList = first :: rest) (hfirst : isLetter first = true)
    (hrest : rest.all isLetterOrDigit = true)
    (hlower : canonicalChars s.toList = s.toList) : (Text.ofString s).IsCanonicalName :=
  ⟨s.toList, ⟨first, rest, hs, hfirst, List.all_eq_true.mp hrest⟩, hlower, rfl⟩

theorem isCountable_unknown : (Text.ofString "unknown").IsCountable :=
  ⟨isCanonicalName_ofString rfl (by decide) (by decide) (by decide), by decide, by decide⟩

end Text

theorem recordOrder_eq_self {members : List (Text × α)}
    (h : ∀ m ∈ members, arrayIndex? m.1 = none) : recordOrder members = members := by
  have hindexed : members.filterMap (fun m => (arrayIndex? m.1).map (·, m)) = [] :=
    List.filterMap_eq_nil_iff.mpr fun m hm => by rw [h m hm]; rfl
  have hnamed : members.filter (fun m => (arrayIndex? m.1).isNone) = members :=
    List.filter_eq_self.mpr fun m hm => by rw [h m hm]; rfl
  simp [recordOrder, hindexed, hnamed]

/-! ## Calls counted by procedure -/

/-- Every procedure that lines name is countable. -/
def CountableCalls (lines : List TraceLine) : Prop :=
  ∀ l ∈ lines, l.event = Text.ofString "call_start" → ∀ name, l.procedure? = some name →
    name.IsCountable

theorem CountableCalls.isCountable {lines : List TraceLine} (h : CountableCalls lines)
    {name : Text} (hname : name ∈ calledNames lines) : name.IsCountable := by
  obtain ⟨l, hl, hcalled⟩ := List.mem_filterMap.mp hname
  rw [TraceLine.called?] at hcalled
  split at hcalled
  next hevent =>
    rw [Option.some.injEq] at hcalled
    cases hprocedure : l.procedure? with
    | none =>
        rw [hprocedure, Option.getD_none] at hcalled
        exact hcalled ▸ Text.isCountable_unknown
    | some called =>
        rw [hprocedure, Option.getD_some] at hcalled
        exact hcalled ▸ h l hl hevent called hprocedure
  next => contradiction

theorem CountableCalls.append {lines more : List TraceLine} (h : CountableCalls lines)
    (h' : CountableCalls more) : CountableCalls (lines ++ more) := by
  intro l hl
  rcases List.mem_append.mp hl with hl | hl
  · exact h l hl
  · exact h' l hl

/-- The calls that a count stands for; a text stands for none. -/
def CallCount.number : CallCount → Nat
  | count n => n
  | continued _ => 0

namespace TraceSummary

/-- The procedures that a summary has an entry for. -/
def procedures (s : TraceSummary) : List Text :=
  s.callsByProcedure.entries.map (·.1)

/-- The calls of a procedure that a summary tells. -/
def callsOf (s : TraceSummary) (name : Text) : Nat :=
  ((s.callsByProcedure.get? name).map CallCount.number).getD 0

/-- What a summary tells of the calls of lines. -/
structure CountsCalls (lines : List TraceLine) (s : TraceSummary) : Prop where
  /-- One entry for each name, in the order of the first calls, with the number of its calls. -/
  entries : s.callsByProcedure.entries = (calledNames lines).eraseDups.map fun name =>
    (name, .count ((calledNames lines).count name))
  /-- The entries are listed in the same order. -/
  listed : recordOrder s.callsByProcedure.entries = s.callsByProcedure.entries
  calls : s.calls = (calledNames lines).length
  sum : (s.callsByProcedure.values.map CallCount.number).sum = s.calls

/-- What the summary of two traces in a row is made of theirs. -/
structure Joins (s s' whole : TraceSummary) : Prop where
  totalEvents : whole.totalEvents = s.totalEvents + s'.totalEvents
  scopesEntered : whole.scopesEntered = s.scopesEntered + s'.scopesEntered
  calls : whole.calls = s.calls + s'.calls
  maxDepth : whole.maxDepth = s.maxDepth.greater s'.maxDepth
  /-- The procedures of the second trace follow, those of the first left out. -/
  procedures : whole.procedures = s.procedures ++ s'.procedures.removeAll s.procedures
  callsOf : ∀ name, whole.callsOf name = s.callsOf name + s'.callsOf name

theorem counts_ofLines (lines : List TraceLine) (skipped : Binary64) :
    ∃ s, s.totalEvents = lines.length ∧ s.scopesEntered = 0 ∧ s.calls = 0 ∧
      s.callsByProcedure = .empty ∧ s.maxDepth = .zero false ∧
      Counts lines s (ofLines lines skipped) :=
  ⟨_, rfl, rfl, rfl, rfl, rfl, counts_foldl lines _⟩

theorem ofLines_countsCalls {lines : List TraceLine} (h : CountableCalls lines)
    (skipped : Binary64) : CountsCalls lines (ofLines lines skipped) := by
  obtain ⟨s, -, -, hcalls, hempty, -, hcounts⟩ := counts_ofLines lines skipped
  have hnames : (calledNames lines).filter (· ≠ Text.ofString "__proto__") = calledNames lines :=
    List.filter_eq_self.mpr fun name hname => decide_eq_true (h.isCountable hname).2.2
  have hentries : (ofLines lines skipped).callsByProcedure.entries =
      (calledNames lines).eraseDups.map fun name =>
        (name, .count ((calledNames lines).count name)) := by
    rw [hcounts.callsByProcedure, hempty, entries_foldl_countName, hnames]
    refine List.map_congr_left fun name hname => ?_
    have hcountable := h.isCountable (List.mem_eraseDups.mp hname)
    rw [countAfter_of_zero (by rw [initialCount, hcountable.inheritedText?_eq])]
  have htotal : (ofLines lines skipped).calls = (calledNames lines).length := by
    rw [hcounts.calls, hcalls, Nat.zero_add]
  refine ⟨hentries, ?_, htotal, ?_⟩
  · apply recordOrder_eq_self
    rw [hentries]
    intro m hm
    obtain ⟨name, hname, rfl⟩ := List.mem_map.mp hm
    exact (h.isCountable (List.mem_eraseDups.mp hname)).1.arrayIndex?_eq
  · rw [htotal, ← sum_count_eraseDups, Register.values, hentries, List.map_map, List.map_map]
    rfl

theorem CountsCalls.procedures_eq {lines : List TraceLine} {s : TraceSummary}
    (h : CountsCalls lines s) : s.procedures = (calledNames lines).eraseDups := by
  rw [procedures, h.entries, List.map_map]
  exact List.map_id _

theorem CountsCalls.callsOf_eq {lines : List TraceLine} {s : TraceSummary}
    (h : CountsCalls lines s) (name : Text) :
    s.callsOf name = (calledNames lines).count name := by
  rw [callsOf, Register.get?, h.entries, Register.lookup_map]
  simp only [List.mem_eraseDups]
  split
  next => rfl
  next hname => exact (List.count_eq_zero_of_not_mem hname).symm

/-- The calls of every procedure are counted, and the summary of two traces in a row adds what
theirs have counted. -/
theorem calls_counted_by_procedure {lines : List TraceLine} (h : CountableCalls lines)
    (skipped : Binary64) :
    CountsCalls lines (ofLines lines skipped) ∧
      ∀ more skipped' skipped'', CountableCalls more →
        Joins (ofLines lines skipped) (ofLines more skipped')
          (ofLines (lines ++ more) skipped'') := by
  refine ⟨ofLines_countsCalls h skipped, fun more skipped' skipped'' h' => ?_⟩
  have hfirst := ofLines_countsCalls h skipped
  have hsecond := ofLines_countsCalls h' skipped'
  have hwhole := ofLines_countsCalls (h.append h') skipped''
  obtain ⟨s, htotal, hscopes, -, -, hdepth, hcounts⟩ := counts_ofLines lines skipped
  obtain ⟨s', htotal', hscopes', -, -, hdepth', hcounts'⟩ := counts_ofLines more skipped'
  obtain ⟨s'', htotal'', hscopes'', -, -, hdepth'', hcounts''⟩ :=
    counts_ofLines (lines ++ more) skipped''
  refine ⟨?_, ?_, ?_, ?_, ?_, ?_⟩
  · rw [hcounts.totalEvents, hcounts'.totalEvents, hcounts''.totalEvents, htotal, htotal', htotal'',
      List.length_append]
  · rw [hcounts.scopesEntered, hcounts'.scopesEntered, hcounts''.scopesEntered, hscopes, hscopes',
      hscopes'', List.countP_append]
    omega
  · rw [hfirst.calls, hsecond.calls, hwhole.calls, calledNames_append, List.length_append]
  · have hzero : (Binary64.zero false).lt (.zero false) = false := by decide
    rw [hcounts.maxDepth, hcounts'.maxDepth, hcounts''.maxDepth, hdepth, hdepth', hdepth'',
      List.filterMap_append, Binary64.foldl_greater_append (by simp [Binary64.zero]) hzero]
  · rw [hfirst.procedures_eq, hsecond.procedures_eq, hwhole.procedures_eq, calledNames_append,
      List.eraseDups_append, List.removeAll, List.removeAll, ← filter_eraseDups]
    simp
  · intro name
    rw [hfirst.callsOf_eq, hsecond.callsOf_eq, hwhole.callsOf_eq, calledNames_append,
      List.count_append]

/-- A line that tells a call of a procedure. -/
def callLine (procedure : String) : TraceLine :=
  ⟨"2024-01-01T00:00:00.000Z", "run", "call_start", [("procedure", .text procedure)]⟩

theorem countableCalls_map_callLine {names : List String}
    (h : ∀ name ∈ names, (Text.ofString name).IsCountable) :
    CountableCalls (names.map callLine) := by
  intro l hl _ called hcalled
  obtain ⟨name, hname, rfl⟩ := List.mem_map.mp hl
  obtain rfl : Text.ofString name = called := by
    simpa [callLine, TraceLine.procedure?, TraceLine.datum?, Register.lookup,
      TraceDatum.text?] using hcalled
  exact h name hname

/-- The trace of three calls, followed by that of two. -/
theorem calls_counted_of_two_traces :
    let lines := ["q", "unknown", "q"].map callLine
    let more := ["tostring", "q"].map callLine
    let s := ofLines lines (.zero false)
    CountableCalls lines ∧ CountableCalls more ∧
      s.callsByProcedure.entries =
        [(Text.ofString "q", .count 2), (Text.ofString "unknown", .count 1)] ∧
      Joins s (ofLines more (.zero false)) (ofLines (lines ++ more) (.zero false)) := by
  intro lines more s
  have hq : (Text.ofString "q").IsCountable :=
    ⟨Text.isCanonicalName_ofString rfl (by decide) (by decide) (by decide), by decide, by decide⟩
  have htostring : (Text.ofString "tostring").IsCountable :=
    ⟨Text.isCanonicalName_ofString rfl (by decide) (by decide) (by decide), by decide, by decide⟩
  have hlines : CountableCalls lines :=
    countableCalls_map_callLine (by simp [hq, Text.isCountable_unknown])
  have hmore : CountableCalls more := countableCalls_map_callLine (by simp [hq, htostring])
  obtain ⟨hcounts, hjoins⟩ := calls_counted_by_procedure hlines (.zero false)
  refine ⟨hlines, hmore, ?_, hjoins more _ _ hmore⟩
  rw [hcounts.entries]
  decide

/-- Two canonical names are not counted: a record answers to one with a text, which the count goes
on from, and the other is no name of an entry. -/
theorem not_countsCalls_of_inherited :
    (Text.ofString "constructor").IsCanonicalName ∧ (Text.ofString "__proto__").IsCanonicalName ∧
      ¬CountsCalls [callLine "constructor"] (ofLines [callLine "constructor"] (.zero false)) ∧
      ¬CountsCalls [callLine "__proto__"] (ofLines [callLine "__proto__"] (.zero false)) := by
  refine ⟨Text.isCanonicalName_ofString rfl (by decide) (by decide) (by decide),
    Text.isCanonicalName_ofString rfl (by decide) (by decide) (by decide), fun h => ?_, fun h => ?_⟩
  · have hentries := h.entries
    revert hentries
    decide
  · have hentries := h.entries
    revert hentries
    decide

end TraceSummary

end NestedPascal
