import Mathlib.Logic.Relation
import NestedPascal.CommandLine.Invocation

/-!
# The command of a list of arguments

The command is the first argument that is neither an option nor the value of one.  An option that
requires a value takes the next argument whatever it is; one that may have a value takes the next
argument unless that begins with a dash; and two dashes end the options.  There is one command at
most, and a scan of the arguments has it as its first operand.
-/

namespace NestedPascal

open Relation (ReflTransGen)

/-! ## Flags -/

def BeginsWithDash (arg : String) : Prop :=
  arg.toList.head? = some '-'

instance : DecidablePred BeginsWithDash :=
  fun arg => inferInstanceAs (Decidable (arg.toList.head? = some '-'))

theorem looksLikeOption_eq_true_iff {arg : String} :
    looksLikeOption arg = true ↔ BeginsWithDash arg ∧ arg ≠ "-" := by
  have hdash : arg = "-" ↔ arg.toList = ['-'] := String.toList_inj.symm
  rw [Ne, hdash, looksLikeOption, BeginsWithDash]
  cases arg.toList with
  | nil => simp
  | cons c cs => cases cs <;> grind

/-- A dash and a name, such as `-o`. -/
def IsShortFlag (flag : String) : Prop :=
  ∃ c name, flag.toList = '-' :: c :: name ∧ c ≠ '-' ∧ '=' ∉ c :: name

/-- Two dashes and a name, such as `--out`. -/
def IsLongFlag (flag : String) : Prop :=
  ∃ c name, flag.toList = '-' :: '-' :: c :: name ∧ '=' ∉ c :: name

def IsFlag (flag : String) : Prop :=
  IsShortFlag flag ∨ IsLongFlag flag

namespace IsFlag

variable {flag : String}

theorem not_mem (h : IsFlag flag) : '=' ∉ flag.toList := by
  rcases h with ⟨c, name, hflag, -, hname⟩ | ⟨c, name, hflag, hname⟩
  · rw [hflag, List.mem_cons, not_or]
    exact ⟨by decide, hname⟩
  · rw [hflag, List.mem_cons, List.mem_cons, not_or, not_or]
    exact ⟨by decide, by decide, hname⟩

theorem ne_dashes (h : IsFlag flag) : flag ≠ "--" := by
  rintro rfl
  rcases h with ⟨c, name, hflag, hc, -⟩ | ⟨c, name, hflag, -⟩
  · cases hflag
    exact hc rfl
  · cases hflag

/-- With or without more behind it, a flag looks like an option. -/
theorem looksLikeOption_append (h : IsFlag flag) (more : String) :
    looksLikeOption (flag ++ more) = true := by
  rcases h with ⟨c, name, hflag, -⟩ | ⟨c, name, hflag, -⟩ <;>
    simp [looksLikeOption, String.toList_append, hflag]

theorem looksLikeOption (h : IsFlag flag) : looksLikeOption flag = true := by
  simpa using h.looksLikeOption_append ""

theorem beginsWithDash (h : IsFlag flag) : BeginsWithDash flag :=
  (looksLikeOption_eq_true_iff.mp h.looksLikeOption).1

end IsFlag

namespace OptionSpec

structure WellFlagged (o : OptionSpec) : Prop where
  short : ∀ flag ∈ o.short, IsShortFlag flag
  long : ∀ flag ∈ o.long, IsLongFlag flag

/-- The option takes the next argument as its value. -/
def Takes (o : OptionSpec) (next : String) : Prop :=
  match o.value with
  | .none => False
  | .required _ => True
  | .optional _ => ¬ BeginsWithDash next

instance (o : OptionSpec) : DecidablePred o.Takes := fun next =>
  match h : o.value with
  | .none => isFalse (by simp [Takes, h])
  | .required _ => isTrue (by simp [Takes, h])
  | .optional _ => decidable_of_iff (¬ BeginsWithDash next) (by simp [Takes, h])

variable {options : List OptionSpec} {arg next : String} {o : OptionSpec}

theorem isFlag_of_find? (hflags : ∀ o ∈ options, o.WellFlagged)
    (h : find? options arg = some o) : IsFlag arg := by
  unfold find? at h
  have ho := hflags o (List.mem_of_find?_eq_some h)
  have hnamed := List.find?_some h
  rw [named, Bool.or_eq_true, beq_iff_eq, beq_iff_eq] at hnamed
  rcases hnamed with hlong | hshort
  · exact .inr (ho.long arg hlong)
  · exact .inl (ho.short arg hshort)

theorem find?_eq_none_of_mem (hflags : ∀ o ∈ options, o.WellFlagged) (h : '=' ∈ arg.toList) :
    find? options arg = none := by
  cases hfind : find? options arg with
  | none => rfl
  | some o => exact absurd h (isFlag_of_find? hflags hfind).not_mem

theorem Takes.takesValue (h : o.Takes next) : o.takesValue = true := by
  unfold Takes at h
  unfold OptionSpec.takesValue
  split at h
  next => contradiction
  next hvalue => rw [hvalue]
  next hvalue => rw [hvalue]

/-- An option that may have a value leaves the next argument only if the value is optional. -/
theorem optional_of_not_takes (hvalue : o.takesValue = true) (h : ¬ o.Takes next) :
    (∃ name, o.value = .optional name) ∧ BeginsWithDash next := by
  unfold OptionSpec.takesValue at hvalue
  unfold Takes at h
  split at hvalue
  next => contradiction
  next =>
    split at h
    next => contradiction
    next => exact absurd trivial h
    next name hoptional => exact ⟨⟨name, hoptional⟩, Classical.not_not.mp h⟩

end OptionSpec

/-! ## Options before the command -/

/-- An option at the front of the arguments, with the value that it takes, and what is left. -/
inductive ReadsOption (options : List OptionSpec) : List String → List String → Prop where
  | alone {arg : String} {o : OptionSpec} {rest : List String} :
    OptionSpec.find? options arg = some o → (∀ next ∈ rest.head?, ¬ o.Takes next) →
      ReadsOption options (arg :: rest) rest
  | withValue {arg : String} {o : OptionSpec} {value : String} {rest : List String} :
    OptionSpec.find? options arg = some o → o.Takes value →
      ReadsOption options (arg :: value :: rest) rest
  | assigned {long : String} {o : OptionSpec} {value : String} {rest : List String} :
    OptionSpec.find? options long = some o → o.long = some long →
      ReadsOption options ((long ++ "=" ++ value) :: rest) rest

/-- What is named as the command where no option is read. -/
inductive NamesCommand : List String → Option String → Prop where
  | nothing : NamesCommand [] none
  | operand {arg : String} {rest : List String} :
    looksLikeOption arg = false → NamesCommand (arg :: rest) (some arg)
  | separated {rest : List String} : NamesCommand ("--" :: rest) rest.head?

/-- The command, if there is one, stands behind options and their values. -/
def Dispatches (options : List OptionSpec) (args : List String) (command : Option String) : Prop :=
  ∃ rest, ReflTransGen (ReadsOption options) args rest ∧ NamesCommand rest command

/-! ## One command at most -/

section

variable {options : List OptionSpec} {args rest rest' : List String}
  {command command' : Option String}

theorem ReadsOption.front (hflags : ∀ o ∈ options, o.WellFlagged)
    (h : ReadsOption options args rest) :
    ∃ arg behind, args = arg :: behind ∧ looksLikeOption arg = true ∧ arg ≠ "--" := by
  cases h with
  | alone hfind =>
      have hflag := OptionSpec.isFlag_of_find? hflags hfind
      exact ⟨_, _, rfl, hflag.looksLikeOption, hflag.ne_dashes⟩
  | withValue hfind =>
      have hflag := OptionSpec.isFlag_of_find? hflags hfind
      exact ⟨_, _, rfl, hflag.looksLikeOption, hflag.ne_dashes⟩
  | @assigned long o value rest hfind =>
      refine ⟨_, _, rfl, ?_, fun heq => ?_⟩
      · rw [String.append_assoc]
        exact (OptionSpec.isFlag_of_find? hflags hfind).looksLikeOption_append _
      · have hequals : '=' ∈ (long ++ "=" ++ value).toList := by simp
        rw [heq] at hequals
        exact absurd hequals (by decide)

theorem ReadsOption.unique (hflags : ∀ o ∈ options, o.WellFlagged)
    (h : ReadsOption options args rest) (h' : ReadsOption options args rest') : rest = rest' := by
  -- An argument with an equals sign is no flag, so each argument is read in one way only.
  have hassigned {long value : String} {o : OptionSpec}
      (hfind : OptionSpec.find? options (long ++ "=" ++ value) = some o) : False := by
    have hequals : '=' ∈ (long ++ "=" ++ value).toList := by simp
    rw [OptionSpec.find?_eq_none_of_mem hflags hequals] at hfind
    contradiction
  cases h with
  | alone hfind halone =>
      cases h' with
      | alone => rfl
      | withValue hfind' htakes =>
          cases hfind.symm.trans hfind'
          exact absurd htakes (halone _ rfl)
      | assigned => exact (hassigned hfind).elim
  | withValue hfind htakes =>
      cases h' with
      | alone hfind' halone =>
          cases hfind.symm.trans hfind'
          exact absurd htakes (halone _ rfl)
      | withValue => rfl
      | assigned => exact (hassigned hfind).elim
  | assigned =>
      generalize hargs : _ :: rest = args at h'
      cases h' with
      | alone hfind =>
          cases hargs
          exact (hassigned hfind).elim
      | withValue hfind =>
          cases hargs
          exact (hassigned hfind).elim
      | assigned => exact (List.cons.inj hargs).2

theorem NamesCommand.not_readsOption (hflags : ∀ o ∈ options, o.WellFlagged)
    (h : NamesCommand args command) : ¬ ReadsOption options args rest := by
  intro hreads
  obtain ⟨arg, behind, rfl, hoption, hdashes⟩ := hreads.front hflags
  cases h with
  | operand hoperand => exact absurd hoption (by simp [hoperand])
  | separated => exact hdashes rfl

theorem NamesCommand.unique (h : NamesCommand args command) (h' : NamesCommand args command') :
    command = command' := by
  cases h with
  | nothing =>
      cases h'
      rfl
  | operand =>
      cases h' with
      | operand => rfl
      | separated => contradiction
  | separated =>
      cases h' with
      | operand => contradiction
      | separated => rfl

/-- Behind the arguments come those that are left after one option. -/
theorem eq_or_reaches (hflags : ∀ o ∈ options, o.WellFlagged) {next : List String}
    (hstep : ReadsOption options args next) (h : ReflTransGen (ReadsOption options) args rest) :
    rest = args ∨ ReflTransGen (ReadsOption options) next rest := by
  obtain rfl | ⟨next', hstep', hrest⟩ := h.cases_head
  · exact .inl rfl
  · exact .inr (hstep.unique hflags hstep' ▸ hrest)

theorem NamesCommand.eq_of_reaches (hflags : ∀ o ∈ options, o.WellFlagged)
    (h : NamesCommand args command) (hreaches : ReflTransGen (ReadsOption options) args rest) :
    rest = args := by
  obtain rfl | ⟨next, hstep, -⟩ := hreaches.cases_head
  · rfl
  · exact absurd hstep (h.not_readsOption hflags)

theorem Dispatches.unique (hflags : ∀ o ∈ options, o.WellFlagged)
    (h : Dispatches options args command) (h' : Dispatches options args command') :
    command = command' := by
  obtain ⟨rest, hreaches, hnames⟩ := h
  obtain ⟨rest', hreaches', hnames'⟩ := h'
  induction hreaches using ReflTransGen.head_induction_on with
  | refl => exact hnames.unique (hnames.eq_of_reaches hflags hreaches' ▸ hnames')
  | head hstep _ ih =>
      rcases eq_or_reaches hflags hstep hreaches' with rfl | hreaches'
      · exact absurd hstep (hnames'.not_readsOption hflags)
      · exact ih hreaches'

/-- A dash by itself is met only as the command. -/
theorem Dispatches.head?_ne_dash (hflags : ∀ o ∈ options, o.WellFlagged)
    (h : Dispatches options args command) (hcommand : command ≠ some "-")
    (hreaches : ReflTransGen (ReadsOption options) args rest) : rest.head? ≠ some "-" := by
  intro hhead
  obtain ⟨behind, rfl⟩ := List.head?_eq_some_iff.mp hhead
  exact hcommand (h.unique hflags ⟨_, hreaches, .operand rfl⟩)

end

/-! ## The first operand of a scan -/

namespace ScannedArgs

variable {options : List OptionSpec} {args rest : List String} {arg long value : String}
  {o : OptionSpec} {s : ScannedArgs} {known : Bool} {scanned : Except String ScannedArgs}
  {command : Option String}

theorem set_eq_ok {value : Option String} (h : set o value scanned = .ok s) :
    ∃ s', scanned = .ok s' ∧ s.operands = s'.operands ∧ s.unknown = s'.unknown := by
  unfold set at h
  split at h
  next => contradiction
  next =>
    cases scanned with
    | error message => contradiction
    | ok s' =>
        cases h
        exact ⟨s', rfl, rfl, rfl⟩

theorem keep_eq_ok (h : keep arg known scanned = .ok s) :
    ∃ s', scanned = .ok s' ∧ s.operands = (if known then [arg] else []) ++ s'.operands ∧
      s.unknown = (if known then [] else [arg]) ++ s'.unknown := by
  unfold keep at h
  cases scanned with
  | error message => contradiction
  | ok s' =>
      cases h
      cases known <;> exact ⟨s', rfl, rfl, rfl⟩

/-- Behind an unknown option there are no more operands. -/
theorem operands_of_scanFrom (h : scanFrom options known args = .ok s) (hknown : known = false) :
    s.operands = [] := by
  fun_induction scanFrom options known args generalizing s with
  | case1 =>
      cases h
      rfl
  | case2 =>
      subst hknown
      cases h
      rfl
  | case4 => contradiction
  | case3 | case5 | case6 | case7 | case8 | case9 | case10 =>
      rename_i ih
      obtain ⟨s', hs', hoperands, -⟩ := set_eq_ok h
      exact hoperands.trans (ih hs' hknown)
  | case11 =>
      rename_i ih
      subst hknown
      obtain ⟨s', hs', hoperands, -⟩ := keep_eq_ok h
      rw [hoperands, ih hs' rfl]
      rfl

theorem scanFrom_alone (hflags : ∀ o ∈ options, o.WellFlagged)
    (hfind : OptionSpec.find? options arg = some o) (halone : ∀ next ∈ rest.head?, ¬ o.Takes next)
    (hdash : rest.head? ≠ some "-") (h : scanFrom options known (arg :: rest) = .ok s) :
    set o none (scanFrom options known rest) = .ok s := by
  have hflag := OptionSpec.isFlag_of_find? hflags hfind
  unfold scanFrom at h
  simp only [hflag.ne_dashes, if_false, hflag.looksLikeOption, if_true, hfind] at h
  split at h
  next hrequired =>
    refine absurd ?_ (halone _ rfl)
    rw [OptionSpec.Takes, hrequired]
    trivial
  next => contradiction
  next next rest hoptional =>
    have hbegins := (OptionSpec.optional_of_not_takes (by rw [OptionSpec.takesValue, hoptional])
      (halone next rfl)).2
    have hoption : looksLikeOption next = true :=
      looksLikeOption_eq_true_iff.mpr ⟨hbegins, fun heq => hdash (congrArg some heq)⟩
    rwa [if_pos hoption] at h
  next => exact h

theorem scanFrom_withValue (hflags : ∀ o ∈ options, o.WellFlagged)
    (hfind : OptionSpec.find? options arg = some o) (htakes : o.Takes value) :
    scanFrom options known (arg :: value :: rest) =
      set o (some value) (scanFrom options known rest) := by
  have hflag := OptionSpec.isFlag_of_find? hflags hfind
  rw [scanFrom.eq_def]
  simp only [hflag.ne_dashes, if_false, hflag.looksLikeOption, if_true, hfind]
  unfold OptionSpec.Takes at htakes
  split at htakes
  next => contradiction
  next hrequired => simp only [hrequired]
  next hoptional =>
    have hoperand : looksLikeOption value = false := by
      rw [← Bool.not_eq_true, looksLikeOption_eq_true_iff]
      exact fun hoption => htakes hoption.1
    simp only [hoptional, hoperand, Bool.false_eq_true, if_false]

theorem splitAssignment?_append (h : IsLongFlag long) (value : String) :
    splitAssignment? (long ++ "=" ++ value) = some (long, value) := by
  obtain ⟨c, name, hlong, hname⟩ := h
  have hchars : (long ++ "=" ++ value).toList = '-' :: '-' :: (c :: name ++ '=' :: value.toList) := by
    simp [hlong]
  have hall : ∀ d ∈ c :: name, (d != '=') = true := by
    intro d hd
    rw [bne_iff_ne]
    rintro rfl
    exact hname hd
  have hflag : String.ofList ('-' :: '-' :: c :: name) = long := by
    rw [← hlong, String.ofList_toList]
  rw [splitAssignment?, hchars]
  simp only [List.takeWhile_append_of_pos hall, List.dropWhile_append_of_pos hall]
  simp [hflag]

theorem scanFrom_assigned (hflags : ∀ o ∈ options, o.WellFlagged)
    (hfind : OptionSpec.find? options long = some o) (hlong : o.long = some long) :
    scanFrom options known ((long ++ "=" ++ value) :: rest) =
      if o.takesValue then set o (some value) (scanFrom options known rest)
      else keep (long ++ "=" ++ value) false (scanFrom options false rest) := by
  have hread : ReadsOption options ((long ++ "=" ++ value) :: rest) rest := .assigned hfind hlong
  obtain ⟨arg, behind, heq, hoption, hdashes⟩ := hread.front hflags
  cases heq
  have hequals : '=' ∈ (long ++ "=" ++ value).toList := by simp
  have hnone := OptionSpec.find?_eq_none_of_mem hflags hequals
  have hflag : IsLongFlag long := (hflags o (List.mem_of_find?_eq_some hfind)).long long hlong
  have hgroup : group? options (long ++ "=" ++ value) = none := by
    obtain ⟨c, name, hchars, -⟩ := hflag
    simp [group?, hchars]
  have hassignment : assignment? options (long ++ "=" ++ value) =
      if o.takesValue then some (o, value) else none := by
    simp [assignment?, splitAssignment?_append hflag, hfind]
  rw [scanFrom.eq_def]
  simp only [hdashes, if_false, hoption, if_true, hnone, hassignment]
  split
  next hsome =>
    rw [hgroup] at hsome
    contradiction
  next => cases o.takesValue <;> simp

/-- The scan left over a flag that was given a value though it has none, and found no operand. -/
def LeavesAssignment (s : ScannedArgs) (options : List OptionSpec) : Prop :=
  s.operands = [] ∧ ∃ long o value, OptionSpec.find? options long = some o ∧
    o.takesValue = false ∧ s.unknown.head? = some (long ++ "=" ++ value)

theorem eq_ok_of_readsOption (hflags : ∀ o ∈ options, o.WellFlagged)
    (h : ReadsOption options args rest) (hdash : rest.head? ≠ some "-")
    (hs : scan options args = .ok s) :
    (∃ s', scan options rest = .ok s' ∧ s.operands = s'.operands ∧ s.unknown = s'.unknown) ∨
      s.LeavesAssignment options := by
  rw [scan] at hs
  cases h with
  | alone hfind halone => exact .inl (set_eq_ok (scanFrom_alone hflags hfind halone hdash hs))
  | withValue hfind htakes =>
      rw [scanFrom_withValue hflags hfind htakes] at hs
      exact .inl (set_eq_ok hs)
  | @assigned long o value rest hfind hlong =>
      rw [scanFrom_assigned hflags hfind hlong] at hs
      split at hs
      next => exact .inl (set_eq_ok hs)
      next hvalue =>
        obtain ⟨s', hs', hoperands, hunknown⟩ := keep_eq_ok hs
        rw [operands_of_scanFrom hs' rfl] at hoperands
        refine .inr ⟨hoperands, long, o, value, hfind, Bool.eq_false_iff.mpr hvalue, ?_⟩
        rw [hunknown]
        rfl

theorem scanFrom_operand (hoperand : looksLikeOption arg = false) :
    scanFrom options true (arg :: rest) = keep arg true (scanFrom options true rest) := by
  have hdashes : arg ≠ "--" := by
    rintro rfl
    contradiction
  have hgroup : group? options arg = none := by
    unfold group?
    split
    next hchars => simp [looksLikeOption, hchars] at hoperand
    next => rfl
  have hassignment : assignment? options arg = none := by
    have hsplit : splitAssignment? arg = none := by
      unfold splitAssignment?
      split
      next hchars => simp [looksLikeOption, hchars] at hoperand
      next => rfl
    simp [assignment?, hsplit]
  rw [scanFrom.eq_def]
  simp only [hdashes, if_false, hoperand, Bool.false_eq_true, hassignment]
  split
  next hsome =>
    rw [hgroup] at hsome
    contradiction
  next => rfl

theorem head?_operands_of_names (h : NamesCommand args command) (hs : scan options args = .ok s) :
    s.operands.head? = command := by
  rw [scan] at hs
  cases h with
  | nothing =>
      rw [scanFrom] at hs
      cases hs
      rfl
  | separated =>
      rw [scanFrom] at hs
      cases hs
      rfl
  | operand hoperand =>
      rw [scanFrom_operand hoperand] at hs
      obtain ⟨s', -, hoperands, -⟩ := keep_eq_ok hs
      rw [hoperands]
      rfl

/-- Where a scan of the arguments succeeds, the command is its first operand. -/
theorem head?_operands_of_dispatches (hflags : ∀ o ∈ options, o.WellFlagged)
    (h : Dispatches options args command)
    (hdash : ∀ rest, ReflTransGen (ReadsOption options) args rest → rest.head? ≠ some "-")
    (hs : scan options args = .ok s) :
    s.operands.head? = command ∨ s.LeavesAssignment options := by
  obtain ⟨rest, hreaches, hnames⟩ := h
  induction hreaches using ReflTransGen.head_induction_on generalizing s with
  | refl => exact .inl (head?_operands_of_names hnames hs)
  | head hstep hreaches ih =>
      have hdash' : ∀ rest, ReflTransGen (ReadsOption options) _ rest → rest.head? ≠ some "-" :=
        fun rest hrest => hdash rest (.head hstep hrest)
      rcases eq_ok_of_readsOption hflags hstep (hdash' _ .refl) hs with ⟨s', hs', hsame, hunknown⟩ | hleft
      · rw [LeavesAssignment, hsame, hunknown]
        exact ih hdash' hs'
      · exact .inr hleft

end ScannedArgs

end NestedPascal
