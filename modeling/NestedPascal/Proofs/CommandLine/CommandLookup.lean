import NestedPascal.Proofs.CommandLine.Dispatch

/-!
# Looking up the command

The look-up for the name of the command skips an argument after every option that may take a value,
whether the option takes it or not.  So it finds the command unless it skips an option or the two
dashes that way, and it finds every command if no option's value is optional.  The program's own
options have no values, and no command of the program is taken for an unknown one.
-/

namespace NestedPascal

open Relation (ReflTransGen)

variable {options : List OptionSpec} {args rest : List String} {arg : String} {o : OptionSpec}
  {command : Option String}

/-- An option that may have a value stands before an argument that it does not take and that counts by
itself: two dashes or an option that may have a value. -/
def MistakesValue (options : List OptionSpec) : List String → Prop
  | arg :: next :: _ =>
    ∃ o ∈ OptionSpec.find? options arg, o.takesValue = true ∧ ¬ o.Takes next ∧
      (next = "--" ∨ ∃ p ∈ OptionSpec.find? options next, p.takesValue = true)
  | _ => False

instance : DecidablePred (MistakesValue options)
  | [] => inferInstanceAs (Decidable False)
  | [_] => inferInstanceAs (Decidable False)
  | arg :: next :: _ => inferInstanceAs (Decidable (∃ o ∈ OptionSpec.find? options arg,
      o.takesValue = true ∧ ¬ o.Takes next ∧
        (next = "--" ∨ ∃ p ∈ OptionSpec.find? options next, p.takesValue = true)))

/-! ## One argument -/

theorem commandName?_cons (options : List OptionSpec) (arg : String) (rest : List String) :
    commandName? options (arg :: rest) =
      if arg = "--" then rest.head?
      else if ¬ BeginsWithDash arg then some arg
      else if '=' ∉ arg.toList ∧ (OptionSpec.find? options arg).any (·.takesValue) then
        commandName? options rest.tail
      else commandName? options rest := by
  rw [commandName?.eq_def]
  by_cases hequals : '=' ∈ arg.toList <;> cases rest <;> simp [BeginsWithDash, hequals, commandName?]

theorem commandName?_value (hflag : IsFlag arg) (h : OptionSpec.find? options arg = some o)
    (hvalue : o.takesValue = true) :
    commandName? options (arg :: rest) = commandName? options rest.tail := by
  rw [commandName?_cons, if_neg hflag.ne_dashes, if_neg (not_not_intro hflag.beginsWithDash),
    if_pos ⟨hflag.not_mem, by simpa [h] using hvalue⟩]

theorem commandName?_skip (hdash : BeginsWithDash arg) (hne : arg ≠ "--")
    (h : ∀ o, OptionSpec.find? options arg = some o → o.takesValue = false) :
    commandName? options (arg :: rest) = commandName? options rest := by
  rw [commandName?_cons, if_neg hne, if_neg (not_not_intro hdash), if_neg]
  rintro ⟨-, hany⟩
  obtain ⟨o, ho, hvalue⟩ := (Option.any_eq_true ..).mp hany
  exact absurd (h o ho) (by simp [hvalue])

/-! ## All arguments -/

theorem ReadsOption.commandName?_eq (hflags : ∀ o ∈ options, o.WellFlagged)
    (h : ReadsOption options args rest) (hright : ¬ MistakesValue options args) :
    commandName? options args = commandName? options rest := by
  obtain ⟨front, behind, hargs, hoption, hdashes⟩ := h.front hflags
  have hdash := (looksLikeOption_eq_true_iff.mp hoption).1
  cases h with
  | @alone arg o rest hfind halone =>
      cases hargs
      cases hvalue : o.takesValue with
      | false =>
          refine commandName?_skip hdash hdashes fun p hp => ?_
          cases hfind.symm.trans hp
          exact hvalue
      | true =>
          rw [commandName?_value (OptionSpec.isFlag_of_find? hflags hfind) hfind hvalue]
          cases rest with
          | nil => rfl
          | cons next rest =>
              have hnext := halone next rfl
              -- The argument that is skipped as a value would have been skipped by itself.
              refine (commandName?_skip (OptionSpec.optional_of_not_takes hvalue hnext).2 ?_
                fun p hp => ?_).symm
              · rintro rfl
                exact hright ⟨o, hfind, hvalue, hnext, .inl rfl⟩
              · rw [← Bool.not_eq_true]
                intro hp'
                exact hright ⟨o, hfind, hvalue, hnext, .inr ⟨p, hp, hp'⟩⟩
  | withValue hfind htakes =>
      exact commandName?_value (OptionSpec.isFlag_of_find? hflags hfind) hfind htakes.takesValue
  | @assigned long o value rest =>
      cases hargs
      refine commandName?_skip hdash hdashes fun p hp => ?_
      rw [OptionSpec.find?_eq_none_of_mem hflags (by simp)] at hp
      contradiction

theorem commandName?_of_reaches (hflags : ∀ o ∈ options, o.WellFlagged)
    (h : ReflTransGen (ReadsOption options) args rest)
    (hright : ∀ r, ReflTransGen (ReadsOption options) args r → ¬ MistakesValue options r) :
    commandName? options args = commandName? options rest := by
  induction h with
  | refl => rfl
  | tail hreaches hstep ih => exact ih.trans (hstep.commandName?_eq hflags (hright _ hreaches))

theorem NamesCommand.commandName?_eq (h : NamesCommand rest command)
    (hdash : rest.head? ≠ some "-") : commandName? options rest = command := by
  cases h with
  | nothing => rfl
  | separated => rw [commandName?_cons, if_pos rfl]
  | @operand arg rest hoperand =>
      have hne : arg ≠ "--" := by
        rintro rfl
        contradiction
      have hbegins : ¬ BeginsWithDash arg := by
        intro hbegins
        have hoption : looksLikeOption arg = true :=
          looksLikeOption_eq_true_iff.mpr ⟨hbegins, fun heq => hdash (congrArg some heq)⟩
        simp [hoperand] at hoption
      rw [commandName?_cons, if_neg hne, if_pos hbegins]

theorem Dispatches.commandName?_eq (hflags : ∀ o ∈ options, o.WellFlagged)
    (h : Dispatches options args command)
    (hdash : ∀ r, ReflTransGen (ReadsOption options) args r → r.head? ≠ some "-")
    (hright : ∀ r, ReflTransGen (ReadsOption options) args r → ¬ MistakesValue options r) :
    commandName? options args = command := by
  obtain ⟨rest, hreaches, hnames⟩ := h
  rw [commandName?_of_reaches hflags hreaches hright]
  exact hnames.commandName?_eq (hdash rest hreaches)

theorem unknownCommand?_eq_some_iff {commands : List CommandSpec} {name : String} :
    unknownCommand? options commands args = some name ↔
      commandName? options args = some name ∧ name ≠ "help" ∧
        ∀ c ∈ commands, c.name ≠ name ∧ name ∉ c.aliases := by
  unfold unknownCommand?
  cases commandName? options args with
  | none => simp
  | some found =>
      simp only [List.any_eq_true, Bool.or_eq_true, beq_iff_eq, List.contains_iff_mem,
        Option.some.injEq]
      constructor
      · intro h
        split at h
        next => contradiction
        next hunknown =>
          cases h
          obtain ⟨hhelp, hnone⟩ := not_or.mp hunknown
          exact ⟨rfl, hhelp, fun c hc => not_or.mp fun hnamed => hnone ⟨c, hc, hnamed⟩⟩
      · rintro ⟨rfl, hhelp, hnone⟩
        rw [if_neg]
        rintro (heq | ⟨c, hc, hnamed⟩)
        · exact hhelp heq
        · exact not_or.mpr (hnone c hc) hnamed

/-! ## Options with an optional value -/

theorem ReadsOption.suffix (h : ReadsOption options args rest) : rest <:+ args := by
  cases h with
  | alone => exact List.suffix_cons ..
  | withValue => exact (List.suffix_cons ..).trans (List.suffix_cons ..)
  | assigned => exact List.suffix_cons ..

theorem suffix_of_reaches (h : ReflTransGen (ReadsOption options) args rest) : rest <:+ args := by
  induction h with
  | refl => exact List.suffix_rfl
  | tail _ hstep ih => exact hstep.suffix.trans ih

theorem head?_ne_of_reaches {arg : String} (harg : arg ∉ args)
    (h : ReflTransGen (ReadsOption options) args rest) : rest.head? ≠ some arg := by
  intro hhead
  exact harg ((suffix_of_reaches h).subset (List.mem_of_head? hhead))

theorem not_mistakesValue (h : ∀ flag o, OptionSpec.find? options flag = some o →
    ∀ name, o.value ≠ .optional name) : ¬ MistakesValue options args := by
  intro hmistakes
  unfold MistakesValue at hmistakes
  split at hmistakes
  next =>
    obtain ⟨o, hfind, hvalue, hnext, -⟩ := hmistakes
    obtain ⟨⟨name, hoptional⟩, -⟩ := OptionSpec.optional_of_not_takes hvalue hnext
    exact h _ _ hfind name hoptional
  next => contradiction

/-- An option with an optional value, given twice in a row: the second time it takes a value, and the
look-up takes that for the command. -/
theorem commandName?_of_repeated (hflags : ∀ o ∈ options, o.WellFlagged) {flag name : String}
    (hfind : OptionSpec.find? options flag = some o) (hoptional : o.value = .optional name)
    {value : String} (hvalue : ¬ BeginsWithDash value) :
    Dispatches options [flag, flag, value] none ∧
      commandName? options [flag, flag, value] = some value := by
  have hflag := OptionSpec.isFlag_of_find? hflags hfind
  have hvalued : o.takesValue = true := by rw [OptionSpec.takesValue, hoptional]
  have hleaves : ¬ o.Takes flag := by
    rw [OptionSpec.Takes, hoptional]
    exact not_not_intro hflag.beginsWithDash
  have htakes : o.Takes value := by
    rw [OptionSpec.Takes, hoptional]
    exact hvalue
  constructor
  · have hfirst : ReadsOption options [flag, flag, value] [flag, value] :=
      .alone hfind fun next hnext => Option.some.inj hnext ▸ hleaves
    exact ⟨[], .head hfirst (.single (.withValue hfind htakes)), .nothing⟩
  · have hne : value ≠ "--" := by
      rintro rfl
      exact hvalue rfl
    rw [commandName?_value hflag hfind hvalued, List.tail_cons, commandName?_cons, if_neg hne,
      if_pos hvalue]

/-- The look-up finds the command if it meets no dash by itself and skips, as the value of an option
that does not take it, neither two dashes nor an option that may have a value; exactly the names that
are no command are then unknown, and a scan has the command as its first operand unless a flag was given
a value.  Where no argument is a dash, that is every command exactly if no option's value is optional. -/
theorem command_found_unless_option_skipped (hflags : ∀ o ∈ options, o.WellFlagged) :
    (∀ args command, Dispatches options args command →
      (∀ rest, ReflTransGen (ReadsOption options) args rest →
        rest.head? ≠ some "-" ∧ ¬ MistakesValue options rest) →
      commandName? options args = command ∧
        (∀ commands name, unknownCommand? options commands args = some name ↔
          command = some name ∧ name ≠ "help" ∧
            ∀ c ∈ commands, c.name ≠ name ∧ name ∉ c.aliases) ∧
        ∀ s, ScannedArgs.scan options args = .ok s →
          s.operands.head? = command ∨ s.LeavesAssignment options) ∧
    ((∀ args command, "-" ∉ args → Dispatches options args command →
        commandName? options args = command) ↔
      ∀ flag o, OptionSpec.find? options flag = some o → ∀ name, o.value ≠ .optional name) := by
  refine ⟨fun args command h hright => ?_, fun h flag o hfind name hoptional => ?_, ?_⟩
  · have hfound := h.commandName?_eq hflags (fun r hr => (hright r hr).1) fun r hr => (hright r hr).2
    refine ⟨hfound, fun commands name => ?_, fun s hs => ?_⟩
    · rw [unknownCommand?_eq_some_iff, hfound]
    · exact ScannedArgs.head?_operands_of_dispatches hflags h (fun r hr => (hright r hr).1) hs
  · have hvalue : ¬ BeginsWithDash "x" := by decide
    obtain ⟨hdispatches, hfound⟩ := commandName?_of_repeated hflags hfind hoptional hvalue
    have hdash : "-" ∉ [flag, flag, "x"] := by
      have hflag : "-" ≠ flag := by
        rintro rfl
        exact absurd (OptionSpec.isFlag_of_find? hflags hfind).looksLikeOption (by decide)
      simp [hflag]
    rw [h _ _ hdash hdispatches] at hfound
    contradiction
  · intro hvalues args command hdash h
    exact h.commandName?_eq hflags (fun r hr => head?_ne_of_reaches hdash hr)
      fun r _ => not_mistakesValue hvalues

/-- Options of each kind: one with an optional value, one with a required value and one with none. -/
def optionsOfEachKind : List OptionSpec :=
  [{ short := some "-o", long := some "--out", value := .optional "path" },
    { short := none, long := some "--cwd", value := .required "dir" },
    { short := none, long := some "--quiet", value := .none }]

theorem wellFlagged_optionsOfEachKind : ∀ o ∈ optionsOfEachKind, o.WellFlagged := by
  have hout : IsShortFlag "-o" := ⟨'o', [], rfl, by decide, by decide⟩
  have hlong : IsLongFlag "--out" ∧ IsLongFlag "--cwd" ∧ IsLongFlag "--quiet" :=
    ⟨⟨'o', ['u', 't'], rfl, by decide⟩, ⟨'c', ['w', 'd'], rfl, by decide⟩,
      ⟨'q', ['u', 'i', 'e', 't'], rfl, by decide⟩⟩
  obtain ⟨hlong, hcwd, hquiet⟩ := hlong
  simp only [optionsOfEachKind, List.forall_mem_cons]
  exact ⟨⟨by simpa, by simpa⟩, ⟨by simp, by simpa⟩, ⟨by simp, by simpa⟩, by simp⟩

/-- Options and values of every sort before the command, a dash by itself among the values. -/
theorem command_found_behind_options :
    commandName? optionsOfEachKind ["--cwd", "-", "-o", "--quiet", "--out=x", "run", "-o"] =
        some "run" ∧
      unknownCommand? optionsOfEachKind [⟨"run", []⟩]
        ["--cwd", "-", "-o", "--quiet", "--out=x", "run", "-o"] = none := by
  have hflags := wellFlagged_optionsOfEachKind
  have hcwd : ReadsOption optionsOfEachKind
      ["--cwd", "-", "-o", "--quiet", "--out=x", "run", "-o"]
      ["-o", "--quiet", "--out=x", "run", "-o"] := .withValue rfl (by decide)
  have hout : ReadsOption optionsOfEachKind ["-o", "--quiet", "--out=x", "run", "-o"]
      ["--quiet", "--out=x", "run", "-o"] := .alone rfl (by decide)
  have hquiet : ReadsOption optionsOfEachKind ["--quiet", "--out=x", "run", "-o"]
      ["--out=x", "run", "-o"] := .alone rfl (by decide)
  have hassigned : ReadsOption optionsOfEachKind ["--out=x", "run", "-o"] ["run", "-o"] :=
    @ReadsOption.assigned _ "--out" _ "x" _ rfl rfl
  have hnames : NamesCommand ["run", "-o"] (some "run") := .operand (by decide)
  have hdispatches : Dispatches optionsOfEachKind
      ["--cwd", "-", "-o", "--quiet", "--out=x", "run", "-o"] (some "run") :=
    ⟨_, .head hcwd (.head hout (.head hquiet (.single hassigned))), hnames⟩
  obtain ⟨hfound, hunknown, -⟩ := (command_found_unless_option_skipped hflags).1 _ _ hdispatches (by
    intro rest hrest
    rcases eq_or_reaches hflags hcwd hrest with rfl | hrest
    · exact ⟨by decide, by decide +kernel⟩
    rcases eq_or_reaches hflags hout hrest with rfl | hrest
    · exact ⟨by decide, by decide +kernel⟩
    rcases eq_or_reaches hflags hquiet hrest with rfl | hrest
    · exact ⟨by decide, by decide +kernel⟩
    rcases eq_or_reaches hflags hassigned hrest with rfl | hrest
    · exact ⟨by decide, by decide +kernel⟩
    cases hnames.eq_of_reaches hflags hrest
    exact ⟨by decide, by decide +kernel⟩)
  refine ⟨hfound, ?_⟩
  rw [Option.eq_none_iff_forall_ne_some]
  intro name hname
  obtain ⟨heq, -, hknown⟩ := (hunknown _ name).mp hname
  cases heq
  exact (hknown _ (.head _)).1 rfl

/-- An option that is skipped as the value of another one: its own value is taken for the command. -/
theorem value_taken_for_command :
    (∀ o ∈ optionsOfEachKind, o.WellFlagged) ∧
      (∀ command, Dispatches optionsOfEachKind ["--out", "--cwd", "work", "run"] command ↔
        command = some "run") ∧
      commandName? optionsOfEachKind ["--out", "--cwd", "work", "run"] = some "work" ∧
      unknownCommand? optionsOfEachKind [⟨"run", []⟩] ["--out", "--cwd", "work", "run"] =
        some "work" := by
  have hflags := wellFlagged_optionsOfEachKind
  have hout : ReadsOption optionsOfEachKind ["--out", "--cwd", "work", "run"]
      ["--cwd", "work", "run"] := .alone rfl (by decide)
  have hcwd : ReadsOption optionsOfEachKind ["--cwd", "work", "run"] ["run"] :=
    .withValue rfl (by decide)
  have hdispatches : Dispatches optionsOfEachKind ["--out", "--cwd", "work", "run"] (some "run") :=
    ⟨["run"], .head hout (.single hcwd), .operand (by decide)⟩
  refine ⟨hflags, fun command => ⟨fun h => h.unique hflags hdispatches, ?_⟩, by decide +kernel,
    by decide +kernel⟩
  rintro rfl
  exact hdispatches

/-! ## The commands of the program -/

namespace Invocation

theorem wellFlagged_programOptions : ∀ o ∈ programOptions, o.WellFlagged := by
  have hshort : IsShortFlag "-V" := ⟨'V', [], rfl, by decide, by decide⟩
  have hlong : IsLongFlag "--version" :=
    ⟨'v', ['e', 'r', 's', 'i', 'o', 'n'], rfl, by decide⟩
  simp only [programOptions, List.forall_mem_cons]
  exact ⟨⟨by simpa, by simpa⟩, by simp⟩

theorem value_of_programOptions {flag : String} {o : OptionSpec}
    (h : OptionSpec.find? programOptions flag = some o) (name : String) :
    o.value ≠ .optional name := by
  have hmem : o ∈ programOptions := List.mem_of_find?_eq_some h
  rw [programOptions, List.mem_singleton] at hmem
  simp [hmem]

/-- A command of the program that the arguments dispatch to is carried out, with the operands and the
options that the scan has left for it. -/
theorem ofArgs_of_dispatches {args : List String} {kind : CommandKind} {s : ScannedArgs}
    (h : Dispatches programOptions args (some kind.name))
    (hs : ScannedArgs.scan programOptions args = .ok s)
    (hversion : s.hasSetting "--version" = false) (hoperands : s.operands ≠ []) :
    ofArgs args = ofCommand kind s.operands.tail s.unknown := by
  have hflags := wellFlagged_programOptions
  have hkind : some kind.name ≠ some "-" := by cases kind <;> decide
  have hdash {r : List String} (hr : ReflTransGen (ReadsOption programOptions) args r) :=
    h.head?_ne_dash hflags hkind hr
  have hfound : commandName? programOptions args = some kind.name :=
    h.commandName?_eq hflags (fun _ hr => hdash hr)
      fun _ _ => not_mistakesValue fun _ _ hfind => value_of_programOptions hfind
  have hknown : unknownCommand? programOptions
      (CommandKind.all.map fun kind => { name := kind.name : CommandSpec }) args = none := by
    rw [Option.eq_none_iff_forall_ne_some]
    intro name hname
    obtain ⟨heq, -, hnone⟩ := unknownCommand?_eq_some_iff.mp hname
    cases hfound.symm.trans heq
    exact (hnone _ (List.mem_map_of_mem (by cases kind <;> decide))).1 rfl
  have hfirst : s.operands.head? = some kind.name := by
    rcases ScannedArgs.head?_operands_of_dispatches hflags h (fun _ hr => hdash hr) hs with
      hfirst | ⟨hnone, -⟩
    · exact hfirst
    · exact absurd hnone hoperands
  obtain ⟨behind, hbehind⟩ := List.head?_eq_some_iff.mp hfirst
  have hname : CommandKind.ofName? kind.name = some kind := by cases kind <;> decide
  simp [ofArgs, hknown, hs, hversion, hbehind, hname]

end Invocation

end NestedPascal
