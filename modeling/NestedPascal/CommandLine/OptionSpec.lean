import NestedPascal.Text.Digits

/-!
# Options

An option has a long name, perhaps a short one, and takes no value, a required one or an optional
one.  Arguments are scanned from left to right.  An option that takes a required value takes the
next argument whatever it looks like; an optional value must not look like an option.  From the
first option that is not known on, what is not an option known here is kept apart, for a command
that may know it; after two dashes nothing is an option.
-/

namespace NestedPascal

inductive OptionValue where
  | none
  | required (name : String)
  | optional (name : String)
deriving DecidableEq, Repr

structure OptionSpec where
  short : Option String
  long : Option String
  value : OptionValue
  /-- What is wrong with a value, if anything is. -/
  complaint : String → Option String := fun _ => none

namespace OptionSpec

def takesValue (o : OptionSpec) : Bool :=
  match o.value with
  | .none => false
  | _ => true

def requiresValue (o : OptionSpec) : Bool :=
  match o.value with
  | .required _ => true
  | _ => false

def named (o : OptionSpec) (arg : String) : Bool :=
  o.long == some arg || o.short == some arg

/-- The option as it is written in messages. -/
def flags (o : OptionSpec) : String :=
  let names := ", ".intercalate (o.short.toList ++ o.long.toList)
  match o.value with
  | .none => names
  | .required name => names ++ " <" ++ name ++ ">"
  | .optional name => names ++ " [" ++ name ++ "]"

def find? (specs : List OptionSpec) (arg : String) : Option OptionSpec :=
  specs.find? (·.named arg)

/-- A single character after a dash. -/
private def isShort (flag : List Char) : Bool :=
  match flag with
  | ['-', c] => c != '-'
  | _ => false

/-- Cuts a text at runs of blanks, bars and commas. -/
private def pieces : List Char → List (List Char)
  | [] => [[]]
  | c :: rest =>
    let separates (c : Char) : Bool := c == ' ' || c == '|' || c == ','
    match pieces rest with
    | piece :: more =>
      if separates c then
        match rest with
        | d :: _ => if separates d then piece :: more else [] :: piece :: more
        | [] => [] :: piece :: more
      else (c :: piece) :: more
    | [] => [[c]]

/-- The option that a text such as `-o, --out [path]` describes. -/
def ofFlags (flags : String) : OptionSpec :=
  let cs := flags.toList
  let opensValue (p : List Char) : Bool := match p with
    | '<' :: _ | '[' :: _ => true
    | _ => false
  let (short, long) : Option (List Char) × Option (List Char) := match pieces cs with
    | first :: second :: rest =>
      if opensValue second then (none, some first)
      else (some first, (second :: rest).head?)
    | parts => (none, parts.head?)
  let (short, long) := match short, long with
    | none, some l => if isShort l then (some l, none) else (none, some l)
    | s, l => (s, l)
  let value : OptionValue :=
    if cs.contains '<' then .required "" else if cs.contains '[' then .optional "" else .none
  { short := short.map String.ofList, long := long.map String.ofList, value := value }

end OptionSpec

/-- Whether an argument looks like an option. -/
def looksLikeOption (arg : String) : Bool :=
  match arg.toList with
  | '-' :: _ :: _ => true
  | _ => false

/-- The arguments as scanned. -/
structure ScannedArgs where
  /-- The options met, in order, with their values. -/
  settings : List (OptionSpec × Option String)
  operands : List String
  /-- What is left to a command: the first unknown option and what follows it. -/
  unknown : List String

namespace ScannedArgs

def hasSetting (s : ScannedArgs) (long : String) : Bool :=
  s.settings.any fun (o, _) => o.long == some long

/-- The value that an option was last given. -/
def setting? (s : ScannedArgs) (long : String) : Option String :=
  (s.settings.reverse.find? fun (o, _) => o.long == some long).bind (·.2)

/-- Puts a setting before those of a scan, unless something is wrong with its value. -/
def set (o : OptionSpec) (value : Option String) (rest : Except String ScannedArgs) :
    Except String ScannedArgs :=
  match value.bind fun v => (o.complaint v).map (v, ·) with
  | some (v, problem) =>
    .error ("error: option '" ++ o.flags ++ "' argument '" ++ v ++ "' is invalid. " ++ problem)
  | none => rest.map fun s => { s with settings := (o, value) :: s.settings }

/-- Puts an argument that is no option met here before a scan. -/
def keep (arg : String) (known : Bool) (rest : Except String ScannedArgs) :
    Except String ScannedArgs :=
  rest.map fun s =>
    if known then { s with operands := arg :: s.operands }
    else { s with unknown := arg :: s.unknown }

/-- The name and the value of an argument such as `--name=value`. -/
def splitAssignment? (arg : String) : Option (String × String) :=
  match arg.toList with
  | '-' :: '-' :: rest =>
    match rest.takeWhile (· != '='), rest.dropWhile (· != '=') with
    | c :: name, '=' :: value =>
      some (String.ofList ('-' :: '-' :: c :: name), String.ofList value)
    | _, _ => none
  | _ => none

/-- The option whose letter opens a group such as `-xyz`, and the letters after it. -/
def group? (specs : List OptionSpec) (arg : String) : Option (OptionSpec × String) :=
  match arg.toList with
  | '-' :: c :: d :: rest =>
    if c = '-' then none
    else (OptionSpec.find? specs (String.ofList ['-', c])).map (·, String.ofList (d :: rest))
  | _ => none

theorem length_group? {specs : List OptionSpec} {arg : String} {o : OptionSpec} {more : String}
    (h : group? specs arg = some (o, more)) : more.length + 2 = arg.length := by
  unfold group? at h
  split at h
  · rename_i c d rest hargs
    split at h
    · contradiction
    · rw [← String.length_toList (s := arg), hargs]
      simp only [Option.map_eq_some_iff, Prod.mk.injEq] at h
      obtain ⟨_, _, _, rfl⟩ := h
      simp only [String.length_ofList, List.length_cons]
  · contradiction

/-- The option and value of an argument that holds both. -/
def assignment? (specs : List OptionSpec) (arg : String) : Option (OptionSpec × String) := do
  let (name, value) ← splitAssignment? arg
  let o ← OptionSpec.find? specs name
  if o.takesValue then some (o, value) else none

/-- How much there is to scan. -/
def extent : List String → Nat
  | [] => 0
  | arg :: rest => arg.length + 1 + extent rest

/-- Scans arguments; `known` tells that no unknown option has been met. -/
def scanFrom (specs : List OptionSpec) (known : Bool) (args : List String) :
    Except String ScannedArgs :=
  match args with
  | [] => .ok ⟨[], [], []⟩
  | arg :: rest =>
    if arg = "--" then
      .ok (if known then ⟨[], rest, []⟩ else ⟨[], [], arg :: rest⟩)
    else
      match (if looksLikeOption arg then OptionSpec.find? specs arg else none) with
      | some o =>
        match o.value, rest with
        | .required _, value :: rest => set o (some value) (scanFrom specs known rest)
        | .required _, [] => .error ("error: option '" ++ o.flags ++ "' argument missing")
        | .optional _, value :: rest =>
          if looksLikeOption value then set o none (scanFrom specs known (value :: rest))
          else set o (some value) (scanFrom specs known rest)
        | _, rest => set o none (scanFrom specs known rest)
      | none =>
        match _h : group? specs arg with
        | some (o, more) =>
          if o.takesValue then set o (some more) (scanFrom specs known rest)
          else set o none (scanFrom specs known (("-" ++ more) :: rest))
        | none =>
          match assignment? specs arg with
          | some (o, value) => set o (some value) (scanFrom specs known rest)
          | none =>
            let known := known && !looksLikeOption arg
            keep arg known (scanFrom specs known rest)
termination_by extent args
decreasing_by
  all_goals
    simp only [extent, String.length_append]
    try have := length_group? _h
    try have : "-".length = 1 := rfl
    omega

def scan (specs : List OptionSpec) (args : List String) : Except String ScannedArgs :=
  scanFrom specs true args

end ScannedArgs

end NestedPascal
