import NestedPascal.Diagnostic
import NestedPascal.Json.Reader
import NestedPascal.Run.Execute

/-!
# Configuration

The configuration comes from the file of the project if there is one, else from that of the user,
else it is the default.  A file that is there must be good: an object whose version and limit on the
depth of calls, where they are given, are positive integers.  Of several faults the one in the first
place counts, in the order root, version, limits, limit; at one place the type comes before
integrality, and integrality before sign.
-/

namespace NestedPascal

structure Config where
  version : Nat
  maxCallDepth : Nat
deriving DecidableEq, Repr

def Config.default : Config := ⟨1, defaultCallDepth⟩

inductive ConfigPlace where
  | root
  | version
  | limits
  | maxCallDepth
deriving DecidableEq, Repr

def ConfigPlace.text : ConfigPlace → String
  | root => "(root)"
  | version => "version"
  | limits => "limits"
  | maxCallDepth => "limits.maxCallDepth"

inductive ConfigFault where
  | type (expected received : String)
  | notInteger
  | notPositive
deriving DecidableEq, Repr

def ConfigFault.message : ConfigFault → String
  | type expected received => "Expected " ++ expected ++ ", received " ++ received
  | notInteger => "Expected integer, received float"
  | notPositive => "Number must be greater than 0"

inductive ConfigCause where
  | unreadable (reason : String)
  | malformed (fault : Json.Fault)
  | invalid (place : ConfigPlace) (fault : ConfigFault)
deriving DecidableEq, Repr

structure ConfigError where
  path : String
  cause : ConfigCause
deriving DecidableEq, Repr

/-- The message, given the words for a fault in JSON. -/
def ConfigError.message (words : Json.Fault → String) (e : ConfigError) : String :=
  match e.cause with
  | .unreadable reason => "Cannot read config file '" ++ e.path ++ "': " ++ reason
  | .malformed fault => "Cannot read config file '" ++ e.path ++ "': " ++ words fault
  | .invalid place fault =>
    "Invalid config file '" ++ e.path ++ "': " ++ place.text ++ ": " ++ fault.message

def ConfigError.diagnostic (words : Json.Fault → String) (e : ConfigError) : Diagnostic :=
  .report ErrorCode.config.text (e.message words) none

/-- The word for the type of a JSON value. -/
def Json.typeName : Json → String
  | .null => "null"
  | .bool _ => "boolean"
  | .number _ => "number"
  | .string _ => "string"
  | .array _ => "array"
  | .object _ => "object"

namespace Config

/-- A positive integer, or the given one where there is none. -/
def positive (place : ConfigPlace) (absent : Nat) : Option Json → Except ConfigCause Nat
  | none => .ok absent
  | some (.number x) =>
    match x.toInt? with
    | none => .error (.invalid place .notInteger)
    | some n => if 0 < n then .ok n.toNat else .error (.invalid place .notPositive)
  | some j => .error (.invalid place (.type "number" j.typeName))

/-- The limit on the depth of calls among the limits. -/
def depthOfLimits : Option Json → Except ConfigCause Nat
  | none => .ok Config.default.maxCallDepth
  | some (.object limits) =>
    positive .maxCallDepth Config.default.maxCallDepth (Json.member? "maxCallDepth" limits)
  | some j => .error (.invalid .limits (.type "object" j.typeName))

def ofJson : Json → Except ConfigCause Config
  | .object members => do
    let version ← positive .version Config.default.version (Json.member? "version" members)
    let maxCallDepth ← depthOfLimits (Json.member? "limits" members)
    .ok ⟨version, maxCallDepth⟩
  | j => .error (.invalid .root (.type "object" j.typeName))

def read (source : List Char) : Except ConfigCause Config :=
  match Json.read source with
  | .ok j => ofJson j
  | .error fault => .error (.malformed fault)

def toJson (c : Config) : Json :=
  .ofFields [
    ("version", some (.ofNat c.version)),
    ("limits", some (.ofFields [("maxCallDepth", some (.ofNat c.maxCallDepth))]))]

end Config

/-- What is found at the path of a configuration file. -/
inductive ConfigFile where
  | absent
  | unreadable (reason : String)
  | text (source : List Char)

inductive ConfigSource where
  | project
  | user
  | default
deriving DecidableEq, Repr

def ConfigSource.text : ConfigSource → String
  | project => "project"
  | user => "user"
  | default => "default"

structure ResolvedConfig where
  config : Config
  source : ConfigSource
  path : Option String

/-- The configuration of a file that is there. -/
def ConfigFile.load (source : ConfigSource) (path : String) (found : ConfigFile) :
    Option (Except ConfigError ResolvedConfig) :=
  match found with
  | .absent => none
  | .unreadable reason => some (.error ⟨path, .unreadable reason⟩)
  | .text s => some <|
    match Config.read s with
    | .ok config => .ok ⟨config, source, some path⟩
    | .error cause => .error ⟨path, cause⟩

def ResolvedConfig.resolve (projectPath userPath : String) (project user : ConfigFile) :
    Except ConfigError ResolvedConfig :=
  ((project.load .project projectPath).or (user.load .user userPath)).getD
    (.ok ⟨Config.default, .default, none⟩)

namespace ResolvedConfig

def toJson (r : ResolvedConfig) : Json :=
  .ofFields [
    ("source", some (.ofString r.source.text)),
    ("path", some ((r.path.map Json.ofString).getD .null)),
    ("config", some r.config.toJson)]

def readable (r : ResolvedConfig) : List String :=
  ["Effective minipas configuration",
    "  Source:          " ++ r.source.text,
    "  Path:            " ++ r.path.getD "(none)",
    "  Version:         " ++ (Binary64.ofNat r.config.version).text,
    "  Max call depth:  " ++ (Binary64.ofNat r.config.maxCallDepth).text]

end ResolvedConfig

end NestedPascal
