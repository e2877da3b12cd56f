import NestedPascal.Json.Writer
import NestedPascal.Span
import NestedPascal.Text.Inherited

/-!
# Diagnostics

A diagnostic has a message, and possibly a code, a place and a hint.  The code alone decides the kind
of error that the readable form names, and the hint of an error raised after parsing.  Kinds and hints
are looked up in records, which also answer to some names that are no codes of errors.
-/

namespace NestedPascal

inductive ErrorCode where
  | lexical
  | parse
  | duplicateId
  | idNotFound
  | paramCount
  | typeMismatch
  | evaluation
  | callDepth
  | config
  | inputOutput
deriving DecidableEq, Repr

namespace ErrorCode

def all : List ErrorCode :=
  [lexical, parse, duplicateId, idNotFound, paramCount, typeMismatch, evaluation, callDepth, config,
    inputOutput]

def text : ErrorCode → String
  | lexical => "E_LEX"
  | parse => "E_PARSE"
  | duplicateId => "E_DUPLICATE_ID"
  | idNotFound => "E_ID_NOT_FOUND"
  | paramCount => "E_PARAM_COUNT"
  | typeMismatch => "E_TYPE_MISMATCH"
  | evaluation => "E_EVAL"
  | callDepth => "E_CALL_DEPTH"
  | config => "E_CONFIG"
  | inputOutput => "E_IO"

def kind : ErrorCode → String
  | lexical => "LexicalError"
  | parse => "UnexpectedToken"
  | duplicateId => "DuplicateIdentifier"
  | idNotFound => "IdentifierNotFound"
  | paramCount => "ParameterCountMismatch"
  | typeMismatch => "TypeMismatch"
  | evaluation => "EvaluationError"
  | callDepth => "EvaluationError"
  | config => "ConfigError"
  | inputOutput => "IOError"

def hint? : ErrorCode → Option String
  | duplicateId => some "Rename one of the declarations; a name may be declared once per scope."
  | idNotFound =>
    some "Declare the name with VAR or PROCEDURE in this scope or an enclosing one."
  | paramCount => some "Pass exactly one argument per formal parameter."
  | typeMismatch =>
    some "Use DIV for INTEGER division and '/' for REAL division; do not mix kinds."
  | callDepth => some "The language has no conditionals, so recursion never terminates."
  | _ => none

def ofText? (text : String) : Option ErrorCode :=
  all.find? (·.text == text)

end ErrorCode

inductive Hint where
  | text (s : String)
  | inherited (answer : Inherited)
deriving DecidableEq, Repr

namespace Hint

/-- The hint that goes with a code. -/
def ofCode? (code : String) : Option Hint :=
  match ErrorCode.ofText? code with
  | some c => c.hint?.map text
  | none => (Inherited.ofName? code).map inherited

def shown : Hint → String
  | text s => s
  | inherited answer => answer.text

/-- A hint as a member of an object; a function is left out. -/
def toJson? : Hint → Option Json
  | text s => some (.ofString s)
  | inherited (.function _) => none
  | inherited .root => some (.object [])

end Hint

structure Diagnostic where
  code : Option String
  message : Text
  location : Option Location := none
  hint : Option Hint := none
deriving Inhabited

namespace Diagnostic

/-- The diagnostic of an error raised after parsing. -/
def report (code : Option String) (message : Text) (location : Option Location) : Diagnostic :=
  ⟨code, message, location, code.bind Hint.ofCode?⟩

/-- The kind of error that goes with a code. -/
def kindOfCode? (code : String) : Option String :=
  ((ErrorCode.ofText? code).map ErrorCode.kind).or (inheritedText? code)

end Diagnostic

def Location.toJson (l : Location) : Json :=
  .ofFields [
    ("file", some (.ofString l.file)),
    ("startLine", some (.number l.startLine)),
    ("startCol", some (.number l.startColumn)),
    ("endLine", some (.number l.endLine)),
    ("endCol", some (.number l.endColumn))]

namespace Diagnostic

def toJson (d : Diagnostic) : Json :=
  .ofFields [
    ("code", d.code.map Json.ofString),
    ("message", some (.string d.message)),
    ("span", d.location.map Location.toJson),
    ("hint", d.hint.bind Hint.toJson?)]

/-- The readable form: the error, its place, and the hint if there is one to show. -/
def readable (d : Diagnostic) : String :=
  let place := match d.location with
    | some l => l.file ++ ":" ++ l.startLine.text ++ ":" ++ l.startColumn.text
    | none => "<unknown>"
  let kind := match d.code.bind kindOfCode? with
    | some k => " " ++ k
    | none => ""
  let hint := match d.hint with
    | some h => if h.shown.isEmpty then "" else "\n  hint: " ++ h.shown
    | none => ""
  "error[" ++ d.code.getD "undefined" ++ "]" ++ kind ++ ": " ++ d.message.toString ++ "\n  --> " ++ place ++ hint

def format (d : Diagnostic) (pretty : Bool) : String :=
  if pretty then d.readable else d.toJson.compact

def formatAll (ds : List Diagnostic) (pretty : Bool) : String :=
  if pretty then "\n\n".intercalate (ds.map readable) else (Json.array (ds.map toJson)).compact

end Diagnostic

end NestedPascal
