import UnitCompiler.Source.Location

/-!
# Diagnostics

Remarks on a unit that do not stop it.
-/

namespace UnitCompiler

inductive Severity where
  | info
  | warning
  | error
deriving DecidableEq, Repr

def Severity.label : Severity → String
  | .info => "Info"
  | .warning => "Warning"
  | .error => "Error"

structure Diagnostic where
  severity : Severity
  message : String
  location : Option Location := none
  suggestions : List String := []
  code : Option String := none
deriving DecidableEq, Repr

def Diagnostic.text (d : Diagnostic) : String :=
  let head :=
    match d.location with
    | some l => s!"{d.severity.label} in {l.text}: {d.message}"
    | none => s!"{d.severity.label}: {d.message}"
  let code :=
    match d.code with
    | some c => s!" [{c}]"
    | none => ""
  let hints :=
    match d.suggestions with
    | [] => ""
    | hints => " (hints: " ++ String.intercalate "; " hints ++ ")"
  head ++ code ++ hints

/-- The diagnostics of a unit in the order they were made. -/
structure DiagnosticLog where
  entries : List Diagnostic := []
deriving DecidableEq, Repr, Inhabited

namespace DiagnosticLog

def add (log : DiagnosticLog) (d : Diagnostic) : DiagnosticLog := ⟨log.entries ++ [d]⟩

def warnings (log : DiagnosticLog) : List Diagnostic :=
  log.entries.filter (·.severity == .warning)

def hasErrors (log : DiagnosticLog) : Bool := log.entries.any (·.severity == .error)

/-- One line per diagnostic. -/
def render (log : DiagnosticLog) : String :=
  String.join (log.entries.map fun d => d.text ++ "\n")

end DiagnosticLog
end UnitCompiler
