import Backend386.Location

/-!
# Diagnostics

Problems of the program being compiled are collected, in the order they are met, in a
`Diagnostics` list. Reporting never stops a pass; whoever runs the passes asks `hasErrors` before
going on.

* `Diagnostic.render` — the line shown to the user;
* `Diagnostics.error`, `Diagnostics.warn` — report;
* `Diagnostics.errorCount`, `Diagnostics.warningCount` — how many of each there are.
-/

namespace Backend386

/-- How bad a problem is. -/
inductive Severity where
  | error
  | warning
deriving DecidableEq, Inhabited, Repr

namespace Severity

/-- The word shown to the user. -/
def render : Severity → String
  | error => "error"
  | warning => "warning"

/-- The spelling in dumps. -/
def tag : Severity → String
  | error => "Error"
  | warning => "Warning"

end Severity

/-- One reported problem. -/
structure Diagnostic where
  severity : Severity
  message : String
  location : Option Location
deriving DecidableEq, Inhabited, Repr

/-- The line shown to the user. -/
def Diagnostic.render (d : Diagnostic) : String :=
  let text := d.severity.render ++ ": " ++ d.message
  match d.location with
  | some l => l.render ++ ": " ++ text
  | none => text

/-- A message, with the place in front when it is known. -/
def renderAt (location : Option Location) (message : String) : String :=
  match location with
  | some l => l.render ++ ": " ++ message
  | none => message

/-- The problems reported so far, first to last. -/
abbrev Diagnostics := List Diagnostic

namespace Diagnostics

/-- Adds a problem at the end. -/
def report (ds : Diagnostics) (severity : Severity) (location : Option Location)
    (message : String) : Diagnostics :=
  ds ++ [⟨severity, message, location⟩]

/-- Reports an error. -/
def error (ds : Diagnostics) (location : Option Location) (message : String) : Diagnostics :=
  ds.report .error location message

/-- Reports a warning. -/
def warn (ds : Diagnostics) (location : Option Location) (message : String) : Diagnostics :=
  ds.report .warning location message

/-- The errors alone, in order. -/
def errors (ds : Diagnostics) : Diagnostics :=
  ds.filter (·.severity = .error)

/-- The warnings alone, in order. -/
def warnings (ds : Diagnostics) : Diagnostics :=
  ds.filter (·.severity = .warning)

/-- How many errors there are. -/
def errorCount (ds : Diagnostics) : Nat :=
  ds.errors.length

/-- How many warnings there are. -/
def warningCount (ds : Diagnostics) : Nat :=
  ds.warnings.length

/-- Whether any error was reported. -/
def hasErrors (ds : Diagnostics) : Bool :=
  0 < ds.errorCount

end Diagnostics

end Backend386
