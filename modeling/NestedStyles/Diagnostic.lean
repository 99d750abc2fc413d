/-!
# Diagnostics

A diagnostic is one finding about the styles: a stable rule identifier, a severity, a message and
where it arose. The module also holds the records a logger receives.
-/

namespace NestedStyles

/-- How serious a finding is. -/
inductive Severity
  | error | warning | info
  deriving DecidableEq, Repr

/-- A file and a line, each if known. -/
structure Location where
  file : Option String
  line : Option Int
  deriving DecidableEq, Repr

/-- One finding. -/
structure Diagnostic where
  rule : String
  severity : Severity
  message : String
  location : Option Location
  deriving DecidableEq, Repr

namespace Location

/-- Written as `file:line`, or as the part that is known. A file without a name is not known. -/
def text (loc : Location) : String :=
  match (loc.file.getD "", loc.line) with
  | ("", none) => ""
  | ("", some n) => "line " ++ toString n
  | (file, none) => file
  | (file, some n) => file ++ ":" ++ toString n

/-- A place in a file whose line is not known. Without a file name there is no place. -/
def ofFile (file : Option String) : Option Location :=
  match file.getD "" with
  | "" => none
  | name => some ⟨some name, none⟩

end Location

namespace Diagnostic

/-- The finding is an error. -/
def isError (d : Diagnostic) : Bool :=
  d.severity == .error

/-- The finding is a warning. -/
def isWarning (d : Diagnostic) : Bool :=
  d.severity == .warning

/-- The line a diagnostic is shown as. -/
def text (d : Diagnostic) : String :=
  match (d.location.map Location.text).getD "" with
  | "" => "[tailnest] " ++ d.message
  | place => "[tailnest] (" ++ place ++ ") " ++ d.message

/-- The findings of one rule. -/
def byRule (rule : String) (ds : List Diagnostic) : List Diagnostic :=
  ds.filter (·.rule == rule)

end Diagnostic

/-- The levels of a log. -/
inductive LogLevel
  | debug | info | warning | error | critical
  deriving DecidableEq, Repr

/-- One line of a log. -/
structure LogRecord where
  level : LogLevel
  text : String
  deriving DecidableEq, Repr

namespace LogLevel

/-- The place of a level among the levels, the least serious first. -/
def rank : LogLevel → Nat
  | .debug => 0
  | .info => 1
  | .warning => 2
  | .error => 3
  | .critical => 4

/-- The level at which a finding is logged. -/
def ofSeverity : Severity → LogLevel
  | .error => .error
  | .warning => .warning
  | .info => .info

end LogLevel

namespace LogRecord

/-- A finding as a line of the log. -/
def ofDiagnostic (d : Diagnostic) : LogRecord :=
  ⟨.ofSeverity d.severity, d.text⟩

/-- The records a logger set to `level` lets through. -/
def atLeast (level : LogLevel) (rs : List LogRecord) : List LogRecord :=
  rs.filter fun r => decide (level.rank ≤ r.level.rank)

end LogRecord

end NestedStyles
