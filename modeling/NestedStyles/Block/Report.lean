import NestedStyles.Diagnostic

/-!
# What is wrong with a source

The faults found while a stylesheet is read, their wording, and results that carry the faults found
on the way to them.
-/

namespace NestedStyles.Block

/-- A fault in the text of a stylesheet. -/
inductive Fault
  /-- A block is never closed. -/
  | unclosedBrace
  /-- The line starts like an import and is none. -/
  | malformedImport (line : String)
  /-- An import stands inside a block. -/
  | misplacedImport (line : String)
  /-- Text outside of any rule, given by its first line. -/
  | strayContent (line : String)
  /-- An at-rule that is skipped. -/
  | unsupportedAtRule (name : String)
  /-- A block starts like an export and names none. -/
  | malformedExport (header : String)
  /-- An export stands inside a block. -/
  | misplacedExport
  /-- The line starts like a use and is none. -/
  | malformedUse (line : String)
  deriving DecidableEq, Repr

namespace Fault

/-- The identifier of the kind of fault. -/
def rule : Fault → String
  | unclosedBrace => "unclosed-brace"
  | malformedImport _ | misplacedImport _ => "malformed-import"
  | strayContent _ => "stray-content"
  | unsupportedAtRule _ => "unsupported-at-rule"
  | malformedExport _ | misplacedExport => "malformed-export"
  | malformedUse _ => "malformed-use"

/-- Content that is left out is a warning and all else an error. -/
def severity : Fault → Severity
  | strayContent _ | unsupportedAtRule _ => .warning
  | _ => .error

/-- The wording of a fault. -/
def message : Fault → String
  | unclosedBrace =>
    "Unclosed \"\x7b\" -- missing closing \"\x7d\". Rules after this point may be lost."
  | malformedImport line =>
    "Malformed @import directive: \"" ++ line ++
      "\". Expected: @import name1, name2 from './path'"
  | misplacedImport line => "@import is only allowed at the top level: \"" ++ line ++ "\""
  | strayContent line => "Ignoring content outside of any rule: \"" ++ line ++ "\""
  | unsupportedAtRule name =>
    "\"" ++ name ++ "\" is not supported inside utility style blocks. " ++
      "Move it to a regular stylesheet."
  | malformedExport header =>
    "Malformed @export header: \"" ++ header ++ "\". Expected: @export name \x7b ... \x7d"
  | misplacedExport => "@export is only allowed at the top level of a style block."
  | malformedUse line =>
    "Malformed @use directive: \"" ++ line ++
      "\". Expected: @use name or @use name from './path'"

end Fault

/-- A fault and the line it is on. -/
structure Report where
  fault : Fault
  line : Nat
  deriving DecidableEq, Repr

/-- The diagnostic for a fault in a file. -/
def Report.toDiagnostic (file : Option String) (r : Report) : Diagnostic :=
  ⟨r.fault.rule, r.fault.severity, r.fault.message, some ⟨file, some r.line⟩⟩

/-- A value and the faults found while it was read, in order. -/
structure Reported (α : Type) where
  value : α
  reports : List Report
  deriving DecidableEq, Repr

namespace Reported

variable {α β : Type}

/-- The value changed and the faults kept. -/
def map (f : α → β) (r : Reported α) : Reported β :=
  ⟨f r.value, r.reports⟩

instance [Append α] : Append (Reported α) :=
  ⟨fun a b => ⟨a.value ++ b.value, a.reports ++ b.reports⟩⟩

@[simp] theorem value_map (f : α → β) (r : Reported α) : (r.map f).value = f r.value := rfl

@[simp] theorem reports_map (f : α → β) (r : Reported α) : (r.map f).reports = r.reports := rfl

@[simp] theorem value_append [Append α] (a b : Reported α) :
    (a ++ b).value = a.value ++ b.value := rfl

@[simp] theorem reports_append [Append α] (a b : Reported α) :
    (a ++ b).reports = a.reports ++ b.reports := rfl

end Reported

end NestedStyles.Block
