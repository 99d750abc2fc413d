import NestedStyles.Block.Sheet
import NestedStyles.Path
import NestedStyles.Reuse.Place
import NestedStyles.Table

/-!
# A session

What is kept from one resolution to the next: the blocks that files export, which file took blocks
from which, and a journal of what happened. Files are known by their absolute paths.
-/

namespace NestedStyles

namespace Reuse

/-- What can be wrong with the exports, imports and uses of a file. -/
inductive Fault
  /-- A name is exported twice. -/
  | duplicateExport (name : String)
  /-- A name is imported from a file that exports only other names. -/
  | importNotFound (name source : String) (available : List String)
  /-- A block of a file is used that the file does not export. -/
  | usedNotExported (owner : Option String) (name source : String)
  /-- A name is used that is neither exported here nor imported. -/
  | usedUndefined (owner : Option String) (name : String)
  /-- A block is used inside its own content. -/
  | circularUse (owner : Option String) (name : String)
  /-- A file is needed to load itself. -/
  | circularImport (path : String)
  /-- There is no such file. -/
  | missingFile (path : String)
  deriving DecidableEq, Repr

namespace Fault

/-- The identifier of the kind of fault. -/
def rule : Fault → String
  | duplicateExport _ => "duplicate-export"
  | importNotFound _ _ _ => "import-name-not-found"
  | usedNotExported _ _ _ | usedUndefined _ _ => "unknown-use"
  | circularUse _ _ | circularImport _ => "circular-use"
  | missingFile _ => "missing-file"

/-- A second definition of a name is a warning and all else an error. -/
def severity : Fault → Severity
  | duplicateExport _ => .warning
  | _ => .error

/-- The export a use stands in, as named in a message. -/
def inExport (owner : String) : String :=
  " in @export \"" ++ owner ++ "\""

/-- The wording of a fault. A use in a rule has no owner, and an owner without a name is none. -/
def message : Fault → String
  | duplicateExport name =>
    "Duplicate @export name \"" ++ name ++ "\". The later definition will be used."
  | importNotFound name source available =>
    let names := ", ".intercalate available
    "@import: name \"" ++ name ++ "\" not found in " ++ source ++ " (available: " ++
      (if names.isEmpty then "none" else names) ++ ")"
  | usedNotExported owner name source =>
    match owner.getD "" with
    | "" => "@use: name \"" ++ name ++ "\" not found in " ++ source
    | o => "@use" ++ inExport o ++ ": name \"" ++ name ++ "\" not found in " ++ source
  | usedUndefined owner name =>
    match owner.getD "" with
    | "" =>
      "@use: name \"" ++ name ++ "\" is not defined. Did you forget an @export or @import?"
    | o => "@use" ++ inExport o ++ ": name \"" ++ name ++ "\" is not defined."
  | circularUse owner name =>
    match owner.getD "" with
    | "" =>
      "Circular @use detected: \"" ++ name ++ "\" is already being resolved. " ++
        "Skipping to prevent infinite loop."
    | o =>
      "Circular @use detected" ++ inExport o ++ ": \"" ++ name ++
        "\" is already being resolved."
  | circularImport path =>
    "Circular import detected: " ++ path ++ " is already being loaded."
  | missingFile path => "Could not read file: " ++ path

end Fault

/-- Something that happened in a session. -/
inductive Event
  /-- A fault in the text of a file. -/
  | misread (file : String) (report : Block.Report)
  /-- A fault in what a file shares with others. -/
  | fault (file : String) (fault : Fault)
  /-- A use of this name gave way to the content of the block it asks for. -/
  | inlined (file name : String)
  /-- The exports of a file were asked for. -/
  | asked (path : String)
  /-- The exports of a file were known already. -/
  | known (path : String)
  /-- The exports of a file are being read. -/
  | loading (path : String)
  deriving DecidableEq, Repr

namespace Event

/-- The diagnostic for an event that is one. -/
def diagnostic? : Event → Option Diagnostic
  | misread file report => some (report.toDiagnostic (some file))
  | fault file f => some ⟨f.rule, f.severity, f.message, some ⟨some file, none⟩⟩
  | _ => none

/-- The line of the log for an event that is no diagnostic. -/
def logRecord? : Event → Option LogRecord
  | known path => some ⟨.debug, "exports cache hit: " ++ path⟩
  | loading path => some ⟨.debug, "loading exports from " ++ path⟩
  | _ => none

end Event

/-- The diagnostics among events. -/
def diagnostics (events : List Event) : List Diagnostic :=
  events.filterMap Event.diagnostic?

end Reuse

open Reuse

/-- What is kept from one resolution to the next. -/
structure Session where
  /-- The blocks that files export. -/
  library : List (String × List ExportBlock)
  /-- The files that a file took blocks from. -/
  dependencies : List (String × List String)
  /-- What happened, the latest last. -/
  journal : List Event
  deriving DecidableEq, Repr

namespace Session

/-- A session at its start. -/
def empty : Session := ⟨[], [], []⟩

/-- The exports of a file, if they are known. -/
def exports? (s : Session) (path : String) : Option (List ExportBlock) :=
  s.library.lookup (Path.absolute none path)

/-- The exports of a file as far as they are known. -/
def exports (s : Session) (path : String) : List ExportBlock :=
  (s.exports? path).getD []

/-- Makes the exports of a file known. -/
def store (s : Session) (path : String) (blocks : List ExportBlock) : Session :=
  { s with library := Table.put (Path.absolute none path) blocks s.library }

/-- Changes the exports of a file. -/
def modifyExports (s : Session) (path : String) (change : List ExportBlock → List ExportBlock) :
    Session :=
  { s with library := Table.modify (Path.absolute none path) change s.library }

/-- Forgets the exports of a file, or of all files. -/
def clear (s : Session) : Option String → Session
  | none => { s with library := [] }
  | some path => { s with library := Table.erase (Path.absolute none path) s.library }

@[simp] theorem exports?_store_self (s : Session) (path : String) (blocks : List ExportBlock) :
    (s.store path blocks).exports? path = some blocks :=
  Table.lookup_put_self _ _ _

@[simp] theorem exports?_clear_self (s : Session) (path : String) :
    (s.clear (some path)).exports? path = none :=
  Table.lookup_erase_self _ _

/-- Keeps in mind which files `consumer` took blocks from. -/
def record (s : Session) (consumer : String) (providers : List String) : Session :=
  let key := Path.absolute none consumer
  { s with
    dependencies :=
      if providers.isEmpty then Table.erase key s.dependencies
      else Table.put key providers s.dependencies }

/-- The files that took blocks from `provider`. -/
def dependents (s : Session) (provider : String) : List String :=
  let path := Path.absolute none provider
  (s.dependencies.filter fun (_, providers) => path ∈ providers).map (·.1)

/-- Writes events down. -/
def log (s : Session) (events : List Event) : Session :=
  { s with journal := s.journal ++ events }

/-- The session in one line. -/
def text (s : Session) : String :=
  "ResolverState(exports=" ++ toString s.library.length ++ ", consumers=" ++
    toString s.dependencies.length ++ ")"

end Session

/-- A file that cannot be read as a text: it holds other bytes, or it is asked for by a path that no
file can have. -/
structure Undecodable where
  path : String
  deriving DecidableEq, Repr

/-- Something done in a session. When it fails, what was done before remains. -/
abbrev SessionM := ExceptT Undecodable (StateM Session)

end NestedStyles
