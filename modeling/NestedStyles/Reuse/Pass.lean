import NestedStyles.Reuse.Session

/-!
# One pass over a file

While the uses of a file are resolved its stylesheet changes, and so may the blocks of other files
that it uses. Blocks are known by where they are kept, so that every use sees a block as it is then.
-/

namespace NestedStyles.Reuse

/-- Where a block is kept. -/
inductive BlockRef
  /-- An export of the file itself. -/
  | own (index : Nat)
  /-- An export of the file with this absolute path. -/
  | foreign (path : String) (index : Nat)
  /-- A rule of the file itself. -/
  | rule (index : Nat)
  deriving DecidableEq, Repr

/-- A block or a rule nested in it. -/
structure Place where
  block : BlockRef
  path : List Nat
  deriving DecidableEq, Repr

/-- The state of a pass. -/
structure Pass where
  session : Session
  /-- The file as far as it is resolved. -/
  sheet : Stylesheet
  /-- The block each name stands for. -/
  registry : List (String × BlockRef)
  /-- The files whose exports were asked for, each once. -/
  dependencies : List String
  /-- The exports that are resolved. -/
  done : List BlockRef
  deriving DecidableEq, Repr

/-- The file a pass is about, and how the exports of other files become known. -/
structure Consumer where
  file : String
  load : String → SessionM Unit

namespace Consumer

/-- The absolute path of a file that is named in the file of the pass. -/
def pathOf (c : Consumer) (source : String) : String :=
  Path.absolute (some (Path.directory (Path.absolute none c.file))) source

/-- The key under which a use is watched for cycles. -/
def keyOf (c : Consumer) (u : UseDirective) : String :=
  match u.source.getD "" with
  | "" => u.name
  | source => c.pathOf source ++ "#" ++ u.name

end Consumer

namespace Pass

/-- A pass before its first step. -/
def start (session : Session) (sheet : Stylesheet) : Pass :=
  ⟨session, sheet, [], [], []⟩

/-- The export that is kept somewhere. -/
def export? (p : Pass) : BlockRef → Option ExportBlock
  | .own i => p.sheet.exports[i]?
  | .foreign path i => (p.session.exports path)[i]?
  | .rule _ => none

/-- The block that is kept somewhere. There is an empty one where there is none. -/
def body (p : Pass) (ref : BlockRef) : Body :=
  match ref with
  | .rule i => (p.sheet.rules[i]?.map StyleRule.body).getD .empty
  | ref => ((p.export? ref).map ExportBlock.toBody).getD .empty

/-- The name of an export. A rule has none. -/
def nameOf (p : Pass) (ref : BlockRef) : Option String :=
  (p.export? ref).map ExportBlock.name

/-- Changes the block that is kept somewhere. -/
def modifyBody (p : Pass) (change : Body → Body) : BlockRef → Pass
  | .own i =>
    { p with sheet.exports := p.sheet.exports.modify i (ExportBlock.modifyBody change) }
  | .rule i => { p with sheet.rules := p.sheet.rules.modify i (StyleRule.modifyBody change) }
  | .foreign path i =>
    { p with
      session := p.session.modifyExports path fun es =>
        es.modify i (ExportBlock.modifyBody change) }

/-- The content at a place. -/
def content (p : Pass) (place : Place) : Body :=
  (p.body place.block).inside place.path

/-- Changes the content at a place. -/
def modifyContent (p : Pass) (place : Place) (change : Body → Body) : Pass :=
  p.modifyBody (Body.modifyAt change place.path) place.block

/-- Adds content at a place. -/
def append (p : Pass) (place : Place) (more : Body) : Pass :=
  p.modifyContent place fun b => b ++ more

/-- Takes the uses at a place away. -/
def clearUses (p : Pass) (place : Place) : Pass :=
  p.modifyContent place fun b => { b with uses := [] }

/-- Lets a name stand for a block. -/
def register (p : Pass) (name : String) (ref : BlockRef) : Pass :=
  { p with registry := Table.put name ref p.registry }

/-- Notes that the exports of a file were asked for. -/
def depend (p : Pass) (path : String) : Pass :=
  { p with dependencies := if path ∈ p.dependencies then p.dependencies else
      p.dependencies ++ [path] }

/-- Notes that an export is resolved. -/
def markDone (p : Pass) (ref : BlockRef) : Pass :=
  { p with done := ref :: p.done }

/-- Writes a fault down. -/
def report (p : Pass) (c : Consumer) (f : Fault) : Pass :=
  { p with session := p.session.log [.fault c.file f] }

/-- The uses that can still be met: those of the file and of the blocks that other files export. -/
def allUses (p : Pass) : List UseDirective :=
  p.sheet.allUses ++ p.session.library.flatMap fun e => e.2.flatMap fun b => b.toBody.allUses

end Pass

/-- A step of a pass. When it fails, what was done before remains. -/
abbrev PassM := ExceptT Undecodable (StateM Pass)

/-- A step of the session as a step of the pass. -/
def inSession {α : Type} (act : SessionM α) : PassM α := fun p =>
  let (result, session) := act p.session
  (result, { p with session := session })

/-- The exports of a file, given its absolute path, once they are asked for. -/
def exportsOf (c : Consumer) (path : String) : PassM (List ExportBlock) := do
  modify (·.depend path)
  inSession (c.load path)
  return (← get).session.exports path

/-- The index of the first export with this name. -/
def findExport (name : String) (es : List ExportBlock) : Option Nat :=
  es.findIdx? (·.name == name)

/-- The index of the last export with each name, in the order in which the names come first. -/
def exportTable (es : List ExportBlock) : List (String × Nat) :=
  Table.ofList (es.zipIdx.map fun (e, i) => (e.name, i))

/-- Lets the names of the file's own exports stand for them. -/
def registerExports (c : Consumer) : PassM Unit := do
  (← get).sheet.exports.zipIdx.forM fun (e, i) => do
    if ((← get).registry.lookup e.name).isSome then
      modify (·.report c (.duplicateExport e.name))
    modify (·.register e.name (.own i))

/-- Lets the names of an import stand for the blocks of the other file. -/
def applyImport (c : Consumer) (imp : ImportDirective) : PassM Unit := do
  let path := c.pathOf imp.source
  let table := exportTable (← exportsOf c path)
  imp.names.forM fun name =>
    match table.lookup name with
    | some i => modify (·.register name (.foreign path i))
    | none => modify (·.report c (.importNotFound name imp.source (table.map (·.1))))

/-- The block that a use asks for. A use in an export has that export as its owner. -/
def lookup (c : Consumer) (owner : Option String) (u : UseDirective) : PassM (Option BlockRef) := do
  match u.source.getD "" with
  | "" =>
    match (← get).registry.lookup u.name with
    | some ref => return some ref
    | none =>
      modify (·.report c (.usedUndefined owner u.name))
      return none
  | source =>
    let path := c.pathOf source
    match findExport u.name (← exportsOf c path) with
    | some i => return some (.foreign path i)
    | none =>
      modify (·.report c (.usedNotExported owner u.name source))
      return none

end NestedStyles.Reuse
