import NestedStyles.Reuse.Pass

/-!
# Inlining used blocks

Each use is replaced by a copy of what it uses: classes, declarations and nested rules follow the
content that is there. A block is resolved before it is copied. A use of a block that is being
resolved is reported and left out, so that there is an end.

`Stylesheet.resolve` resolves a file with its rules and `Stylesheet.resolveExports` its exports
alone.
-/

namespace NestedStyles

namespace Reuse

/-- Adds the rule with index `i` of a block, as it is now, to the rules at a place. -/
def copyRule (place : Place) (target : BlockRef) (i : Nat) : PassM Unit :=
  modify fun p =>
    match (p.body target).children[i]? with
    | some r => p.append place { Body.empty with children := [r] }
    | none => p

/-- Adds the content of a block to the content at a place. -/
def copyBlock (place : Place) (target : BlockRef) : PassM Unit := do
  let b := (← get).body target
  modify (·.append place { b with uses := [], children := [] })
  (List.range b.children.length).forM (copyRule place target)

/-- Deals with one use. `enter` resolves the block it asks for, and `active` are the keys of the
uses whose blocks are being resolved. -/
def inlineUse (c : Consumer) (enter : List String → BlockRef → PassM Unit) (active : List String)
    (owner : Option String) (place : Place) (u : UseDirective) : PassM Unit := do
  let key := c.keyOf u
  if key ∈ active then modify (·.report c (.circularUse owner u.name))
  else
    match ← lookup c owner u with
    | none => return
    | some target =>
      if target ∉ (← get).done then
        enter (key :: active) target
        modify (·.markDone target)
      copyBlock place target
      inSession (modify (·.log [.inlined c.file u.name]))

/-- Deals with the uses at a place, which has none then. -/
def inlineAt (c : Consumer) (enter : List String → BlockRef → PassM Unit) (active : List String)
    (owner : Option String) (block : BlockRef) (path : List Nat) : PassM Unit := do
  ((← get).content ⟨block, path⟩).uses.forM (inlineUse c enter active owner ⟨block, path⟩)
  modify (·.clearUses ⟨block, path⟩)

/-- Resolves a block and the rules nested in it, depth first, entering at most `depth` blocks one
inside the other. -/
def resolveBlock (c : Consumer) : Nat → List String → BlockRef → PassM Unit
  | 0, _, _ => return
  | depth + 1, active, block => do
    let p ← get
    (p.body block).places.forM
      (inlineAt c (resolveBlock c depth) active (p.nameOf block) block)

/-- Resolves an export unless that is done. -/
def resolveExport (c : Consumer) (depth : Nat) (block : BlockRef) : PassM Unit := do
  let p ← get
  if block ∉ p.done then
    resolveBlock c depth (p.nameOf block).toList block
    modify (·.markDone block)

/-- Finds what each name stands for and resolves the exports: those that a name stands for first,
then those of the file itself. -/
def prepare (c : Consumer) (depth : Nat) : PassM Unit := do
  registerExports c
  (← get).sheet.imports.forM (applyImport c)
  (← get).registry.forM fun (_, block) => resolveExport c depth block
  (List.range (← get).sheet.exports.length).forM fun i => resolveExport c depth (.own i)

/-- Resolves the rules of the file. -/
def resolveRules (c : Consumer) (depth : Nat) : PassM Unit := do
  (List.range (← get).sheet.rules.length).forM fun i => resolveBlock c depth [] (.rule i)

/-- A resolved file and the files whose exports were asked for. -/
structure Resolution where
  sheet : Stylesheet
  dependencies : List String
  deriving DecidableEq, Repr

/-- Runs a pass over a file. No more blocks are entered one inside the other than there are uses,
and one more. -/
def runPass (sheet : Stylesheet) (steps : Nat → PassM Unit) : SessionM Resolution := fun s =>
  let start := Pass.start s sheet
  let (result, p) := steps (start.allUses.length + 1) start
  (result.map fun _ => ⟨p.sheet, p.dependencies⟩, p.session)

end Reuse

open Reuse

namespace Stylesheet

/-- Resolves the exports and the rules of a file. With `keep` its dependencies are kept in mind. -/
def resolve (c : Consumer) (keep : Bool) (sheet : Stylesheet) : SessionM Resolution := do
  let r ← runPass sheet fun depth => do
    prepare c depth
    resolveRules c depth
  if keep then modify (·.record c.file r.dependencies)
  return r

/-- Resolves the exports of a file. With `keep` its dependencies are kept in mind. -/
def resolveExports (c : Consumer) (keep : Bool) (sheet : Stylesheet) : SessionM Resolution := do
  let r ← runPass sheet (prepare c)
  if keep then modify (·.record c.file r.dependencies)
  return r

end Stylesheet

end NestedStyles
