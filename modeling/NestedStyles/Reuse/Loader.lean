import NestedStyles.Reuse.Inline

/-!
# Exports from files

A file's exports become known when they are first asked for: the file is read, its exports are
resolved, and the files it needs are loaded on the way. A file that is needed to load itself is
reported and taken to export nothing, and so is one that is missing. What holds no text, or is asked
for by a path that no file can have, is not reported: the loading fails.
-/

namespace NestedStyles

/-- What a file holds. -/
inductive FileContent
  | text (text : String)
  /-- Bytes that are no text. -/
  | undecodable
  deriving DecidableEq, Repr

/-- The content that these bytes are in UTF-8. -/
def FileContent.ofBytes (bytes : ByteArray) : FileContent :=
  match String.fromUTF8? bytes with
  | some decoded => .text decoded
  | none => .undecodable

/-- The files exports are loaded from, and how they are read. -/
structure Files where
  /-- What is kept under each absolute path. -/
  contents : List (String × FileContent)
  config : Config
  /-- The styles in the text of a file, if there are any. -/
  styles : String → Option String

namespace Files

open Reuse

/-- The text of a file, if the file is there. Reading it fails if it holds other bytes, and also if
its path has U+0000 in it. -/
def readText (fs : Files) (path : String) : Except Undecodable (Option String) :=
  if Path.hasNull path then .error ⟨path⟩
  else
    match fs.contents.lookup path with
    | none => .ok none
    | some .undecodable => .error ⟨path⟩
    | some (.text text) => .ok (some text)

/-- The styles in a file that can be read. -/
def stylesIn (fs : Files) (text : String) : String :=
  (fs.styles (.ofList (Text.plainNewlines text.toList))).getD ""

/-- Reads the exports of a file from its styles. `load` makes the exports of other files known. -/
def readExports (fs : Files) (load : String → SessionM Unit) (path styles : String) :
    SessionM Unit := do
  let parsed := Stylesheet.parse fs.config styles
  modify (·.log (.loading path :: parsed.reports.map (.misread path)))
  let r ← parsed.value.resolveExports ⟨path, load⟩ true
  modify (·.store path r.sheet.exports)

/-- Makes the exports of a file known while those in `active` are being loaded, reading at most
`depth` files one inside the other. -/
def loadInside (fs : Files) : Nat → List String → String → SessionM Unit
  | 0, _, _ => return
  | depth + 1, active, given => do
    let path := Path.absolute none given
    if ((← get).exports? path).isSome then modify (·.log [.known path])
    else if path ∈ active then modify (·.log [.fault path (.circularImport path)])
    else
      match fs.readText path with
      | .error e => throw e
      | .ok none => modify (·.log [.fault path (.missingFile given)])
      | .ok (some text) =>
        match fs.stylesIn text with
        | "" => modify (·.store path [])
        | styles => fs.readExports (loadInside fs depth (path :: active)) path styles

/-- Makes the exports of a file known. No more files are read one inside the other than there are,
and a file that is not read takes one step more. -/
def load (fs : Files) (path : String) : SessionM Unit :=
  fs.loadInside (fs.contents.length + 1) [] path

/-! ## What is read of a file -/

variable {fs fs' : Files} {path text : String} {e : Undecodable}

/-- Reading fails only where there is no text, and the fault names the path. -/
theorem readText_eq_error_iff : fs.readText path = .error e ↔
    e = ⟨path⟩ ∧ (Path.hasNull path ∨ fs.contents.lookup path = some .undecodable) := by
  unfold readText
  by_cases null : Path.hasNull path
  · simp [null, eq_comm]
  · rcases fs.contents.lookup path with _ | _ | _ <;> simp [null, eq_comm]

theorem lookup_of_missing (read : fs.readText path = .ok none) :
    fs.contents.lookup path = none := by
  unfold readText at read
  split at read
  · cases read
  · split at read
    · assumption
    · cases read
    · cases read

theorem lookup_of_text (read : fs.readText path = .ok (some text)) :
    fs.contents.lookup path = some (.text text) := by
  unfold readText at read
  split at read
  · cases read
  · split at read
    · cases read
    · cases read
    · cases read
      assumption

/-- A text is read only where something is kept. -/
theorem lookup_ne_none_of_text (read : fs.readText path = .ok (some text)) :
    fs.contents.lookup path ≠ none := by
  rw [lookup_of_text read]
  exact Option.some_ne_none _

/-- The same is read of what is kept under the path. -/
theorem readText_congr (same : fs'.contents.lookup path = fs.contents.lookup path) :
    fs'.readText path = fs.readText path := by
  rw [readText, readText, same]

end Files

end NestedStyles
