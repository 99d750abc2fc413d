import NestedStyles.Rule
import NestedStyles.Text.Blank
import NestedStyles.Text.Lines
import NestedStyles.Text.WordChar

/-!
# Directive lines

The three directives, each on a line of its own:

* `@use name` and `@use name from 'path'`, with an optional `;`
* `@import name1, name2 from 'path'`, with an optional `;`
* `@export name`, the header of a block

Each reader takes the line with any white space around it and refuses a line of another form.
-/

namespace NestedStyles.Block

open Text

/-- A single or a double quote. -/
def isQuote (c : Char) : Bool :=
  c == '\'' || c == '"'

/-- The text after at least one white space character and all that follow it. -/
def afterBlanks? : List Char → Option (List Char)
  | [] => none
  | c :: rest => if isBlank c then some (trimLeft rest) else none

/-- The name at the start of a text, as far as it goes, and what follows it. -/
def splitName? : List Char → Option (List Char × List Char)
  | [] => none
  | c :: rest =>
    if isWordChar c then some (c :: rest.takeWhile isNameChar, rest.dropWhile isNameChar) else none

/-- The path in quotes at the start of a text and what follows it. The quotes need not be of one
kind, and a path is not empty. -/
def splitPath? : List Char → Option (List Char × List Char)
  | [] => none
  | c :: rest =>
    match isQuote c, rest.takeWhile fun d => !isQuote d, rest.dropWhile fun d => !isQuote d with
    | true, d :: path, _ :: after => some (d :: path, after)
    | _, _, _ => none

/-- White space with at most one `;` in it. -/
def isLineEnd (s : List Char) : Bool :=
  match trimLeft s with
  | [] => true
  | c :: rest => c == ';' && rest.all isBlank

/-- Reads `@use name` or `@use name from 'path'`. -/
def readUse (line : List Char) : Option UseDirective := do
  let named ← afterBlanks? (← after? ['@', 'u', 's', 'e'] (trim line))
  let (name, rest) ← splitName? named
  if isLineEnd rest then return ⟨.ofList name, none⟩
  let quoted ← afterBlanks? (← after? ['f', 'r', 'o', 'm'] (← afterBlanks? rest))
  let (path, rest) ← splitPath? quoted
  guard (isLineEnd rest)
  return ⟨.ofList name, some (.ofList path)⟩

/-- The text in front of a last word `from` with white space on both sides. -/
def beforeFrom? (s : List Char) : Option (List Char) := do
  let rest ← afterBlanks? (← after? ['m', 'o', 'r', 'f'] (← afterBlanks? s.reverse))
  return rest.reverse

/-- The names of a list with commas. Empty places between commas are passed over. -/
def readNames (s : List Char) : Option (List (List Char)) :=
  let names := ((s.splitOn ',').map trim).filter (· ≠ [])
  if (s.head?.map isWordChar).getD false && names.all isName then some names else none

/-- Reads `@import name1, name2 from 'path'`. -/
def readImport (line : List Char) : Option ImportDirective := do
  let line := trim line
  let head := line.takeWhile fun c => !isQuote c
  let listed ← afterBlanks? (← after? ['@', 'i', 'm', 'p', 'o', 'r', 't'] head)
  let names ← readNames (← beforeFrom? listed)
  let (path, rest) ← splitPath? (line.drop head.length)
  guard (isLineEnd rest)
  return ⟨names.map .ofList, .ofList path⟩

/-- Reads the header `@export name`. -/
def readExport (header : List Char) : Option String := do
  let named ← afterBlanks? (← after? ['@', 'e', 'x', 'p', 'o', 'r', 't'] (trim header))
  let (name, rest) ← splitName? named
  guard (rest.all isBlank)
  return .ofList name

end NestedStyles.Block
