import NestedStyles.Block.Comment
import NestedStyles.Block.Directive
import NestedStyles.Block.Report

/-!
# Lines of content

A line of a block that belongs to no nested block holds a use, a declaration that ends in `;`, or
utility classes.
-/

namespace NestedStyles.Block

open Text

/-- What a line of content says. -/
inductive ContentLine
  | blank
  | use (directive : UseDirective)
  | malformedUse (line : String)
  | misplacedImport (line : String)
  | declaration (line : String)
  | classes (words : List String)
  deriving DecidableEq, Repr

/-- The line is the keyword alone, or the keyword and a space and more. -/
def headedBy (keyword line : List Char) : Bool :=
  line == keyword || (keyword ++ [' ']).isPrefixOf line

namespace ContentLine

/-- Reads a line without comments and without white space at its ends. -/
def ofTrimmed (line : List Char) : ContentLine :=
  if line.isEmpty then blank
  else if headedBy ['@', 'u', 's', 'e'] line then
    match readUse line with
    | some directive => use directive
    | none => malformedUse (.ofList line)
  else if headedBy ['@', 'i', 'm', 'p', 'o', 'r', 't'] line then misplacedImport (.ofList line)
  else if line.getLast? == some ';' then declaration (.ofList line)
  else classes ((words line).map .ofList)

/-- What the line adds to its block, where it is line `number` of the source. -/
def contribution (number : Nat) : ContentLine → Reported Body
  | blank => ⟨.empty, []⟩
  | use directive => ⟨{ Body.empty with uses := [directive] }, []⟩
  | malformedUse line => ⟨.empty, [⟨.malformedUse line, number⟩]⟩
  | misplacedImport line => ⟨.empty, [⟨.misplacedImport line, number⟩]⟩
  | declaration line => ⟨{ Body.empty with declarations := [line] }, []⟩
  | classes words => ⟨{ Body.empty with classes := words }, []⟩

end ContentLine

/-- What lines add to their block, the first being line `number` of the source. -/
def readLines (number : Nat) : List (List Char) → Reported Body
  | [] => ⟨.empty, []⟩
  | line :: rest =>
    (ContentLine.ofTrimmed (trim line)).contribution number ++ readLines (number + 1) rest

/-- What a text adds to its block, its first line being line `number` of the source. -/
def readContent (number : Nat) (text : List Char) : Reported Body :=
  readLines number (lines (stripComments true text))

end NestedStyles.Block
