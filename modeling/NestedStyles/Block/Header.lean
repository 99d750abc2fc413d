import NestedStyles.Block.Comment
import NestedStyles.Config
import NestedStyles.Text.LowerCase
import NestedStyles.Text.WordChar

/-!
# The text in front of a block

Inside a block, the text in front of a `{` holds lines of content and then the selector of the
nested block: its last line that is not blank, with the lines above it that end in a comma.
-/

namespace NestedStyles.Block

open Text

/-- The characters that can occur in a selector and in no bare word. -/
def selectorChars : List Char :=
  ['>', '+', '~', '.', '#', '[', ']', ':', ',', '*', '&']

/-- The text is not just a word that is a utility class as well as an element name. -/
def looksLikeSelector (cfg : Config) (s : List Char) : Bool :=
  let word := trim s
  word.any (· ∈ selectorChars) || !(String.ofList word ∈ cfg.ambiguousWords)

/-- A line without its comments and without white space at its ends. -/
def bareLine (line : List Char) : List Char :=
  trim (stripComments false line)

/-- The text in front of a block, cut in two. -/
structure Header where
  /-- The lines of content. -/
  content : List Char
  /-- The selector, empty if the block continues the enclosing rule. -/
  selector : List Char
  deriving DecidableEq, Repr

/-- The lines of a selector that ends on the first of `lines`, which runs upwards, and the lines
above them. -/
def selectorLines : List (List Char) → List (List Char) × List (List Char)
  | [] => ([], [])
  | line :: above =>
    let continued := above.takeWhile fun l => (bareLine l).getLast? == some ','
    (line :: continued, above.drop continued.length)

/-- Cuts the text in front of a block into lines of content and the selector. A lone ambiguous word
is content. -/
def splitHeader (cfg : Config) (s : List Char) : Header :=
  match (lines s).reverse.dropWhile fun l => (bareLine l).isEmpty with
  | [] => ⟨[], []⟩
  | upwards =>
    let (own, above) := selectorLines upwards
    let selector := bareLine (unlines own.reverse)
    if looksLikeSelector cfg selector then ⟨unlines above.reverse, selector⟩ else ⟨s, []⟩

/-- The at-rule that the text starts with, if it is one that is not supported: the `@` and the
name as written. -/
def unsupportedAtRule? (cfg : Config) : List Char → Option String
  | '@' :: rest =>
    let name := rest.takeWhile isNameChar
    if !name.isEmpty && String.ofList (lowerCase name) ∈ cfg.unsupportedAtRules then
      some (.ofList ('@' :: name))
    else none
  | _ => none

end NestedStyles.Block
