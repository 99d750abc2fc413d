import NestedStyles.Text.CharRange

/-!
# White space, trimming and words

`isBlank` is the class of white space that separates words and may surround any construct of
a stylesheet. `trim` removes it at both ends of a text, `words` cuts a text at it.
-/

namespace NestedStyles.Text

/-- The white space of the character database, with the four separators U+001C to U+001F. -/
def blankRanges : List (Nat × Nat) :=
  [(0x09, 0x0D), (0x1C, 0x20), (0x85, 0x85), (0xA0, 0xA0), (0x1680, 0x1680), (0x2000, 0x200A),
    (0x2028, 0x2029), (0x202F, 0x202F), (0x205F, 0x205F), (0x3000, 0x3000)]

/-- White space. -/
def isBlank (c : Char) : Bool :=
  inRanges blankRanges c

@[simp] theorem isBlank_space : isBlank ' ' = true := by decide

@[simp] theorem isBlank_newline : isBlank '\n' = true := by decide

/-- The text without its leading white space. -/
def trimLeft (s : List Char) : List Char :=
  s.dropWhile isBlank

/-- The text without its trailing white space. -/
def trimRight (s : List Char) : List Char :=
  (s.reverse.dropWhile isBlank).reverse

/-- The text without the white space at both ends. -/
def trim (s : List Char) : List Char :=
  trimRight (trimLeft s)

@[simp] theorem trim_nil : trim [] = [] := rfl

/-- The maximal runs of other characters between white space. -/
def words (s : List Char) : List (List Char) :=
  (s.splitOnP isBlank).filter (· ≠ [])

/-- A string without the white space at both ends. -/
def trimString (s : String) : String :=
  .ofList (trim s.toList)

end NestedStyles.Text
