import NestedStyles.Text.CharRange

/-!
# Lines and positions in a text

Positions count characters from 0. Lines end at a newline and are counted from 1.
-/

namespace NestedStyles.Text

/-- The lines of a text; there is always one. -/
def lines (s : List Char) : List (List Char) :=
  s.splitOn '\n'

/-- The text with these lines. -/
def unlines (ls : List (List Char)) : List Char :=
  ['\n'].intercalate ls

/-- The characters from position `start` up to, but not including, position `stop`. -/
def slice (s : List Char) (start stop : Nat) : List Char :=
  (s.drop start).take (stop - start)

/-- The line a position lies on. A position past the end lies on the last line. -/
def lineAt (s : List Char) (pos : Nat) : Nat :=
  (s.take pos).count '\n' + 1

/-- What follows `part` at the start of a text. -/
def after? (part s : List Char) : Option (List Char) :=
  if part.isPrefixOf s then some (s.drop part.length) else none

/-- The first position at which `part` occurs. -/
def indexOf? (part : List Char) : List Char → Option Nat
  | [] => if part.isEmpty then some 0 else none
  | c :: rest => if part.isPrefixOf (c :: rest) then some 0 else (indexOf? part rest).map (· + 1)

/-- The text has `part` in it. -/
def occursIn (part s : List Char) : Bool :=
  (indexOf? part s).isSome

/-- The text between the first occurrence of `first` and the first occurrence of `last`. Without a
`last` the text's final character is left out. -/
def between? (first last s : List Char) : Option (List Char) :=
  (indexOf? first s).map fun i =>
    slice s (i + first.length) ((indexOf? last s).getD (s.length - 1))

/-- The characters that end a line of a text that is shown. -/
def endsShownLine (c : Char) : Bool :=
  inRanges [(0x0A, 0x0D), (0x1C, 0x1E), (0x85, 0x85), (0x2028, 0x2029)] c

/-- The first line of a text that is shown. -/
def firstShownLine (s : List Char) : List Char :=
  s.takeWhile fun c => !endsShownLine c

/-- Every line end of a file, `\r\n` and a lone `\r` included, as a newline. -/
def plainNewlines : List Char → List Char
  | [] => []
  | '\r' :: '\n' :: rest => '\n' :: plainNewlines rest
  | c :: rest => (if c == '\r' then '\n' else c) :: plainNewlines rest

end NestedStyles.Text
