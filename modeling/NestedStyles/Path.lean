import NestedStyles.Text.Lines

/-!
# File paths

Paths are texts with `/` between their segments. `Path.absolute` gives the one spelling under which
a file is known: no `.`, no `..`, no empty segment, and `/` in front. The working directory is `/`.
Exactly two leading slashes are a root of their own.
-/

namespace NestedStyles.Path

/-- The path `p` as seen from the directory `base`. -/
def join (base p : List Char) : List Char :=
  if p.head? == some '/' then p
  else if base.isEmpty || base.getLast? == some '/' then base ++ p
  else base ++ '/' :: p

/-- The leading slashes that are kept: two if there are exactly two, else one. -/
def root : List Char → List Char
  | '/' :: '/' :: '/' :: _ => ['/']
  | '/' :: '/' :: _ => ['/', '/']
  | _ => ['/']

/-- The segments passed so far, after one more. -/
def descend (done : List (List Char)) (segment : List Char) : List (List Char) :=
  if segment == [] || segment == ['.'] then done
  else if segment == ['.', '.'] then done.dropLast
  else done ++ [segment]

/-- The segments of a path from the root. -/
def segments (p : List Char) : List (List Char) :=
  (p.splitOn '/').foldl descend []

/-- The path from the root, a relative path being seen from `/`. -/
def normalize (p : List Char) : List Char :=
  let p := join ['/'] p
  root p ++ ['/'].intercalate (segments p)

/-- The one spelling of a path that is seen from the directory `base`, or from `/`. -/
def absolute (base : Option String) (p : String) : String :=
  let p := p.toList
  .ofList (normalize ((base.map fun b => join b.toList p).getD p))

/-- The path has a character U+0000, which no file has in its path. -/
def hasNull (p : String) : Bool :=
  p.toList.contains '\x00'

/-- The directory a path lies in. -/
def directory (p : String) : String :=
  let head := (p.toList.reverse.dropWhile (· != '/')).reverse
  let bare := (head.reverse.dropWhile (· == '/')).reverse
  .ofList (if bare.isEmpty then head else bare)

end NestedStyles.Path
