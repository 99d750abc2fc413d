import NestedStyles.Block.Comment

/-!
# Structural characters

A scan reads a text character by character and tells which characters are structural: those
outside quoted strings, comments and square brackets. `find?` looks for the first structural
occurrence of a character outside all braces, `closing` for the brace that closes a block.
-/

namespace NestedStyles.Block

/-- What the next character belongs to. -/
inductive Region
  | code
  /-- A string in this kind of quotes. `escaped` says that a backslash was read just before. -/
  | quoted (quote : Char) (escaped : Bool)
  /-- The second character of the two that open a comment. -/
  | opening
  /-- A comment. `star` says that a star was read just before. -/
  | comment (star : Bool)
  deriving DecidableEq, Repr

/-- The state of a scan between two characters. -/
structure Scan where
  region : Region
  /-- The square brackets opened less those closed. A surplus of closers does not hide anything. -/
  brackets : Int
  /-- The braces that are open. -/
  depth : Nat
  deriving DecidableEq, Repr

namespace Scan

/-- The state in front of a text. -/
def initial : Scan := ⟨.code, 0, 0⟩

/-- A quote or a square bracket. -/
def isDelimiter (c : Char) : Bool :=
  c == '"' || c == '\'' || c == '[' || c == ']'

/-- The character `c`, followed by `next`, is structural. -/
def sees (σ : Scan) (c : Char) (next : Option Char) : Bool :=
  σ.region == .code && decide (σ.brackets ≤ 0) && !opensComment c next && !isDelimiter c

/-- The state after the character `c`, which is followed by `next`. -/
def step (σ : Scan) (c : Char) (next : Option Char) : Scan :=
  match σ.region with
  | .quoted quote escaped =>
    { σ with region := if c == quote && !escaped then .code else .quoted quote (c == '\\') }
  | .opening => { σ with region := .comment false }
  | .comment star => { σ with region := if star && c == '/' then .code else .comment (c == '*') }
  | .code =>
    if opensComment c next then { σ with region := .opening }
    else if c == '"' || c == '\'' then { σ with region := .quoted c false }
    else if c == '[' then { σ with brackets := σ.brackets + 1 }
    else if c == ']' then { σ with brackets := σ.brackets - 1 }
    else if 0 < σ.brackets then σ
    else if c == '{' then { σ with depth := σ.depth + 1 }
    else if c == '}' then { σ with depth := σ.depth - 1 }
    else σ

end Scan

/-- The first position from `pos` on, before `stop`, of a structural `target` outside all braces,
where the scan stands in state `σ` in front of the text from `pos` on. -/
def seek (target : Char) (stop : Nat) (σ : Scan) (pos : Nat) : List Char → Option Nat
  | [] => none
  | c :: rest =>
    if stop ≤ pos then none
    else if c == target && σ.depth == 0 && σ.sees c rest.head? then some pos
    else seek target stop (σ.step c rest.head?) (pos + 1) rest

/-- The first structural `target` outside all braces between `start` and `stop`. -/
def find? (target : Char) (text : List Char) (start stop : Nat) : Option Nat :=
  seek target stop .initial start (text.drop start)

/-- The position of the brace that closes the one at `brace`, or the text's length if none does. -/
def closing (text : List Char) (brace : Nat) : Nat :=
  (find? '}' text (brace + 1) text.length).getD text.length

theorem bounds_of_seek {target : Char} {stop : Nat} {σ : Scan} {pos i : Nat} {s : List Char}
    (h : seek target stop σ pos s = some i) : pos ≤ i ∧ i < stop ∧ i < pos + s.length := by
  fun_induction seek target stop σ pos s with
  | case1 => cases h
  | case2 => cases h
  | case3 =>
    cases h
    simp
    omega
  | case4 σ pos c rest _ _ ih =>
    have := ih h
    simp only [List.length_cons]
    omega

theorem bounds_of_find? {target : Char} {text : List Char} {start stop i : Nat}
    (h : find? target text start stop = some i) : start ≤ i ∧ i < stop ∧ i < text.length := by
  have := bounds_of_seek h
  simp only [List.length_drop] at this
  omega

theorem lt_closing {text : List Char} {brace : Nat} (h : brace < text.length) :
    brace < closing text brace := by
  unfold closing
  cases e : find? '}' text (brace + 1) text.length with
  | none => simpa using h
  | some i =>
    have := bounds_of_find? e
    simp only [Option.getD_some]
    omega

end NestedStyles.Block
