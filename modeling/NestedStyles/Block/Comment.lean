import NestedStyles.Text.Blank
import NestedStyles.Text.Lines

/-!
# Comments in a stylesheet

A comment runs from `/*` to the next `*/`. `stripComments` takes the comments out of a text and
`skipGap` passes over white space and comments. An opener that is never closed is no comment.
-/

namespace NestedStyles.Block

open Text

/-- The character `c` opens a comment if `next` follows it. -/
def opensComment (c : Char) (next : Option Char) : Bool :=
  c == '/' && next == some '*'

/-- The comment at the start of a text, with its delimiters, and what follows it. -/
def splitComment : List Char → Option (List Char × List Char)
  | '/' :: '*' :: inner =>
    (indexOf? ['*', '/'] inner).map fun i => ('/' :: '*' :: inner.take (i + 2), inner.drop (i + 2))
  | _ => none

theorem append_of_splitComment {s comment rest : List Char}
    (h : splitComment s = some (comment, rest)) : comment ++ rest = s := by
  unfold splitComment at h
  split at h
  · obtain ⟨i, -, e⟩ := Option.map_eq_some_iff.1 h
    simp only [Prod.mk.injEq] at e
    obtain ⟨rfl, rfl⟩ := e
    simp
  · cases h

theorem length_of_splitComment {s comment rest : List Char}
    (h : splitComment s = some (comment, rest)) : rest.length < s.length := by
  unfold splitComment at h
  split at h
  · obtain ⟨i, -, e⟩ := Option.map_eq_some_iff.1 h
    simp only [Prod.mk.injEq] at e
    obtain ⟨-, rfl⟩ := e
    simp
    omega
  · cases h

/-- The text without its comments. With `keepLines` a comment leaves the newlines in it, so that
each line keeps its number. -/
def stripComments (keepLines : Bool) (s : List Char) : List Char :=
  match h : splitComment s with
  | some (comment, rest) =>
    have := length_of_splitComment h
    (if keepLines then comment.filter (· == '\n') else []) ++ stripComments keepLines rest
  | none =>
    match s with
    | [] => []
    | c :: rest => c :: stripComments keepLines rest
termination_by s.length

/-- The first position from `pos` on, before `stop`, that is neither white space nor in a comment,
where `s` is the text from `pos` on. A comment may end past `stop`; one that is never closed
reaches to `stop`. -/
def gapEnd (stop pos : Nat) (s : List Char) : Nat :=
  if stop ≤ pos then pos
  else
    match h : splitComment s with
    | some (comment, rest) =>
      have := length_of_splitComment h
      gapEnd stop (pos + comment.length) rest
    | none =>
      match s with
      | [] => pos
      | c :: rest =>
        if opensComment c rest.head? then stop
        else if isBlank c then gapEnd stop (pos + 1) rest
        else pos
termination_by s.length

/-- The position after the white space and the comments at `pos`. -/
def skipGap (text : List Char) (pos stop : Nat) : Nat :=
  gapEnd stop pos (text.drop pos)

theorem le_gapEnd (stop pos : Nat) (s : List Char) : pos ≤ gapEnd stop pos s := by
  fun_induction gapEnd stop pos s <;> omega

theorem le_skipGap (text : List Char) (pos stop : Nat) : pos ≤ skipGap text pos stop :=
  le_gapEnd stop pos _

end NestedStyles.Block
