import NestedStyles.Css.Name
import NestedStyles.Css.Token

/-!
# Strings and addresses in CSS

Strings in quotes and addresses without quotes, read with their escapes. Either may end early: at
the end of the text, or at a character it cannot hold.
-/

namespace NestedStyles.Css

/-- The inside of a string that `quote` ends: its value with whether the end was written, or nothing
if a newline breaks it off. -/
def readQuoted (quote : Char) (s : List Char) : Option (List Char × Bool) × List Char :=
  match s with
  | [] => (some ([], false), [])
  | c :: rest =>
    if c == quote then (some ([], true), rest)
    else if c == '\\' then
      if rest.isEmpty then (some ([], false), [])
      else if rest.head? == some '\n' then readQuoted quote rest.tail
      else
        have := length_readEscape rest
        let (found, after) := readQuoted quote (readEscape rest).2
        (found.map fun (value, closed) => ((readEscape rest).1 :: value, closed), after)
    else if c == '\n' then (none, c :: rest)
    else
      let (found, after) := readQuoted quote rest
      (found.map fun (value, closed) => (c :: value, closed), after)
termination_by s.length

theorem length_readQuoted (quote : Char) (s : List Char) :
    (readQuoted quote s).2.length ≤ s.length := by
  fun_induction readQuoted quote s with
  | case1 => simp
  | case2 => simp
  | case3 => simp
  | case4 c rest _ _ _ _ ih =>
    simp only [List.length_tail, List.length_cons] at ih ⊢
    omega
  | case5 c rest _ _ _ _ _ found after h ih =>
    have := length_readEscape rest
    rw [h] at ih
    simp only [List.length_cons] at ih ⊢
    omega
  | case6 => simp
  | case7 c rest _ _ _ found after h ih =>
    rw [h] at ih
    simp only [List.length_cons] at ih ⊢
    omega

/-- How the characters of an address end. -/
inductive UrlStop
  | bracket | space | textEnd | forbidden
  deriving DecidableEq, Repr

/-- The characters of an address without quotes, what ends them, and the text after that. -/
def readUrlChars (s : List Char) : List Char × UrlStop × List Char :=
  match s with
  | [] => ([], .textEnd, [])
  | c :: rest =>
    if c == ')' then ([], .bracket, rest)
    else if isSpace c then ([], .space, rest)
    else if startsEscape (c :: rest) then
      have := length_readEscape rest
      let (value, stop, after) := readUrlChars (readEscape rest).2
      ((readEscape rest).1 :: value, stop, after)
    else if isForbiddenInUrl c then ([], .forbidden, rest)
    else
      let (value, stop, after) := readUrlChars rest
      (c :: value, stop, after)
termination_by s.length

theorem length_readUrlChars (s : List Char) : (readUrlChars s).2.2.length ≤ s.length := by
  fun_induction readUrlChars s with
  | case1 => simp
  | case2 => simp
  | case3 => simp
  | case4 c rest _ _ _ _ value stop after h ih =>
    have := length_readEscape rest
    rw [h] at ih
    simp only [List.length_cons] at ih ⊢
    omega
  | case5 => simp
  | case6 c rest _ _ _ _ value stop after h ih =>
    rw [h] at ih
    simp only [List.length_cons] at ih ⊢
    omega

/-- The text after the rest of a bad address: after the next `)` that has no backslash. -/
def skipBadUrl : List Char → List Char
  | [] => []
  | '\\' :: ')' :: rest => skipBadUrl rest
  | c :: rest => if c == ')' then rest else skipBadUrl rest

theorem length_skipBadUrl (s : List Char) : (skipBadUrl s).length ≤ s.length := by
  fun_induction skipBadUrl s <;> simp_all <;> omega

theorem length_dropWhile_le (p : Char → Bool) (s : List Char) :
    (s.dropWhile p).length ≤ s.length :=
  (List.dropWhile_sublist p).length_le

/-- The tokens for an address without quotes, given the text after `url(`. -/
def readUrl (s : List Char) : List Token × List Char :=
  let (value, stop, after) := readUrlChars (s.dropWhile isSpace)
  let unclosed := [.url (.ofList value) false, .malformed .openUrl]
  match stop with
  | .bracket => ([.url (.ofList value) true], after)
  | .textEnd => (unclosed, after)
  | .forbidden => ([.malformed .badUrl], skipBadUrl after)
  | .space =>
    match after.dropWhile isSpace with
    | [] => (unclosed, [])
    | c :: rest =>
      if c == ')' then ([.url (.ofList value) true], rest)
      else ([.malformed .badUrl], skipBadUrl (c :: rest))

theorem length_readUrl (s : List Char) : (readUrl s).2.length ≤ s.length := by
  have h1 := length_dropWhile_le isSpace s
  have h2 := length_readUrlChars (s.dropWhile isSpace)
  unfold readUrl
  generalize readUrlChars (s.dropWhile isSpace) = r at h2
  obtain ⟨value, stop, after⟩ := r
  simp only at h2 ⊢
  have h3 := length_dropWhile_le isSpace after
  have h4 := length_skipBadUrl after
  cases stop with
  | bracket => simp only; omega
  | textEnd => simp only; omega
  | forbidden => simp only; omega
  | space =>
    simp only
    split
    · simp
    · next c rest h =>
      rw [h, List.length_cons] at h3
      have h5 := length_skipBadUrl (c :: rest)
      rw [List.length_cons] at h5
      split <;> simp only <;> omega

end NestedStyles.Css
