import NestedStyles.Text.CharRange

/-!
# Names in CSS

The characters of CSS, escapes, and names with escapes in them. Every reader of this and the
following modules takes the text in front of it and gives the text that is left, which is never
longer.
-/

namespace NestedStyles.Css

/-- A space, a newline or a tab. -/
def isSpace (c : Char) : Bool :=
  c == ' ' || c == '\n' || c == '\t'

/-- A hexadecimal digit. -/
def isHexDigit (c : Char) : Bool :=
  c.isDigit || ('a' ≤ c && c ≤ 'f') || ('A' ≤ c && c ≤ 'F')

/-- A character that can start a name: a letter, `_`, or any character beyond ASCII. -/
def isNameStart (c : Char) : Bool :=
  c.isAlpha || c == '_' || decide (0x7F < c.toNat)

/-- A character of a name. -/
def isNameChar (c : Char) : Bool :=
  isNameStart c || c.isDigit || c == '-'

/-- A character that may not stand in an address without quotes. -/
def isForbiddenInUrl (c : Char) : Bool :=
  c == '"' || c == '\'' || c == '(' ||
    Text.inRanges [(0x00, 0x08), (0x0B, 0x0B), (0x0E, 0x1F), (0x7F, 0x7F)] c

/-- A backslash that starts an escape: one that no newline follows. -/
def startsEscape : List Char → Bool
  | '\\' :: rest => rest.head? != some '\n'
  | _ => false

/-- An identifier starts here. -/
def startsIdent : List Char → Bool
  | [] => false
  | c :: rest =>
    isNameStart c || startsEscape (c :: rest) ||
      c == '-' && match rest with
        | [] => false
        | d :: _ => isNameStart d || d == '-' || startsEscape rest

/-- The value of hexadecimal digits. -/
def hexValue (digits : List Char) : Nat :=
  digits.foldl (fun n c =>
    16 * n + (if c.isDigit then c.toNat - 0x30 else (c.toNat - 0x37) % 0x20)) 0

/-- The character with this code point. There is none for 0 and for numbers that are no character:
they give U+FFFD. -/
def charOfCode (n : Nat) : Char :=
  if n != 0 && decide n.isValidChar then Char.ofNat n else '\uFFFD'

/-- The character an escape stands for, after its backslash: up to six hexadecimal digits, which a
white space character ends, or the next character itself. -/
def readEscape (s : List Char) : Char × List Char :=
  match (s.take 6).takeWhile isHexDigit with
  | [] =>
    match s with
    | [] => ('\uFFFD', [])
    | c :: rest => (c, rest)
  | digits =>
    let rest := s.drop digits.length
    (charOfCode (hexValue digits), if (rest.head?.map isSpace).getD false then rest.tail else rest)

theorem length_readEscape (s : List Char) : (readEscape s).2.length ≤ s.length := by
  unfold readEscape
  split
  · split <;> simp
  · dsimp only
    split <;> simp only [List.length_tail, List.length_drop] <;> omega

/-- The name at the start of a text, with its escapes read. -/
def readName (s : List Char) : List Char × List Char :=
  match s with
  | [] => ([], [])
  | c :: rest =>
    if isNameChar c then
      let (name, after) := readName rest
      (c :: name, after)
    else if startsEscape (c :: rest) then
      have := length_readEscape rest
      let (name, after) := readName (readEscape rest).2
      ((readEscape rest).1 :: name, after)
    else ([], c :: rest)
termination_by s.length

theorem length_readName (s : List Char) : (readName s).2.length ≤ s.length := by
  fun_induction readName s with
  | case1 => simp
  | case2 c rest _ name after h ih =>
    rw [h] at ih
    simp only [List.length_cons] at ih ⊢
    omega
  | case3 c rest _ _ _ name after h ih =>
    have := length_readEscape rest
    rw [h] at ih
    simp only [List.length_cons] at ih ⊢
    omega
  | case4 => simp

theorem length_readName_cons {c : Char} {rest : List Char}
    (h : isNameChar c = true ∨ startsEscape (c :: rest) = true) :
    (readName (c :: rest)).2.length ≤ rest.length := by
  rw [readName]
  split
  · exact length_readName rest
  · split
    · exact Nat.le_trans (length_readName _) (length_readEscape rest)
    · simp_all

theorem isNameChar_or_escape_of_startsIdent {c : Char} {rest : List Char}
    (h : startsIdent (c :: rest) = true) :
    isNameChar c = true ∨ startsEscape (c :: rest) = true := by
  simp only [startsIdent, Bool.or_eq_true, Bool.and_eq_true] at h
  rcases h with (h | h) | ⟨h, -⟩
  · simp [isNameChar, h]
  · exact .inr h
  · simp [isNameChar, h]

end NestedStyles.Css
