import NestedStyles.Css.Numeral
import NestedStyles.Css.Quoted
import NestedStyles.Text.Lines

/-!
# Reading CSS tokens

A text is cut into lexemes from left to right, and the lexemes that open and close brackets are
then nested into blocks and functions.
-/

namespace NestedStyles.Css

/-! ## Lexemes -/

/-- What brackets stand around. -/
inductive Frame
  | block (bracket : Bracket)
  | function (name : String)
  deriving DecidableEq, Repr

namespace Frame

/-- The bracket that closes. -/
def bracket : Frame → Bracket
  | block b => b
  | function _ => .round

/-- The token with this content. -/
def close (content : List Token) : Frame → Token
  | block b => .block b content
  | function name => .function name content

end Frame

/-- A token without content, or one end of a token with content. -/
inductive Lexeme
  | token (t : Token)
  | opens (f : Frame)
  | closes (b : Bracket)

/-- The text after `url(` is an address without quotes. -/
def isBareUrl (s : List Char) : Bool :=
  match (s.dropWhile isSpace).head? with
  | some c => c != '"' && c != '\''
  | none => true

/-- An identifier or the head of a function. -/
def lexName (s : List Char) : List Lexeme × List Char :=
  let (name, after) := readName s
  match after with
  | [] => ([.token (.ident (.ofList name))], after)
  | c :: rest =>
    if c == '(' then
      if name.map Char.toLower == ['u', 'r', 'l'] && isBareUrl rest then
        ((readUrl rest).1.map .token, (readUrl rest).2)
      else ([.opens (.function (.ofList name))], rest)
    else ([.token (.ident (.ofList name))], after)

/-- A number, with its unit if it has one. -/
def lexNumeral (n : Numeral) (s : List Char) : List Lexeme × List Char :=
  if startsIdent s then
    ([.token (.dimension n (.ofList (readName s).1))], (readName s).2)
  else if s.head? == some '%' then ([.token (.percentage n)], s.tail)
  else ([.token (.number n)], s)

/-- A string in quotes. One without an end is followed by a fault. -/
def lexString (quote : Char) (s : List Char) : List Lexeme × List Char :=
  let (found, after) := readQuoted quote s
  match found with
  | none => ([.token (.malformed .badString)], after)
  | some (value, true) => ([.token (.string (.ofList value) true)], after)
  | some (value, false) =>
    ([.token (.string (.ofList value) false), .token (.malformed .openString)], after)

/-- A mark: a bracket, or one or more characters that form a literal. -/
def lexMark (c : Char) (rest : List Char) : List Lexeme × List Char :=
  if c == '{' then ([.opens (.block .curly)], rest)
  else if c == '[' then ([.opens (.block .square)], rest)
  else if c == '(' then ([.opens (.block .round)], rest)
  else if c == '}' then ([.closes .curly], rest)
  else if c == ']' then ([.closes .square], rest)
  else if c == ')' then ([.closes .round], rest)
  else if c == '<' && ['!', '-', '-'].isPrefixOf rest then
    ([.token (.literal "<!--")], rest.drop 3)
  else if c == '|' && rest.head? == some '|' then ([.token (.literal "||")], rest.drop 1)
  else if c ∈ ['~', '|', '^', '$', '*'] && rest.head? == some '=' then
    ([.token (.literal (.ofList [c, '=']))], rest.drop 1)
  else ([.token (.literal (.singleton c))], rest)

/-- The lexemes that `c` starts, and the text after them. A comment gives none. -/
def lexOne (c : Char) (rest : List Char) : List Lexeme × List Char :=
  if isSpace c then
    ([.token (.whitespace (.ofList (c :: rest.takeWhile isSpace)))], rest.dropWhile isSpace)
  else if (c == 'U' || c == 'u') && rest.head? == some '+' &&
      (rest.tail.head?.map fun d => isHexDigit d || d == '?').getD false then
    ([.token (readUnicodeRange rest.tail).1], (readUnicodeRange rest.tail).2)
  else if c == '-' && ['-', '>'].isPrefixOf rest then ([.token (.literal "-->")], rest.drop 2)
  else if startsIdent (c :: rest) then lexName (c :: rest)
  else
    match readNumeral? (c :: rest) with
    | some (n, after) => lexNumeral n after
    | none =>
      if c == '@' && startsIdent rest then
        ([.token (.atKeyword (.ofList (readName rest).1))], (readName rest).2)
      else if c == '#' && ((rest.head?.map isNameChar).getD false || startsEscape rest) then
        ([.token (.hash (.ofList (readName rest).1) (startsIdent rest))], (readName rest).2)
      else if c == '"' || c == '\'' then lexString c rest
      else if c == '/' && rest.head? == some '*' then
        ([], match Text.indexOf? ['*', '/'] rest.tail with
          | some i => rest.tail.drop (i + 2)
          | none => [])
      else lexMark c rest

theorem length_lexName {c : Char} {rest : List Char} (h : startsIdent (c :: rest) = true) :
    (lexName (c :: rest)).2.length ≤ rest.length := by
  have h1 := length_readName_cons (isNameChar_or_escape_of_startsIdent h)
  unfold lexName
  generalize readName (c :: rest) = r at h1
  obtain ⟨name, after⟩ := r
  simp only at h1 ⊢
  split
  · exact h1
  · next d after =>
    have h2 := length_readUrl after
    simp only [List.length_cons] at h1
    split
    · split <;> simp only <;> omega
    · exact h1

theorem length_lexNumeral (n : Numeral) (s : List Char) :
    (lexNumeral n s).2.length ≤ s.length := by
  unfold lexNumeral
  split
  · exact length_readName s
  · split <;> simp

theorem length_lexString (quote : Char) (s : List Char) :
    (lexString quote s).2.length ≤ s.length := by
  have h := length_readQuoted quote s
  unfold lexString
  generalize readQuoted quote s = r at h
  obtain ⟨found, after⟩ := r
  simp only at h ⊢
  split <;> exact h

theorem length_lexMark (c : Char) (rest : List Char) :
    (lexMark c rest).2.length ≤ rest.length := by
  unfold lexMark
  repeat' split
  all_goals simp

theorem length_lexOne (c : Char) (rest : List Char) :
    (lexOne c rest).2.length ≤ rest.length := by
  unfold lexOne
  split
  · exact length_dropWhile_le _ _
  · split
    · exact Nat.le_trans (length_readUnicodeRange _) (by simp)
    · split
      · simp
      · split
        · next h => exact length_lexName h
        · split
          · next h => exact Nat.le_trans (length_lexNumeral _ _) (length_readNumeral? h)
          · split
            · exact length_readName rest
            · split
              · exact length_readName rest
              · split
                · exact length_lexString c rest
                · split
                  · dsimp only
                    split
                    · simp only [List.length_drop, List.length_tail]
                      omega
                    · simp
                  · exact length_lexMark c rest

/-- The lexemes of a text. -/
def lex (s : List Char) : List Lexeme :=
  match s with
  | [] => []
  | c :: rest =>
    have := length_lexOne c rest
    (lexOne c rest).1 ++ lex (lexOne c rest).2
termination_by s.length

/-! ## Nesting -/

/-- The tokens of lexemes, where `done` are the tokens before them in the innermost open brackets
and `outer` the brackets around those, each with the tokens before it. Brackets that are never
closed end with the text. -/
def nest (outer : List (Frame × List Token)) (done : List Token) : List Lexeme → List Token
  | [] => outer.foldl (fun inner (frame, before) => before ++ [frame.close inner]) done
  | .token t :: rest => nest outer (done ++ [t]) rest
  | .opens frame :: rest => nest ((frame, done) :: outer) [] rest
  | .closes b :: rest =>
    match outer with
    | [] => nest [] (done ++ [.malformed (.unmatched b)]) rest
    | (frame, before) :: outer =>
      if frame.bracket == b then nest outer (before ++ [frame.close done]) rest
      else nest ((frame, before) :: outer) (done ++ [.malformed (.unmatched b)]) rest

/-- The text with every line end as a newline, and U+FFFD for U+0000. -/
def preprocess : List Char → List Char
  | [] => []
  | '\r' :: '\n' :: rest => '\n' :: preprocess rest
  | c :: rest =>
    (if c == '\r' || c == '\x0c' then '\n' else if c == '\x00' then '\uFFFD' else c) ::
      preprocess rest

/-- The tokens of a text, without its comments. -/
def tokenize (s : List Char) : List Token :=
  nest [] [] (lex (preprocess s))

end NestedStyles.Css
