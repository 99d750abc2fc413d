import NestedStyles.Css.Name
import NestedStyles.Css.Token

/-!
# Writing CSS tokens

Tokens are written so that reading gives the same tokens again. Between two tokens that would be
read as one an empty comment is put.
-/

namespace NestedStyles.Css

/-- A character that cannot stand in a name as it is. -/
def escapeChar (c : Char) : List Char :=
  match c with
  | '\n' => ['\\', 'A', ' ']
  | '\r' => ['\\', 'D', ' ']
  | '\x0c' => ['\\', 'C', ' ']
  | c => ['\\', c]

/-- A name with escapes where they are needed. -/
def writeName (name : List Char) : List Char :=
  name.flatMap fun c => if isNameChar c then [c] else escapeChar c

/-- The first character of an identifier. -/
def writeNameStart (c : Char) : List Char :=
  if isNameStart c then [c]
  else if c.isDigit then ['\\', '3', c, ' ']
  else escapeChar c

/-- A name that has to be read as an identifier. -/
def writeIdent : List Char → List Char
  | ['-'] => ['\\', '-']
  | '-' :: '-' :: rest => '-' :: '-' :: writeName rest
  | '-' :: c :: rest => '-' :: writeNameStart c ++ writeName rest
  | c :: rest => writeNameStart c ++ writeName rest
  | [] => []

/-- The unit of a number. One that looks like an exponent starts with an escape. -/
def writeUnit (unit : List Char) : List Char :=
  match unit with
  | [] => []
  | c :: rest =>
    if (c == 'e' || c == 'E') && (rest.isEmpty || rest.head? == some '-') then
      ['\\', '6', '5', ' '] ++ writeName rest
    else writeIdent unit

/-- A number in hexadecimal digits. -/
def hexText (n : Nat) : List Char :=
  (Nat.toDigits 16 n).map Char.toUpper

/-- What decides whether a token can stand next to another: its kind, or the text of a literal. -/
def Token.spacingClass : Token → String
  | .literal text => text
  | t => t.kind

/-- Two neighbours of these classes would be read as one token. -/
def wouldMerge (a b : String) : Bool :=
  (a ∈ ["ident", "at-keyword", "hash", "dimension", "#", "-", "number"] &&
      b ∈ ["ident", "function", "url", "number", "percentage", "dimension", "unicode-range"]) ||
    (a ∈ ["ident", "at-keyword", "hash", "dimension"] && b ∈ ["-", "-->"]) ||
    (a ∈ ["#", "-", "number", "@"] && b ∈ ["ident", "function", "url"]) ||
    (a ∈ ["unicode-range", ".", "+"] && b ∈ ["number", "percentage", "dimension"]) ||
    (a == "@" && b ∈ ["ident", "function", "url", "unicode-range", "-"]) ||
    (a == "unicode-range" && b ∈ ["ident", "function", "?"]) ||
    (a ∈ ["$", "*", "^", "~", "|"] && b == "=") ||
    (a == "ident" && b == "() block") || (a == "|" && b == "|") || (a == "/" && b == "*")

/-- The white space starts with a newline. -/
def Token.startsLine : Token → Bool
  | .whitespace text => text.toList.head? == some '\n'
  | _ => false

/-- What is written between a token of class `before` and the token `t`. -/
def separator (before : String) (t : Token) : List Char :=
  if wouldMerge before t.spacingClass then ['/', '*', '*', '/']
  else if before == "\\" && !t.startsLine then ['\n']
  else []

mutual

/-- The token ends in a string that is not closed. -/
def Token.endsInString : Token → Bool
  | .malformed .openString => true
  | .function _ arguments => lastEndsInString arguments
  | _ => false

/-- The last token ends in a string that is not closed. -/
def lastEndsInString : List Token → Bool
  | [] => false
  | [t] => t.endsInString
  | _ :: ts => lastEndsInString ts

end

mutual

/-- A token as text. Blocks are closed, and functions unless they end in a string that is not. -/
def Token.write : Token → List Char
  | .whitespace text => text.toList
  | .literal text => text.toList
  | .ident value => writeIdent value.toList
  | .atKeyword value => '@' :: writeIdent value.toList
  | .hash value isIdentifier =>
    '#' :: if isIdentifier then writeIdent value.toList else writeName value.toList
  | .string value closed => (quoteString value closed).toList
  | .url value closed => (quoteUrl value closed).toList
  | .unicodeRange first last =>
    ['U', '+'] ++ hexText first ++ if first == last then [] else '-' :: hexText last
  | .number n => n.text.toList
  | .percentage n => n.text.toList ++ ['%']
  | .dimension n unit => n.text.toList ++ writeUnit unit.toList
  | .block bracket content => bracket.opener :: writeAll none content ++ [bracket.closer]
  | .function name arguments =>
    writeIdent name.toList ++ '(' :: writeAll none arguments ++
      if lastEndsInString arguments then [] else [')']
  | .malformed .badString => "\"[bad string]\n".toList
  | .malformed .badUrl => "url([bad url])".toList
  | .malformed (.unmatched bracket) => [bracket.closer]
  | .malformed .openString | .malformed .openUrl => []

/-- Tokens as text, after a token of class `before` if there is one. -/
def writeAll (before : Option String) : List Token → List Char
  | [] => []
  | t :: ts =>
    (before.map fun b => separator b t).getD [] ++ t.write ++ writeAll (some t.spacingClass) ts

end

/-- Tokens as text. -/
def writeTokens (ts : List Token) : List Char :=
  writeAll none ts

end NestedStyles.Css
