import NestedStyles.Text.LowerCase

/-!
# CSS tokens

The tokens of a CSS text, with the blocks and functions that hold tokens of their own. Comments are
not kept. The module also says how a token is named in a message.
-/

namespace NestedStyles.Css

/-- The kinds of brackets. -/
inductive Bracket
  | curly | square | round
  deriving DecidableEq, Repr

namespace Bracket

/-- The bracket that opens. -/
def opener : Bracket → Char
  | curly => '{'
  | square => '['
  | round => '('

/-- The bracket that closes. -/
def closer : Bracket → Char
  | curly => '}'
  | square => ']'
  | round => ')'

end Bracket

/-- What is wrong with a piece of text that is not a token. -/
inductive Malformed
  | badString
  | badUrl
  | unmatched (closer : Bracket)
  | openString
  | openUrl
  deriving DecidableEq, Repr

/-- The name of the fault. -/
def Malformed.text : Malformed → String
  | badString => "bad-string"
  | badUrl => "bad-url"
  | unmatched b => String.singleton b.closer
  | openString => "eof-in-string"
  | openUrl => "eof-in-url"

/-- A number as written, with its value if it is an integer. -/
structure Numeral where
  text : String
  integer : Option Int
  deriving DecidableEq, Repr

/-- The number is written with a sign. -/
def Numeral.isSigned (n : Numeral) : Bool :=
  n.text.toList.head? == some '+' || n.text.toList.head? == some '-'

/-- A token. `closed` says of a string or an address that its end was written. -/
inductive Token
  | whitespace (text : String)
  | literal (text : String)
  | ident (value : String)
  | atKeyword (value : String)
  | hash (value : String) (isIdentifier : Bool)
  | string (value : String) (closed : Bool)
  | url (value : String) (closed : Bool)
  | unicodeRange (first last : Nat)
  | number (numeral : Numeral)
  | percentage (numeral : Numeral)
  | dimension (numeral : Numeral) (unit : String)
  | block (bracket : Bracket) (content : List Token)
  | function (name : String) (arguments : List Token)
  | malformed (what : Malformed)
  deriving Repr, Inhabited

namespace Token

/-- The token is the literal `text`. -/
def isLiteral (text : String) : Token → Bool
  | literal t => t == text
  | _ => false

/-- The token is white space. -/
def isWhitespace : Token → Bool
  | whitespace _ => true
  | _ => false

/-- The name of the kind of token. -/
def kind : Token → String
  | whitespace _ => "whitespace"
  | literal _ => "literal"
  | ident _ => "ident"
  | atKeyword _ => "at-keyword"
  | hash _ _ => "hash"
  | string _ _ => "string"
  | url _ _ => "url"
  | unicodeRange _ _ => "unicode-range"
  | number _ => "number"
  | percentage _ => "percentage"
  | dimension _ _ => "dimension"
  | block .curly _ => "\x7b\x7d block"
  | block .square _ => "[] block"
  | block .round _ => "() block"
  | function _ _ => "function"
  | malformed _ => "error"

end Token

/-- A string in quotes, with escapes. The end quote is left out if none was written. -/
def quoteString (value : String) (closed : Bool) : String :=
  let escaped := value.toList.flatMap fun
    | '"' => ['\\', '"']
    | '\\' => ['\\', '\\']
    | '\n' => ['\\', 'A', ' ']
    | '\r' => ['\\', 'D', ' ']
    | '\x0c' => ['\\', 'C', ' ']
    | c => [c]
  .ofList ('"' :: escaped ++ (if closed then ['"'] else []))

/-- An address as a CSS function, with escapes. The bracket at the end is left out if none was
written. -/
def quoteUrl (value : String) (closed : Bool) : String :=
  let escaped := value.toList.flatMap fun c =>
    if c ∈ ['\'', '"', '\\', '(', ')', ' '] then ['\\', c]
    else match c with
      | '\t' => ['\\', '9', ' ']
      | '\n' => ['\\', 'A', ' ']
      | '\r' => ['\\', 'D', ' ']
      | '\x0c' => ['\\', 'C', ' ']
      | c => [c]
  .ofList ('u' :: 'r' :: 'l' :: '(' :: escaped ++ (if closed then [')'] else []))

namespace Token

/-- A token as it is named in a message. -/
def text : Token → String
  | whitespace _ => "<WhitespaceToken>"
  | literal t => "<LiteralToken " ++ t ++ ">"
  | ident v => "<IdentToken " ++ v ++ ">"
  | atKeyword v => "<AtKeywordToken @" ++ v ++ ">"
  | hash v _ => "<HashToken #" ++ v ++ ">"
  | string v closed => "<StringToken " ++ quoteString v closed ++ ">"
  | url v closed => "<URLToken " ++ quoteUrl v closed ++ ">"
  | unicodeRange first last =>
    "<UnicodeRangeToken " ++ toString first ++ " " ++ toString last ++ ">"
  | number n => "<NumberToken " ++ n.text ++ ">"
  | percentage n => "<PercentageToken " ++ n.text ++ "%>"
  | dimension n unit => "<DimensionToken " ++ n.text ++ unit ++ ">"
  | block .curly _ => "<CurlyBracketsBlock \x7b … \x7d>"
  | block .square _ => "<SquareBracketsBlock [ … ]>"
  | block .round _ => "<ParenthesesBlock ( … )>"
  | function name _ => "<FunctionBlock " ++ name ++ "( … )>"
  | malformed what => "<ParseError " ++ what.text ++ ">"

/-- The token, or the lack of one, as it is named in a message. -/
def textOrNone (t : Option Token) : String :=
  (t.map text).getD "None"

end Token

end NestedStyles.Css
