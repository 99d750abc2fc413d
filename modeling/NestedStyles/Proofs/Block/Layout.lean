import NestedStyles.Block.Sheet
import NestedStyles.Proofs.Block.Passing

/-!
# Layouts of a stylesheet

A stylesheet as its author lays it out: items on lines of their own, blocks with lines of content
and nested blocks in them, and white space wherever it may stand. A layout has a text, and a
meaning: what is to be read from that text.

The parts carry what makes them well formed, so there is no layout of an ill-formed sheet.
-/

namespace NestedStyles.Layout

open Text Block

/-! ## White space and names -/

/-- White space that may stand between two parts of a line. -/
structure Gap where
  chars : List Char
  blank : AllBlank chars
  inline : '\n' ∉ chars

/-- White space that parts two words of a line. -/
structure Space extends Gap where
  nonempty : chars ≠ []

/-- White space, over any number of lines. -/
structure Blanks where
  chars : List Char
  blank : AllBlank chars

/-- White space that ends a line. Blank lines may follow. -/
structure Break extends Blanks where
  breaks : '\n' ∈ chars

/-- The name of a block. -/
structure Name where
  chars : List Char
  isName : isName chars = true

/-- A utility class. -/
structure Word where
  chars : List Char
  nonempty : chars ≠ []
  unspaced : ∀ c ∈ chars, isBlank c = false
  closed : Closed chars

/-! ## Directives -/

/-- A `;` at the end of a line, if there is one. -/
def semicolon : Option Gap → List Char
  | none => []
  | some gap => gap.chars ++ [';']

/-- The words `from 'path'` after a directive's names. -/
structure Source where
  before : Space
  after : Space
  quote : Char
  isQuote : isQuote quote = true
  path : List Char
  nonempty : path ≠ []
  unquoted : ∀ c ∈ path, Block.isQuote c = false
  inline : '\n' ∉ path

namespace Source

/-- The path in its quotes. -/
def quoted (s : Source) : List Char :=
  s.quote :: (s.path ++ [s.quote])

/-- The source as written. -/
def text (s : Source) : List Char :=
  s.before.chars ++ ['f', 'r', 'o', 'm'] ++ s.after.chars ++ s.quoted

end Source

/-- A line `@use name` or `@use name from 'path'`. It stands in a block, where comments are taken
out. -/
structure UseLine where
  gap : Gap
  name : Name
  source : Option Source
  plain : ∀ s ∈ source, '\\' ∉ s.path ∧ ¬ ['/', '*'] <:+: s.path
  finish : Option Gap

namespace UseLine

/-- The line as written. -/
def text (l : UseLine) : List Char :=
  ['@', 'u', 's', 'e', ' '] ++ l.gap.chars ++ l.name.chars ++
    ((l.source.map Source.text).getD [] ++ semicolon l.finish)

/-- The request of the line. -/
def meaning (l : UseLine) : UseDirective :=
  ⟨.ofList l.name.chars, l.source.map fun s => .ofList s.path⟩

end UseLine

/-- A line `@import name1, name2 from 'path'`. -/
structure ImportLine where
  space : Space
  first : Name
  more : List (Gap × Gap × Name)
  source : Source
  finish : Option Gap

/-- A name of a list with the comma in front of it. -/
def listed : Gap × Gap × Name → List Char
  | (before, after, name) => before.chars ++ ',' :: (after.chars ++ name.chars)

namespace ImportLine

/-- The names of the line. -/
def names (l : ImportLine) : List Name :=
  l.first :: l.more.map fun (_, _, name) => name

/-- The names as written, with the commas between them. -/
def list (l : ImportLine) : List Char :=
  l.first.chars ++ l.more.flatMap listed

/-- The line as written. -/
def text (l : ImportLine) : List Char :=
  ['@', 'i', 'm', 'p', 'o', 'r', 't'] ++ l.space.chars ++ l.list ++
    (l.source.text ++ semicolon l.finish)

/-- The import of the line. -/
def meaning (l : ImportLine) : ImportDirective :=
  ⟨l.names.map fun name => .ofList name.chars, .ofList l.source.path⟩

end ImportLine

/-! ## Lines of content -/

/-- A comment, over any number of lines, in which no other comment seems to open. -/
structure Comment where
  inner : List Char
  closed : ¬ ['*', '/'] <:+: inner
  single : ¬ ['/', '*'] <:+: inner ++ ['*']

/-- The comment as written. -/
def Comment.text (c : Comment) : List Char :=
  '/' :: '*' :: (c.inner ++ ['*', '/'])

/-- Words with white space between them. -/
def wordsText (first : Word) (more : List (Space × Word)) : List Char :=
  first.chars ++ more.flatMap fun (space, word) => space.chars ++ word.chars

/-- A line of utility classes. With a `;` at its end it would be a declaration, and with a comma
part of the selector on the next line. -/
structure ClassLine where
  first : Word
  more : List (Space × Word)
  noDirective : first.chars ≠ ['@', 'u', 's', 'e'] ∧
    first.chars ≠ ['@', 'i', 'm', 'p', 'o', 'r', 't']
  noSemicolon : (wordsText first more).getLast? ≠ some ';'
  noComma : (wordsText first more).getLast? ≠ some ','

/-- The classes of the line. -/
def ClassLine.meaning (l : ClassLine) : List String :=
  .ofList l.first.chars :: l.more.map fun (_, word) => .ofList word.chars

/-- A line that is a declaration. -/
structure Declaration where
  chars : List Char
  closed : Closed chars
  trimmed : trim chars = chars
  finished : chars.getLast? = some ';'
  noUse : headedBy ['@', 'u', 's', 'e'] chars = false
  noImport : headedBy ['@', 'i', 'm', 'p', 'o', 'r', 't'] chars = false

/-- A line of a block, or a comment in the place of lines. -/
inductive Line
  | comment (comment : Comment)
  | use (line : UseLine)
  | declaration (line : Declaration)
  | classes (line : ClassLine)

namespace Line

/-- The line as written. -/
def text : Line → List Char
  | comment c => c.text
  | use l => l.text
  | declaration l => l.chars
  | classes l => wordsText l.first l.more

/-- What the line adds to its block. -/
def meaning : Line → Body
  | comment _ => .empty
  | use l => { Body.empty with uses := [l.meaning] }
  | declaration l => { Body.empty with declarations := [.ofList l.chars] }
  | classes l => { Body.empty with classes := l.meaning }

end Line

/-! ## Blocks -/

variable {cfg : Config}

/-- The selector of a rule. -/
structure SelectorText where
  chars : List Char
  nonempty : chars ≠ []
  closed : Closed chars
  trimmed : trim chars = chars
  noDirective : chars.head? ≠ some '@'

/-- The selector of a rule in a block. An ambiguous word would be a class there. -/
structure NestedSelector (cfg : Config) extends SelectorText where
  proper : looksLikeSelector cfg chars = true

/-- The header of a block that is skipped: `@` and a name that the configuration lists. -/
structure AtRule (cfg : Config) where
  name : List Char
  rest : List Char
  nonempty : name ≠ []
  isName : ∀ c ∈ name, isNameChar c = true
  maximal : ∀ c ∈ rest.head?, isNameChar c = false
  listed : String.ofList (lowerCase name) ∈ cfg.unsupportedAtRules
  closed : Closed ('@' :: (name ++ rest))
  trimmed : trim ('@' :: (name ++ rest)) = '@' :: (name ++ rest)

namespace AtRule

/-- The header as written. -/
def chars (a : AtRule cfg) : List Char :=
  '@' :: (a.name ++ a.rest)

/-- What is reported of the block. -/
def fault (a : AtRule cfg) : Fault :=
  .unsupportedAtRule (.ofList ('@' :: a.name))

end AtRule

/-- The inside of a block that is skipped. -/
structure Skipped where
  chars : List Char
  balanced : isBalanced true .text 0 0 chars = true
  noBackslash : '\\' ∉ chars

/-- The inside of a block: lines and nested blocks, each on lines of its own. -/
inductive Pieces (cfg : Config)
  | close (closing : Blanks)
  | line (start : Break) (content : Line) (next : Pieces cfg)
  | rule (start : Break) (selector : NestedSelector cfg) (gap : Blanks) (body next : Pieces cfg)
  | skipped (start : Break) (header : AtRule cfg)
      (proper : looksLikeSelector cfg header.chars = true) (gap : Blanks) (body : Skipped)
      (next : Pieces cfg)

/-- The header of a block that is exported. -/
def exportHeader (space : Space) (name : Name) : List Char :=
  ['@', 'e', 'x', 'p', 'o', 'r', 't'] ++ space.chars ++ name.chars

/-- The text in braces, with a header and white space in front. -/
def braced (header : List Char) (gap : Blanks) (body : List Char) : List Char :=
  header ++ gap.chars ++ '{' :: (body ++ ['}'])

namespace Pieces

/-- The inside of the block as written. -/
def text : Pieces cfg → List Char
  | close closing => closing.chars
  | .line start content next => start.chars ++ content.text ++ next.text
  | rule start selector gap body next =>
    start.chars ++ braced selector.chars gap body.text ++ next.text
  | skipped start header _ gap body next =>
    start.chars ++ braced header.chars gap body.chars ++ next.text

/-- The content of the block. -/
def meaning : Pieces cfg → Body
  | close _ => .empty
  | .line _ content next => content.meaning ++ next.meaning
  | rule _ selector _ body next =>
    { Body.empty with children := [body.meaning.toRule (.ofList selector.chars)] } ++ next.meaning
  | skipped _ _ _ _ _ next => next.meaning

/-- What is reported of the block. -/
def faults : Pieces cfg → List Fault
  | close _ => []
  | .line _ _ next => next.faults
  | rule _ _ _ body next => body.faults ++ next.faults
  | skipped _ header _ _ _ next => header.fault :: next.faults

end Pieces

/-! ## Sheets -/

/-- What may stand on lines of its own outside of all blocks. There, `@import` with white space
behind it heads no block. -/
inductive Item (cfg : Config)
  | blank
  | comment (comment : Comment)
  | imports (line : ImportLine)
  | exports (allowed : "export" ∉ cfg.unsupportedAtRules) (space : Space) (name : Name)
      (gap : Blanks) (body : Pieces cfg)
  | rule (selector : SelectorText) (gap : Blanks) (body : Pieces cfg)
  | skipped (header : AtRule cfg) (gap : Blanks)
      (noImport : header.name = ['i', 'm', 'p', 'o', 'r', 't'] →
        StartsSolid (header.rest ++ gap.chars))
      (body : Skipped)

namespace Item

/-- The item as written. -/
def text : Item cfg → List Char
  | blank => []
  | comment c => c.text
  | imports l => l.text
  | exports _ space name gap body => braced (exportHeader space name) gap body.text
  | rule selector gap body => braced selector.chars gap body.text
  | skipped header gap _ body => braced header.chars gap body.chars

/-- What the item adds to the sheet. -/
def meaning : Item cfg → Stylesheet
  | blank | comment _ | skipped _ _ _ _ => .empty
  | imports l => { Stylesheet.empty with imports := [l.meaning] }
  | exports _ _ name _ body =>
    { Stylesheet.empty with exports := [⟨body.meaning, .ofList name.chars⟩] }
  | rule selector _ body =>
    { Stylesheet.empty with rules := [body.meaning.toRule (.ofList selector.chars)] }

/-- What is reported of the item. -/
def faults : Item cfg → List Fault
  | blank | comment _ | imports _ => []
  | exports _ _ _ _ body | rule _ _ body => body.faults
  | skipped header _ _ _ => [header.fault]

end Item

/-- An item with the white space around it on its lines. -/
structure Entry (cfg : Config) where
  indent : Gap
  item : Item cfg
  trail : Gap

/-- The entry as written. -/
def Entry.text (e : Entry cfg) : List Char :=
  e.indent.chars ++ e.item.text ++ e.trail.chars

/-- The text with these entries. -/
def text (entries : List (Entry cfg)) : List Char :=
  unlines (entries.map Entry.text)

/-- The sheet with these entries. -/
def meaning (entries : List (Entry cfg)) : Stylesheet :=
  entries.foldr (fun e sheet => e.item.meaning ++ sheet) .empty

/-- What is reported of these entries. -/
def faults (entries : List (Entry cfg)) : List Fault :=
  entries.flatMap fun e => e.item.faults

end NestedStyles.Layout
