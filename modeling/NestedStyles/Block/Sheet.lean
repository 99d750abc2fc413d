import NestedStyles.Block.Content
import NestedStyles.Block.Header
import NestedStyles.Block.Scan

/-!
# Reading a stylesheet

A stylesheet is a sequence of imports, exports and rules; a block holds content and nested rules.
Reading never fails: what cannot be understood is reported and left out.

`Stylesheet.parse` is the reader. `readBody` reads the inside of one block.
-/

namespace NestedStyles.Block

open Text

/-- The report that the block opened at `brace` is never closed, if `close` is the text's end. -/
def unclosed (text : List Char) (brace close : Nat) : List Report :=
  if text.length ≤ close then [⟨.unclosedBrace, lineAt text brace⟩] else []

/-- The selector of a nested rule. A block without one speaks of the elements of the rule around
it. -/
def nestedSelector (selector : List Char) : String :=
  if selector.isEmpty then "&" else .ofList selector

/-- Reads the inside of a block, from position `start` up to `stop`. -/
def readBody (cfg : Config) (text : List Char) (start stop : Nat) : Reported Body :=
  if start < min stop text.length then
    match h : find? '{' text start (min stop text.length) with
    | none => readContent (lineAt text start) (slice text start (min stop text.length))
    | some brace =>
      have _hb := bounds_of_find? h
      have _hc := lt_closing _hb.2.2
      let line := lineAt text start
      let header := splitHeader cfg (slice text start brace)
      let close := closing text brace
      let nested : Reported Body :=
        match unsupportedAtRule? cfg header.selector with
        | some name => ⟨.empty, [⟨.unsupportedAtRule name, line⟩]⟩
        | none =>
          if ['@', 'e', 'x', 'p', 'o', 'r', 't'].isPrefixOf header.selector then
            ⟨.empty, [⟨.misplacedExport, line⟩]⟩
          else
            (readBody cfg text (brace + 1) close).map fun b =>
              { Body.empty with children := [b.toRule (nestedSelector header.selector)] }
      readContent line header.content ++
        (⟨.empty, unclosed text brace close⟩ ++
          (nested ++ readBody cfg text (close + 1) stop))
  else ⟨.empty, []⟩
termination_by text.length - start

/-- An import is at the start of the text: the keyword, followed by white space or nothing. -/
def startsImport (s : List Char) : Bool :=
  match after? ['@', 'i', 'm', 'p', 'o', 'r', 't'] s with
  | none => false
  | some rest => (rest.head?.map isBlank).getD true

/-- What the block with this header and content adds to a stylesheet. `line` is where it starts. -/
def readItem (line : Nat) (header : List Char) (body : Reported Body) : Reported Stylesheet :=
  if ['@', 'e', 'x', 'p', 'o', 'r', 't'].isPrefixOf header then
    match readExport header with
    | some name => body.map fun b => { Stylesheet.empty with exports := [⟨b, name⟩] }
    | none => ⟨.empty, body.reports ++ [⟨.malformedExport (.ofList header), line⟩]⟩
  else body.map fun b => { Stylesheet.empty with rules := [b.toRule (.ofList header)] }

/-- What a line that starts with the import keyword adds to a stylesheet. -/
def readImportLine (number : Nat) (line : List Char) : Reported Stylesheet :=
  match readImport line with
  | some directive => ⟨{ Stylesheet.empty with imports := [directive] }, []⟩
  | none => ⟨.empty, [⟨.malformedImport (.ofList (trim line)), number⟩]⟩

/-- The report of text that belongs to no rule, if any is left without comments. -/
def readStray (number : Nat) (s : List Char) : Reported Stylesheet :=
  match trim (stripComments false s) with
  | [] => ⟨.empty, []⟩
  | leftover => ⟨.empty, [⟨.strayContent (.ofList (firstShownLine leftover)), number⟩]⟩

/-- Reads a source from position `start` on. -/
def readSheet (cfg : Config) (text : List Char) (start : Nat) : Reported Stylesheet :=
  have _hs := le_skipGap text start text.length
  let pos := skipGap text start text.length
  if pos < text.length then
    let rest := text.drop pos
    if startsImport rest then
      let line := rest.takeWhile (· != '\n')
      readImportLine (lineAt text pos) line ++ readSheet cfg text (pos + line.length + 1)
    else
      match h : find? '{' text pos text.length with
      | none => readStray (lineAt text pos) rest
      | some brace =>
        have _hb := bounds_of_find? h
        have _hc := lt_closing _hb.2.2
        let header := trim (stripComments false (slice text pos brace))
        let close := closing text brace
        let item : Reported Stylesheet :=
          match unsupportedAtRule? cfg header with
          | some name => ⟨.empty, [⟨.unsupportedAtRule name, lineAt text pos⟩]⟩
          | none => readItem (lineAt text pos) header (readBody cfg text (brace + 1) close)
        ⟨.empty, unclosed text brace close⟩ ++ (item ++ readSheet cfg text (close + 1))
  else ⟨.empty, []⟩
termination_by text.length - start

end NestedStyles.Block

namespace NestedStyles

/-- Reads a source: its rules, exports and imports, and the faults found in it. -/
def Stylesheet.parse (cfg : Config) (text : String) : Block.Reported Stylesheet :=
  Block.readSheet cfg text.toList 0

end NestedStyles
