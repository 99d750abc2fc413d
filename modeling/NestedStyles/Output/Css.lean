import NestedStyles.Output.Extract

/-!
# The rules as CSS

Declarations cannot be expressed by classes on elements, and extracted rules match no element.
Both are written as nested CSS, two spaces to a level, branches without content left out.
-/

namespace NestedStyles.Output

/-- A line at some depth. -/
def indented (depth : Nat) (line : String) : String :=
  .ofList (.replicate (2 * depth) ' ') ++ line

/-- The lines of a block with a selector. -/
def blockLines (depth : Nat) (selector : String) (inner : List String) : List String :=
  (indented depth (selector ++ " \x7b") :: inner) ++ [indented depth "\x7d"]

mutual

/-- The rule or a rule nested in it has content of its own according to `own`. -/
def holds (own : StyleRule → Bool) : StyleRule → Bool
  | r@⟨_, _, _, _, children⟩ => own r || anyHolds own children

/-- One of the rules or of the rules nested in them has content of its own. -/
def anyHolds (own : StyleRule → Bool) : List StyleRule → Bool
  | [] => false
  | r :: rs => holds own r || anyHolds own rs

end

/-- What a rule has to say in CSS. -/
structure Writer where
  /-- The rule has content of its own. -/
  own : StyleRule → Bool
  /-- The lines it writes for itself. -/
  lines : StyleRule → List String

/-- Declarations alone. -/
def Writer.scoped : Writer where
  own r := !r.declarations.isEmpty
  lines r := r.declarations

/-- Declarations, and the classes in front of them as one `@apply`. -/
def Writer.applied : Writer where
  own r := !(r.classes.isEmpty && r.declarations.isEmpty)
  lines r :=
    (if r.classes.isEmpty then [] else ["@apply " ++ " ".intercalate r.classes ++ ";"]) ++
      r.declarations

mutual

/-- The lines of a rule and of the rules nested in it. -/
def ruleLines (w : Writer) (depth : Nat) : StyleRule → List String
  | r@⟨selector, _, _, _, children⟩ =>
    if holds w.own r then
      blockLines depth selector
        ((w.lines r).map (indented (depth + 1)) ++ rulesLines w (depth + 1) children)
    else []

/-- The lines of rules that stand side by side. -/
def rulesLines (w : Writer) (depth : Nat) : List StyleRule → List String
  | [] => []
  | r :: rs => ruleLines w depth r ++ rulesLines w depth rs

end

/-- The lines of an extracted rule inside blocks for the selectors in `path`. -/
def wrappedLines (depth : Nat) (rule : StyleRule) : List String → List String
  | [] => ruleLines .applied depth rule
  | selector :: path => blockLines depth selector (wrappedLines (depth + 1) rule path)

/-- The lines as one text, if there are any. -/
def joined : List String → Option String
  | [] => none
  | ls => some ("\n".intercalate ls)

/-- The declarations of a rule tree. -/
def scopedCss (rules : List StyleRule) : Option String :=
  joined (rulesLines .scoped 0 rules)

/-- The extracted rules, each in the blocks it came from. -/
def applyCss (items : List Extracted) : Option String :=
  joined (items.flatMap fun item =>
    if holds Writer.applied.own item.rule then wrappedLines 0 item.rule item.path else [])

end NestedStyles.Output
