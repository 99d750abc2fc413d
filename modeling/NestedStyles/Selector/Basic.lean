import NestedStyles.Css.Nth
import NestedStyles.Match.Structural

/-!
# Selectors

A chain is a sequence of compound selectors with combinators between them, built from the left. A
selector is a list of branches, each a chain with the role that `&` plays in it.
-/

namespace NestedStyles

/-- How the element of one compound stands to the element of the next. -/
inductive Combinator
  | descendant | child | adjacent | sibling
  deriving DecidableEq, Repr

namespace Combinator

/-- The combinator as written. -/
def text : Combinator → String
  | descendant => " "
  | child => ">"
  | adjacent => "+"
  | sibling => "~"

/-- The combinator that is written with this mark. -/
def ofMark? : String → Option Combinator
  | ">" => some child
  | "+" => some adjacent
  | "~" => some sibling
  | _ => none

end Combinator

/-- How an attribute's value is compared. -/
inductive Comparison
  | equals | hasWord | hasSubtag | startsWith | endsWith | contains
  deriving DecidableEq, Repr

namespace Comparison

/-- The comparison as written. -/
def text : Comparison → String
  | equals => "="
  | hasWord => "~="
  | hasSubtag => "|="
  | startsWith => "^="
  | endsWith => "$="
  | contains => "*="

/-- The comparison that is written this way. -/
def ofMark? : String → Option Comparison
  | "=" => some equals
  | "~=" => some hasWord
  | "|=" => some hasSubtag
  | "^=" => some startsWith
  | "$=" => some endsWith
  | "*=" => some contains
  | _ => none

end Comparison

mutual

/-- One condition on an element. -/
inductive Simple
  | type (name : String)
  | class (name : String)
  | id (name : String)
  /-- The attribute is present and, if there is a comparison, its value compares this way. -/
  | attribute (name : String) (test : Option (Comparison × String))
  /-- A pseudo-class with the text of its argument, if it has one. -/
  | pseudo (name : String) (argument : Option String)
  /-- A pseudo-class that counts siblings, with the text of its argument and, if that could be
  read, its coefficients. -/
  | nth (pseudo : NthPseudo) (argument : String) (coefficients : Option Css.Coefficients)
  /-- Some relative chain leads from the element to an element. -/
  | has (alternatives : List Chain)
  /-- The element is the last of some chain. -/
  | among (alternatives : List Chain)
  /-- The element is the last of no chain. -/
  | except (alternatives : List Chain)
  /-- The element is one that `&` stands for. -/
  | nesting
  /-- Every element. -/
  | any

/-- Compounds with combinators between them. -/
inductive Chain
  /-- The first compound, with the combinator in front of it. -/
  | start (leading : Combinator) (compound : List Simple)
  /-- One more compound. -/
  | step (previous : Chain) (combinator : Combinator) (compound : List Simple)

end

/-- The conditions on one element, all of which have to hold. -/
abbrev Compound := List Simple

namespace Chain

/-- The combinator in front of the first compound. -/
def leading : Chain → Combinator
  | start leading _ => leading
  | step previous _ _ => previous.leading

/-- The last compound. -/
def subject : Chain → Compound
  | start _ compound => compound
  | step _ _ compound => compound

/-- The chain with another combinator in front of it. -/
def withLeading (leading : Combinator) : Chain → Chain
  | start _ compound => start leading compound
  | step previous combinator compound => step (previous.withLeading leading) combinator compound

/-- The compounds, each with the combinator in front of it. -/
def segments : Chain → List (Combinator × Compound)
  | start leading compound => [(leading, compound)]
  | step previous combinator compound => previous.segments ++ [(combinator, compound)]

end Chain

/-- What `&` does in a branch. -/
inductive Anchoring
  /-- There is no `&`. -/
  | free
  /-- The first compound is one of the elements that `&` stands for. -/
  | anchored
  /-- There is a `&` that is not at the start. -/
  | contextual
  deriving DecidableEq, Repr

/-- One of the alternatives between the commas of a selector. -/
structure Branch where
  chain : Chain
  anchoring : Anchoring

/-- A selector: the branches that could be read, and what is wrong with the others. -/
structure Selector where
  branches : List Branch
  errors : List String

end NestedStyles
