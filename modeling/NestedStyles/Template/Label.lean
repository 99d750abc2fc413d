/-!
# What an element says about itself

The part of a template's element that is independent of its place among the others.
-/

namespace NestedStyles

/-- The branch of an if / else-if / else chain an element belongs to. -/
structure Conditional where
  chain : Int
  branch : Int
  deriving DecidableEq, Repr

/-- Two tags name different branches of one chain. -/
def Conditional.excludes : Option Conditional → Option Conditional → Bool
  | some a, some b => a.chain == b.chain && a.branch != b.branch
  | _, _ => false

/-- An element without its place in the template. -/
structure Label where
  tag : String
  id : Option String
  classes : List String
  /-- The attributes. One without a value is present and compares with nothing. -/
  attributes : List (String × Option String)
  conditional : Option Conditional
  /-- Some of the element's classes are known only when the page is shown. -/
  hasDynamicClass : Bool
  deriving DecidableEq, Repr, Inhabited

namespace Label

/-- The label of nothing. -/
def blank : Label := ⟨"", none, [], [], none, false⟩

/-- The element as it is named in a message: tag, identifier and classes. -/
def text (l : Label) : String :=
  let id := l.id.getD ""
  "<TemplateNode " ++ l.tag ++ (if id.isEmpty then "" else "#" ++ id) ++
    String.join (l.classes.map ("." ++ ·)) ++ ">"

end Label

end NestedStyles
