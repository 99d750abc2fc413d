import NestedStyles.Template.Tree
import NestedStyles.Text.Blank

/-!
# Markup of a template

The elements of a component's markup become the trees that styles are matched against:

* `v-if`, `v-else-if` and `v-else` tag the branches of a chain
* `<slot>` is left out
* an element that only wraps its content is replaced by that content
* `:class`, `v-bind:class` and `v-bind` mark a class known only when the page is shown
* `v-html` replaces an element's content
-/

namespace NestedStyles

/-- A piece of markup. -/
inductive Element
  | element (tag : String) (attributes : List (String × String)) (children : List Element)
  /-- A comment or a processing instruction. -/
  | remark
  deriving Repr, Inhabited

namespace Element

/-- The tags whose elements only wrap their content. -/
def transparentTags : List String :=
  ["template", "Transition", "transition", "KeepAlive", "keep-alive", "Suspense", "suspense",
    "Teleport", "teleport"]

/-- The tag of an element that stands for content given from outside. -/
def slotTag : String := "slot"

/-- The attributes whose presence leaves the classes open. -/
def dynamicClassAttributes : List String :=
  [":class", "v-bind:class", "v-bind"]

/-- An attribute with this name is present. -/
def hasAttribute (attributes : List (String × String)) (name : String) : Bool :=
  attributes.any (·.1 == name)

/-- The chain tag of an element that follows elements with the tag `before`, and the number of the
next chain. A chain starts at `v-if` and lasts while the elements carry a directive. -/
def chainTag (attributes : List (String × String)) (before : Option Conditional) (next : Nat) :
    Option Conditional × Nat :=
  if hasAttribute attributes "v-if" then (some ⟨next, 0⟩, next + 1)
  else if hasAttribute attributes "v-else-if" || hasAttribute attributes "v-else" then
    (before.map fun t => { t with branch := t.branch + 1 }, next)
  else (none, next)

/-- What an element says about itself. -/
def toLabel (tag : String) (attributes : List (String × String))
    (conditional : Option Conditional) : Label where
  tag := tag
  id := (attributes.lookup "id").filter (!·.isEmpty)
  classes := (Text.words ((attributes.lookup "class").getD "").toList).map .ofList
  attributes := attributes.map fun (name, value) =>
    (name, if value.isEmpty then none else some value)
  conditional := conditional
  hasDynamicClass := attributes.any fun (name, _) => name ∈ dynamicClassAttributes

/-- Puts a tree that belongs to no chain of its own into the branch of its wrapper. -/
def inBranch (conditional : Option Conditional) : Tree → Tree
  | .node label children =>
    .node { label with conditional := label.conditional.or conditional } children

/-- The trees built so far and what the next element has to know. -/
structure Built where
  trees : List Tree
  /-- The chain tag of the element before. -/
  tag : Option Conditional
  /-- The number of the next chain. -/
  next : Nat

mutual

/-- The trees for one piece of markup that follows elements with the tag `before`. -/
def build (before : Option Conditional) (next : Nat) : Element → Built
  | remark => ⟨[], before, next⟩
  | element tag attributes children =>
    if tag == slotTag then ⟨[], before, next⟩
    else
      let (own, next) := chainTag attributes before next
      if tag ∈ transparentTags then
        let inner := buildAll none next children
        ⟨inner.trees.map (inBranch own), own, inner.next⟩
      else if hasAttribute attributes "v-html" then
        ⟨[.node (toLabel tag attributes own) []], own, next⟩
      else
        let inner := buildAll none next children
        ⟨[.node (toLabel tag attributes own) inner.trees], own, inner.next⟩

/-- The trees for pieces of markup that stand side by side. -/
def buildAll (before : Option Conditional) (next : Nat) : List Element → Built
  | [] => ⟨[], before, next⟩
  | e :: es =>
    let first := build before next e
    let others := buildAll first.tag first.next es
    ⟨first.trees ++ others.trees, others.tag, others.next⟩

end

mutual

/-- The markup has a slot somewhere. -/
def hasSlot : Element → Bool
  | remark => false
  | element tag _ children => tag == slotTag || anyHasSlot children

/-- One of the pieces of markup has a slot somewhere. -/
def anyHasSlot : List Element → Bool
  | [] => false
  | e :: es => e.hasSlot || anyHasSlot es

end

/-- The trees for the markup of a template. -/
def toTrees (es : List Element) : List Tree :=
  (buildAll none 0 es).trees

end Element

/-- The template with this markup. -/
def Template.ofElements (es : List Element) : Template :=
  .ofTrees (Element.toTrees es)

end NestedStyles
