import NestedStyles.Template.Forest

/-!
# Templates from trees

A template given as trees is made into a forest whose nodes are numbered in document order.
-/

namespace NestedStyles

/-- An element with the elements in it. -/
inductive Tree
  | node (label : Label) (children : List Tree)
  deriving Repr, Inhabited

namespace Tree

/-- The label of the topmost element. -/
def label : Tree → Label
  | node label _ => label

/-- The trees below the topmost element. -/
def children : Tree → List Tree
  | node _ children => children

mutual

/-- The number of elements. -/
def size : Tree → Nat
  | node _ children => 1 + sizeAll children

/-- The number of elements of all trees. -/
def sizeAll : List Tree → Nat
  | [] => 0
  | t :: ts => t.size + sizeAll ts

end

/-- The places of the topmost elements, where the first tree's elements are numbered from `next`. -/
def places (next : NodeId) : List Tree → List NodeId
  | [] => []
  | t :: ts => next :: places (next + t.size) ts

mutual

/-- The nodes of a tree below `parent`, in document order, numbered from `next`. -/
def nodesFrom (parent : Option NodeId) (next : NodeId) : Tree → List Node
  | node label children =>
    ⟨label, places (next + 1) children, parent⟩ :: nodesFromAll (some next) (next + 1) children

/-- The nodes of trees that stand side by side below `parent`. -/
def nodesFromAll (parent : Option NodeId) (next : NodeId) : List Tree → List Node
  | [] => []
  | t :: ts => nodesFrom parent next t ++ nodesFromAll parent (next + t.size) ts

end

end Tree

/-- A template: a forest and its roots. -/
structure Template where
  forest : Forest
  roots : List NodeId
  deriving DecidableEq, Repr

namespace Template

/-- The template that consists of these trees. -/
def ofTrees (ts : List Tree) : Template :=
  ⟨⟨Tree.nodesFromAll none 0 ts⟩, Tree.places 0 ts⟩

/-- All elements, in document order. -/
def elements (t : Template) : List NodeId :=
  t.roots.flatMap t.forest.subtree

end Template

end NestedStyles
