import NestedStyles.Template.Label

/-!
# The elements of a template

A forest keeps its nodes in a list and links them by their places in it. A node's children and its
parent are separate links. They agree in every forest that is made from trees, and need not agree
after a node has been moved.
-/

namespace NestedStyles

/-- The place of a node in its forest. -/
abbrev NodeId := Nat

/-- An element with its links. -/
structure Node where
  label : Label
  children : List NodeId
  parent : Option NodeId
  deriving DecidableEq, Repr

/-- A node without content and links. -/
def Node.blank : Node := ⟨.blank, [], none⟩

/-- The nodes of a template. -/
structure Forest where
  nodes : List Node
  deriving DecidableEq, Repr

namespace Forest

/-- The node at `i`. -/
def node (f : Forest) (i : NodeId) : Node :=
  f.nodes.getD i .blank

/-- What the node at `i` says about itself. -/
def label (f : Forest) (i : NodeId) : Label :=
  (f.node i).label

/-- The children of a node. -/
def children (f : Forest) (i : NodeId) : List NodeId :=
  (f.node i).children

/-- The parent of a node, unless it is a root. -/
def parent (f : Forest) (i : NodeId) : Option NodeId :=
  (f.node i).parent

/-- The node and the nodes below it, at most `depth` levels of them, in document order. -/
def subtreeTo (f : Forest) : Nat → NodeId → List NodeId
  | 0, _ => []
  | depth + 1, i => i :: (f.children i).flatMap (f.subtreeTo depth)

/-- The node and all nodes below it, in document order. -/
def subtree (f : Forest) (i : NodeId) : List NodeId :=
  f.subtreeTo f.nodes.length i

/-- The nodes above a node, at most `height` of them, the nearest first. -/
def ancestorsTo (f : Forest) : Nat → NodeId → List NodeId
  | 0, _ => []
  | height + 1, i =>
    match f.parent i with
    | none => []
    | some p => p :: f.ancestorsTo height p

/-- The nodes above a node, the nearest first. -/
def ancestors (f : Forest) (i : NodeId) : List NodeId :=
  f.ancestorsTo f.nodes.length i

/-- The root above a node, which may be the node itself. -/
def rootOf (f : Forest) (i : NodeId) : NodeId :=
  (f.ancestors i).getLastD i

/-- Different branches of one chain, of which at most one is shown. -/
def areAlternatives (f : Forest) (i j : NodeId) : Bool :=
  Conditional.excludes (f.label i).conditional (f.label j).conditional

end Forest

end NestedStyles
