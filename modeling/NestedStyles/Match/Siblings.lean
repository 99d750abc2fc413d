import NestedStyles.Template.Forest

/-!
# Siblings at runtime

Of the branches of a conditional chain only one is shown. A node's runtime siblings are therefore
its parent's children less the alternatives of the node itself. A root has no sibling but itself.
-/

namespace NestedStyles

/-- A node whose parent does not list it among its children. -/
structure StrayNode where
  label : Label
  deriving DecidableEq, Repr

/-- The wording of the fault. -/
def StrayNode.message (s : StrayNode) : String :=
  s.label.text ++ " is not among its parent's children"

/-- A result that needs the links of a node to agree. -/
abbrev Linked := Except StrayNode

namespace Forest

/-- The siblings a node has at runtime, itself included. -/
def runtimeSiblings (f : Forest) (i : NodeId) : List NodeId :=
  match f.parent i with
  | none => [i]
  | some p => (f.children p).filter fun j => !f.areAlternatives i j

/-- The runtime siblings of a node, with the number of those in front of it. -/
def siblingPosition (f : Forest) (i : NodeId) : Linked (List NodeId × Nat) :=
  let siblings := f.runtimeSiblings i
  match siblings.idxOf? i with
  | some k => .ok (siblings, k)
  | none => .error ⟨f.label i⟩

/-- The runtime siblings after a node. -/
def following (f : Forest) (i : NodeId) : Linked (List NodeId) :=
  (f.siblingPosition i).map fun (siblings, k) => siblings.drop (k + 1)

/-- The runtime siblings in front of a node, the nearest first. -/
def preceding (f : Forest) (i : NodeId) : Linked (List NodeId) :=
  (f.siblingPosition i).map fun (siblings, k) => (siblings.take k).reverse

end Forest

end NestedStyles
