import NestedStyles.Template.Forest

/-!
# Changing a forest

Nodes can be added, moved and relabelled one at a time. Taking a child out of its parent's list
leaves the child's own link as it is.
-/

namespace NestedStyles.Forest

/-- Changes the node at `i`. -/
def update (f : Forest) (i : NodeId) (change : Node → Node) : Forest :=
  ⟨f.nodes.modify i change⟩

/-- Makes `parent` the parent of each of the nodes. -/
def adopt (f : Forest) (parent : NodeId) (nodes : List NodeId) : Forest :=
  nodes.foldl (fun g i => g.update i fun n => { n with parent := some parent }) f

/-- Adds a root with these children. Its place is the number of nodes there were. -/
def add (f : Forest) (label : Label) (children : List NodeId) : Forest :=
  (⟨f.nodes ++ [⟨label, children, none⟩]⟩ : Forest).adopt f.nodes.length children

/-- Makes a node the last child of another. -/
def appendChild (f : Forest) (parent child : NodeId) : Forest :=
  (f.adopt parent [child]).update parent fun n => { n with children := n.children ++ [child] }

/-- Takes the child at `index` out of the children of a node. -/
def detachChild (f : Forest) (parent : NodeId) (index : Nat) : Forest :=
  f.update parent fun n => { n with children := n.children.eraseIdx index }

/-- Changes what a node says about itself. -/
def relabel (f : Forest) (i : NodeId) (change : Label → Label) : Forest :=
  f.update i fun n => { n with label := change n.label }

end NestedStyles.Forest
