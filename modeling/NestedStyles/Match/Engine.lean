import NestedStyles.Config
import NestedStyles.Match.Structural
import NestedStyles.Selector.Basic
import NestedStyles.Text.Blank
import NestedStyles.Text.Lines

/-!
# Matching chains against a template

A chain can be followed in two directions. `Chain.select` goes forward from some elements and
narrows the working set with each compound. `Chain.endsAt` takes the last element and looks for the
others among its ancestors and the siblings in front of it. What only a browser can decide is taken
to hold.
-/

namespace NestedStyles

/-- What matching depends on besides the element. -/
structure Scene where
  forest : Forest
  config : Config
  /-- The elements that `&` stands for. -/
  nesting : List NodeId

/-- The value of an attribute compares with `expected` in this way. -/
def Comparison.holds (comparison : Comparison) (actual expected : String) : Bool :=
  let a := actual.toList
  let e := expected.toList
  match comparison with
  | equals => a == e
  | hasWord => e ∈ Text.words a
  | hasSubtag => a == e || (e ++ ['-']).isPrefixOf a
  | startsWith => !e.isEmpty && e.isPrefixOf a
  | endsWith => !e.isEmpty && e.isSuffixOf a
  | contains => !e.isEmpty && Text.occursIn e a

/-- The attribute is present and its value passes the test, if there is one. -/
def Label.hasAttribute (l : Label) (name : String) (test : Option (Comparison × String)) : Bool :=
  match l.attributes.lookup name, test with
  | none, _ => false
  | some _, none => true
  | some none, some _ => false
  | some (some actual), some (comparison, expected) => comparison.holds actual expected

/-- The element has a pseudo-class that is neither a list of chains nor counts siblings. One that
the browser decides, or that is not known, is taken to hold. -/
def Scene.hasPseudo (s : Scene) (i : NodeId) (name : String) (argument : Option String) :
    Linked Bool :=
  if name ∈ s.config.runtimePseudoClasses then .ok true
  else
    match StructuralPseudo.ofName? name, argument with
    | some p, none => s.forest.isStructural i p
    | _, _ => .ok true

/-- The elements a combinator leads to. -/
def Forest.after (f : Forest) (i : NodeId) : Combinator → Linked (List NodeId)
  | .descendant => .ok ((f.children i).flatMap f.subtree)
  | .child => .ok (f.children i)
  | .adjacent => (f.following i).map (·.take 1)
  | .sibling => f.following i

/-- The elements a combinator leads from, the nearest first. -/
def Forest.before (f : Forest) (i : NodeId) : Combinator → Linked (List NodeId)
  | .descendant => .ok (f.ancestors i)
  | .child => .ok (f.parent i).toList
  | .adjacent => (f.preceding i).map (·.take 1)
  | .sibling => f.preceding i

/-- The elements of each of the groups that pass the test, without repetition. -/
def gather (groups : List (Linked (List NodeId))) (test : NodeId → Linked Bool) :
    Linked (List NodeId) := do
  let found ← groups.mapM fun group => do (← group).filterM test
  return found.flatten.eraseDups

mutual

/-- The element meets the condition. -/
def Simple.holds (s : Scene) (i : NodeId) : Simple → Linked Bool
  | .type name => .ok ((s.forest.label i).tag == name)
  | .class name => .ok (name ∈ (s.forest.label i).classes)
  | .id name => .ok ((s.forest.label i).id == some name)
  | .attribute name test => .ok ((s.forest.label i).hasAttribute name test)
  | .pseudo name argument => s.hasPseudo i name argument
  | .nth pseudo _ coefficients => s.forest.isNth i pseudo coefficients
  | .has alternatives => anySelects s i alternatives
  | .among alternatives => anyEndsAt s i alternatives
  | .except alternatives => do return !(← anyEndsAt s i alternatives)
  | .nesting => .ok (i ∈ s.nesting)
  | .any => .ok true
termination_by structural x => x

/-- The element meets all conditions of a compound. -/
def Compound.holds (s : Scene) (i : NodeId) : List Simple → Linked Bool
  | [] => .ok true
  | x :: xs => do if ← Simple.holds s i x then Compound.holds s i xs else return false
termination_by structural x => x

/-- The element is the last of the chain. -/
def Chain.endsAt (s : Scene) (i : NodeId) : Chain → Linked Bool
  | .start _ compound => Compound.holds s i compound
  | .step previous combinator compound => do
    if ← Compound.holds s i compound then
      (← s.forest.before i combinator).anyM fun j => Chain.endsAt s j previous
    else return false
termination_by structural x => x

/-- The elements to which the chain leads from the elements in `starts`. -/
def Chain.select (s : Scene) (starts : List NodeId) : Chain → Linked (List NodeId)
  | .start leading compound =>
    gather (starts.map fun i => s.forest.after i leading) fun j => Compound.holds s j compound
  | .step previous combinator compound => do
    let reached ← Chain.select s starts previous
    gather (reached.map fun i => s.forest.after i combinator) fun j => Compound.holds s j compound
termination_by structural x => x

/-- The element is the last of one of the chains. -/
def anyEndsAt (s : Scene) (i : NodeId) : List Chain → Linked Bool
  | [] => .ok false
  | c :: cs => do if ← Chain.endsAt s i c then return true else anyEndsAt s i cs
termination_by structural x => x

/-- One of the chains leads from the element to some element. -/
def anySelects (s : Scene) (i : NodeId) : List Chain → Linked Bool
  | [] => .ok false
  | c :: cs => do
    if (← Chain.select s [i] c).isEmpty then anySelects s i cs else return true
termination_by structural x => x

end

/-! ## Branches -/

/-- Where a selector is applied. -/
structure Scope where
  /-- The elements to look at: the roots, or the children of an element of the enclosing rule. -/
  elements : List NodeId
  /-- The elements of the enclosing rule, if there is one. -/
  parents : Option (List NodeId)
  deriving DecidableEq, Repr

namespace Scope

/-- The elements that `&` stands for: without an enclosing rule, the elements to look at. -/
def anchors (scope : Scope) : List NodeId :=
  scope.parents.getD scope.elements

/-- The groups of elements among which the first element of a chain is looked for. -/
def starts (scope : Scope) (f : Forest) (anchored : Bool) (leading : Combinator) :
    List (Linked (List NodeId)) :=
  if anchored then [.ok scope.anchors]
  else
    match leading with
    | .child => [.ok scope.elements]
    | .descendant => scope.elements.map fun i => .ok (f.subtree i)
    | combinator => (scope.parents.getD []).map fun i => f.after i combinator

end Scope

/-- The elements to which a chain leads in a scope. -/
def Chain.selectIn (s : Scene) (scope : Scope) (anchored : Bool) : Chain → Linked (List NodeId)
  | .start leading compound =>
    gather (scope.starts s.forest anchored leading) fun j => Compound.holds s j compound
  | .step previous combinator compound => do
    let reached ← previous.selectIn s scope anchored
    gather (reached.map fun i => s.forest.after i combinator) fun j => Compound.holds s j compound

/-- The condition is that the element is one `&` stands for. -/
def Simple.isNesting : Simple → Bool
  | .nesting => true
  | _ => false

/-- The elements at which a chain with `&` inside can end: if `&` is in the last compound, the
elements it stands for, else all elements of their trees. -/
def Chain.candidates (s : Scene) (scope : Scope) (c : Chain) : List NodeId :=
  if c.subject.any Simple.isNesting then scope.anchors
  else ((scope.anchors.map s.forest.rootOf).eraseDups).flatMap s.forest.subtree

/-- The elements a branch selects. -/
def Branch.select (s : Scene) (scope : Scope) (b : Branch) : Linked (List NodeId) :=
  match b.anchoring with
  | .contextual => (b.chain.candidates s scope).filterM fun i => b.chain.endsAt s i
  | .anchored => b.chain.selectIn s scope true
  | .free => b.chain.selectIn s scope false

/-- The elements the branches of a selector select, in the order of the branches, each once. -/
def Selector.select (forest : Forest) (config : Config) (scope : Scope) (selector : Selector) :
    Linked (List NodeId) := do
  let found ← selector.branches.mapM fun b => b.select ⟨forest, config, scope.anchors⟩ scope
  return found.flatten.eraseDups

end NestedStyles
