import NestedStyles.Match.Siblings

/-!
# Structural pseudo-classes

Pseudo-classes that count a node's runtime siblings, or those of them with its tag.
-/

namespace NestedStyles

/-- The position is `a * n + b` for a natural number `n`. -/
def inProgression (a b position : Int) : Bool :=
  if a == 0 then position == b
  else Int.fmod (position - b) a == 0 && decide (0 ≤ Int.fdiv (position - b) a)

/-- The pseudo-classes with an argument `an+b`. -/
structure NthPseudo where
  /-- Only siblings with the node's tag count. -/
  ofType : Bool
  /-- The last sibling has position 1. -/
  fromEnd : Bool
  deriving DecidableEq, Repr

namespace NthPseudo

/-- The pseudo-class with this name. -/
def ofName? : String → Option NthPseudo
  | "nth-child" => some ⟨false, false⟩
  | "nth-last-child" => some ⟨false, true⟩
  | "nth-of-type" => some ⟨true, false⟩
  | "nth-last-of-type" => some ⟨true, true⟩
  | _ => none

/-- The name of the pseudo-class. -/
def name : NthPseudo → String
  | ⟨false, false⟩ => "nth-child"
  | ⟨false, true⟩ => "nth-last-child"
  | ⟨true, false⟩ => "nth-of-type"
  | ⟨true, true⟩ => "nth-last-of-type"

@[simp] theorem ofName?_name (p : NthPseudo) : ofName? p.name = some p := by
  obtain ⟨_ | _, _ | _⟩ := p <;> rfl

end NthPseudo

/-- The pseudo-classes without an argument that the template decides. -/
inductive StructuralPseudo
  | firstChild | lastChild | onlyChild | firstOfType | lastOfType | onlyOfType | empty | root
  deriving DecidableEq, Repr

/-- The pseudo-class with this name. -/
def StructuralPseudo.ofName? : String → Option StructuralPseudo
  | "first-child" => some .firstChild
  | "last-child" => some .lastChild
  | "only-child" => some .onlyChild
  | "first-of-type" => some .firstOfType
  | "last-of-type" => some .lastOfType
  | "only-of-type" => some .onlyOfType
  | "empty" => some .empty
  | "root" => some .root
  | _ => none

namespace Forest

/-- The siblings with the tag of the node. -/
def ofSameTag (f : Forest) (i : NodeId) (siblings : List NodeId) : List NodeId :=
  siblings.filter fun j => (f.label j).tag == (f.label i).tag

/-- The position of a node in a list that holds it, counted from 1. -/
def positionIn (i : NodeId) (fromEnd : Bool) (pool : List NodeId) : Nat :=
  match pool.idxOf? i with
  | some k => if fromEnd then pool.length - k else k + 1
  | none => 0

/-- The node has a structural pseudo-class. -/
def isStructural (f : Forest) (i : NodeId) : StructuralPseudo → Linked Bool
  | .root => .ok (f.parent i).isNone
  | .empty => .ok (f.children i).isEmpty
  | .firstChild => (f.siblingPosition i).map fun (_, k) => k == 0
  | .lastChild => (f.siblingPosition i).map fun (siblings, k) => k + 1 == siblings.length
  | .onlyChild => (f.siblingPosition i).map fun (siblings, _) => siblings.length == 1
  | .firstOfType =>
    (f.siblingPosition i).map fun (siblings, _) => (f.ofSameTag i siblings).head? == some i
  | .lastOfType =>
    (f.siblingPosition i).map fun (siblings, _) => (f.ofSameTag i siblings).getLast? == some i
  | .onlyOfType =>
    (f.siblingPosition i).map fun (siblings, _) => (f.ofSameTag i siblings).length == 1

/-- The node has the structural pseudo-class of this name. A name that belongs to none is taken to
hold of every node whose links agree. -/
def matchesStructural (f : Forest) (i : NodeId) (name : String) : Linked Bool :=
  match StructuralPseudo.ofName? name with
  | some p => f.isStructural i p
  | none => (f.siblingPosition i).map fun _ => true

/-- The node's position among its siblings is `a * n + b` for a natural number `n`. An argument
that could not be read admits every position. -/
def isNth (f : Forest) (i : NodeId) (p : NthPseudo) : Option (Int × Int) → Linked Bool
  | none => .ok true
  | some (a, b) =>
    (f.siblingPosition i).map fun (siblings, _) =>
      inProgression a b
        (positionIn i p.fromEnd (if p.ofType then f.ofSameTag i siblings else siblings))

end Forest

end NestedStyles
