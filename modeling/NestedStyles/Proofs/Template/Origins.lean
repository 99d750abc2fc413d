import NestedStyles.Proofs.Template.Numbering
import NestedStyles.Template.Element

/-!
# Where the nodes of a template come from

A piece of markup has an address: its index in the list it stands in, behind those of the elements
around it. The elements that are kept are, in document order, the nodes of the template
(`origins`), and what a node is labelled with and which node is its parent can be told from its
address (`label_origin`, `parent_origin`).
-/

namespace NestedStyles

namespace Element

/-! ## Addresses -/

/-- The place of a piece of markup: an index in each list on the way to it. -/
abbrev Address := List Nat

/-- The attributes of a piece of markup. -/
def attributes : Element → List (String × String)
  | remark => []
  | element _ attributes _ => attributes

/-- The markup inside of a piece of markup. -/
def content : Element → List Element
  | remark => []
  | element _ _ children => children

/-- An element that only wraps its content. -/
def isTransparent : Element → Bool
  | remark => false
  | element tag _ _ => tag ∈ transparentTags

/-- The markup inside of the `k`-th element of a list. -/
def contentAt (es : List Element) (k : Nat) : List Element :=
  (es[k]?.map content).getD []

/-- The list that the elements with addresses `r ++ [k]` stand in. -/
def inside : List Element → Address → List Element
  | es, [] => es
  | es, k :: r => inside (contentAt es k) r

/-- The piece of markup at an address. -/
def elementAt : List Element → Address → Option Element
  | _, [] => none
  | es, [k] => es[k]?
  | es, k :: l :: q => elementAt (contentAt es k) (l :: q)

/-- On the way to an address there are only elements that wrap their content. -/
def wraps : List Element → Address → Bool
  | es, k :: l :: q => es[k]?.any isTransparent && wraps (contentAt es k) (l :: q)
  | _, _ => true

/-- The address behind one more element of the list. -/
def later : Address → Address
  | [] => []
  | k :: q => (k + 1) :: q

mutual

/-- The addresses, from a piece of markup on, of the elements in it that are kept. -/
def originsOf : Element → List Address
  | remark => []
  | element tag attributes children =>
    if tag == slotTag then []
    else if tag ∈ transparentTags then origins children
    else if hasAttribute attributes "v-html" then [[]]
    else [] :: origins children

/-- The addresses of the elements that are kept, in document order. -/
def origins : List Element → List Address
  | [] => []
  | e :: es => (originsOf e).map (0 :: ·) ++ (origins es).map later

end

variable {es : List Element} {e : Element} {k l : Nat} {q : Address} {before : Option Conditional}
  {next : Nat}

section

variable {tag : String} {attributes : List (String × String)} {children : List Element}

theorem build_slot (slot : (tag == slotTag) = true) :
    build before next (element tag attributes children) = ⟨[], before, next⟩ := by
  rw [build, if_pos slot]

theorem build_wrapper (visible : (tag == slotTag) = false) (wrapper : tag ∈ transparentTags) :
    build before next (element tag attributes children) =
      let own := chainTag attributes before next
      let inner := buildAll none own.2 children
      ⟨inner.trees.map (inBranch own.1), own.1, inner.next⟩ := by
  rw [build, visible, if_neg Bool.false_ne_true]
  exact if_pos wrapper

theorem build_closed (visible : (tag == slotTag) = false) (kept : tag ∉ transparentTags)
    (closed : hasAttribute attributes "v-html" = true) :
    build before next (element tag attributes children) =
      let own := chainTag attributes before next
      ⟨[.node (toLabel tag attributes own.1) []], own.1, own.2⟩ := by
  rw [build, visible, if_neg Bool.false_ne_true]
  exact (if_neg kept).trans (if_pos closed)

theorem build_kept (visible : (tag == slotTag) = false) (kept : tag ∉ transparentTags)
    (open' : hasAttribute attributes "v-html" = false) :
    build before next (element tag attributes children) =
      let own := chainTag attributes before next
      let inner := buildAll none own.2 children
      ⟨[.node (toLabel tag attributes own.1) inner.trees], own.1, inner.next⟩ := by
  rw [build, visible, if_neg Bool.false_ne_true]
  exact (if_neg kept).trans (if_neg (by simp [open']))

/-- The tag of an element is that of the element before to the next one. -/
theorem tag_build (visible : (tag == slotTag) = false) :
    (build before next (element tag attributes children)).tag =
      (chainTag attributes before next).1 := by
  by_cases wrapper : tag ∈ transparentTags
  · rw [build_wrapper visible wrapper]
  cases closed : hasAttribute attributes "v-html" with
  | true => rw [build_closed visible wrapper closed]
  | false => rw [build_kept visible wrapper closed]

theorem originsOf_slot (slot : (tag == slotTag) = true) :
    originsOf (element tag attributes children) = [] := by
  rw [originsOf, if_pos slot]

theorem originsOf_wrapper (visible : (tag == slotTag) = false) (wrapper : tag ∈ transparentTags) :
    originsOf (element tag attributes children) = origins children := by
  rw [originsOf, visible, if_neg Bool.false_ne_true, if_pos wrapper]

theorem originsOf_closed (visible : (tag == slotTag) = false) (kept : tag ∉ transparentTags)
    (closed : hasAttribute attributes "v-html" = true) :
    originsOf (element tag attributes children) = [[]] := by
  rw [originsOf, visible, if_neg Bool.false_ne_true, if_neg kept, if_pos closed]

theorem originsOf_kept (visible : (tag == slotTag) = false) (kept : tag ∉ transparentTags)
    (open' : hasAttribute attributes "v-html" = false) :
    originsOf (element tag attributes children) = [] :: origins children := by
  rw [originsOf, visible, if_neg Bool.false_ne_true, if_neg kept, open',
    if_neg Bool.false_ne_true]

end

theorem append_cons_ne_nil (r : Address) (k : Nat) (q : Address) : r ++ k :: q ≠ [] :=
  List.append_ne_nil_of_right_ne_nil r (List.cons_ne_nil k q)

theorem elementAt_cons (nonempty : q ≠ []) :
    elementAt es (k :: q) = elementAt (contentAt es k) q := by
  obtain ⟨l, q, rfl⟩ := List.exists_cons_of_ne_nil nonempty
  rfl

theorem contentAt_of_getElem? (here : es[k]? = some e) : contentAt es k = e.content := by
  rw [contentAt, here, Option.map_some, Option.getD_some]

theorem elementAt_append (es : List Element) (r : Address) (k : Nat) :
    elementAt es (r ++ [k]) = (inside es r)[k]? := by
  induction r generalizing es with
  | nil => rfl
  | cons m r ih => rw [List.cons_append, elementAt_cons (append_cons_ne_nil r k []), inside, ih]

theorem origins_ne_nil {p : Address} (h : p ∈ origins es) : p ≠ [] := by
  induction es generalizing p with
  | nil => simp [origins] at h
  | cons e es ih =>
    rw [origins, List.mem_append, List.mem_map, List.mem_map] at h
    obtain ⟨q, -, rfl⟩ | ⟨q, mem, rfl⟩ := h
    · exact List.cons_ne_nil 0 q
    · cases q with
      | nil => exact absurd rfl (ih mem)
      | cons k q => exact List.cons_ne_nil (k + 1) q

/-! ## Chain tags and labels by address -/

/-- The number of the next chain where the content of the `k`-th element starts. -/
def nextInside (before : Option Conditional) (next : Nat) (es : List Element) (k : Nat) : Nat :=
  let front := buildAll before next (es.take k)
  (chainTag ((es[k]?.map attributes).getD []) front.tag front.next).2

/-- The tag of the node that comes from an address: that of the last chain on the way to it, from
the element on that only wrappers stand between it and the node. -/
def tagAt (before : Option Conditional) (next : Nat) : List Element → Address → Option Conditional
  | _, [] => none
  | es, [k] => (buildAll before next (es.take (k + 1))).tag
  | es, k :: l :: q =>
    let inner := tagAt none (nextInside before next es k) (contentAt es k) (l :: q)
    if wraps es (k :: l :: q) then inner.or (buildAll before next (es.take (k + 1))).tag else inner

/-- The label of the node that comes from an address. -/
def labelAt (before : Option Conditional) (next : Nat) (es : List Element) (p : Address) : Label :=
  match elementAt es p with
  | some (element tag attributes _) => toLabel tag attributes (tagAt before next es p)
  | _ => { Label.blank with conditional := tagAt before next es p }

@[simp] theorem conditional_labelAt (es : List Element) (p : Address) :
    (labelAt before next es p).conditional = tagAt before next es p := by
  unfold labelAt
  split
  · rfl
  · rfl

theorem elementAt_head (e : Element) (es : List Element) (q : Address) :
    elementAt (e :: es) (0 :: q) = elementAt [e] (0 :: q) := by
  cases q <;> rfl

theorem wraps_head (e : Element) (es : List Element) (q : Address) :
    wraps (e :: es) (0 :: q) = wraps [e] (0 :: q) := by
  cases q <;> rfl

theorem tagAt_head (e : Element) (es : List Element) (q : Address) :
    tagAt before next (e :: es) (0 :: q) = tagAt before next [e] (0 :: q) := by
  cases q <;> rfl

theorem labelAt_head (e : Element) (es : List Element) (q : Address) :
    labelAt before next (e :: es) (0 :: q) = labelAt before next [e] (0 :: q) := by
  rw [labelAt, labelAt, elementAt_head, tagAt_head]

theorem elementAt_later (e : Element) (es : List Element) (p : Address) :
    elementAt (e :: es) (later p) = elementAt es p := by
  match p with
  | [] | [_] | _ :: _ :: _ => rfl

theorem wraps_later (e : Element) (es : List Element) (p : Address) :
    wraps (e :: es) (later p) = wraps es p := by
  match p with
  | [] | [_] | _ :: _ :: _ => rfl

theorem tagAt_later (e : Element) (es : List Element) (p : Address) :
    tagAt before next (e :: es) (later p) =
      tagAt (build before next e).tag (build before next e).next es p := by
  match p with
  | [] | [_] | _ :: _ :: _ => rfl

theorem labelAt_later (e : Element) (es : List Element) (p : Address) :
    labelAt before next (e :: es) (later p) =
      labelAt (build before next e).tag (build before next e).next es p := by
  rw [labelAt, labelAt, elementAt_later, tagAt_later]

end Element

/-! ## Labels -/

namespace Tree

mutual

/-- The labels of a tree in document order, and whether the node is the topmost one. -/
def marks : Tree → List (Bool × Label)
  | node label children => (true, label) :: (marksAll children).map fun m => (false, m.2)

/-- The labels of trees in document order, and whether the node is topmost in its tree. -/
def marksAll : List Tree → List (Bool × Label)
  | [] => []
  | t :: ts => marks t ++ marksAll ts

end

theorem marksAll_append (ts us : List Tree) : marksAll (ts ++ us) = marksAll ts ++ marksAll us := by
  induction ts with
  | nil => rfl
  | cons t ts ih => rw [List.cons_append, marksAll, marksAll, ih, List.append_assoc]

mutual

theorem labels_nodesFrom (parent : Option NodeId) (next : NodeId) (t : Tree) :
    (nodesFrom parent next t).map Node.label = (marks t).map Prod.snd := by
  cases t with
  | node label children =>
    have below := labels_nodesFromAll (some next) (next + 1) children
    rw [nodesFrom, marks, List.map_cons, List.map_cons, below, List.map_map]
    rfl

theorem labels_nodesFromAll (parent : Option NodeId) (next : NodeId) (ts : List Tree) :
    (nodesFromAll parent next ts).map Node.label = (marksAll ts).map Prod.snd := by
  cases ts with
  | nil => rfl
  | cons t ts =>
    rw [nodesFromAll, marksAll, List.map_append, List.map_append, labels_nodesFrom _ _ t,
      labels_nodesFromAll _ _ ts]

end

end Tree

namespace Element

open NestedStyles.Tree

/-- What the branch of a wrapper does to the label of a node. -/
def inBranchMark (conditional : Option Conditional) (m : Bool × Label) : Bool × Label :=
  if m.1 then (true, { m.2 with conditional := m.2.conditional.or conditional }) else m

theorem marksAll_inBranch (conditional : Option Conditional) (ts : List Tree) :
    marksAll (ts.map (inBranch conditional)) =
      (marksAll ts).map (inBranchMark conditional) := by
  induction ts with
  | nil => rfl
  | cons t ts ih =>
    obtain ⟨label, children⟩ := t
    have below : ((marksAll children).map fun m => (false, m.2)).map (inBranchMark conditional) =
        (marksAll children).map fun m => (false, m.2) := by
      rw [List.map_map]
      rfl
    rw [List.map_cons, marksAll, marksAll, ih, List.map_append, inBranch, marks, marks,
      List.map_cons, below]
    rfl

/-- What can be told of a node from its address. -/
def markAt (before : Option Conditional) (next : Nat) (es : List Element) (p : Address) :
    Bool × Label :=
  (wraps es p, labelAt before next es p)

section

variable {tag : String} {attributes : List (String × String)} {children : List Element}
  (visible : (tag == slotTag) = false)
include visible

theorem markAt_self : markAt before next [element tag attributes children] [0] =
    (true, toLabel tag attributes (chainTag attributes before next).1) := by
  rw [← tag_build visible]
  rfl

theorem markAt_wrapper (wrapper : tag ∈ transparentTags) (q : Address) (nonempty : q ≠ []) :
    markAt before next [element tag attributes children] (0 :: q) =
      inBranchMark (chainTag attributes before next).1
        (markAt none (chainTag attributes before next).2 children q) := by
  obtain ⟨k, q, rfl⟩ := List.exists_cons_of_ne_nil nonempty
  have same : wraps [element tag attributes children] (0 :: k :: q) = wraps children (k :: q) := by
    simp [wraps, isTransparent, wrapper, contentAt, content]
  have own : (build before next (element tag attributes children)).tag =
      (chainTag attributes before next).1 := tag_build visible
  have place : elementAt [element tag attributes children] (0 :: k :: q) =
      elementAt children (k :: q) := rfl
  have inner : tagAt before next [element tag attributes children] (0 :: k :: q) =
      if wraps children (k :: q) then
        (tagAt none (chainTag attributes before next).2 children (k :: q)).or
          (chainTag attributes before next).1
      else tagAt none (chainTag attributes before next).2 children (k :: q) := by
    rw [tagAt, same, ← own]
    rfl
  rw [markAt, markAt, inBranchMark, labelAt, labelAt, place, inner, same]
  cases wraps children (k :: q) with
  | false => rfl
  | true => cases elementAt children (k :: q) with
    | none => rfl
    | some e => cases e <;> rfl

omit visible in
theorem markAt_kept (kept : tag ∉ transparentTags) (q : Address) (nonempty : q ≠ []) :
    markAt before next [element tag attributes children] (0 :: q) =
      (false, (markAt none (chainTag attributes before next).2 children q).2) := by
  obtain ⟨k, q, rfl⟩ := List.exists_cons_of_ne_nil nonempty
  have apart : wraps [element tag attributes children] (0 :: k :: q) = false := by
    simp [wraps, isTransparent, kept]
  have inner : tagAt before next [element tag attributes children] (0 :: k :: q) =
      tagAt none (chainTag attributes before next).2 children (k :: q) := by
    rw [tagAt, apart]
    rfl
  rw [markAt, markAt, labelAt, labelAt, apart, inner]
  rfl

end

mutual

theorem marks_build (before : Option Conditional) (next : Nat) (e : Element) :
    marksAll (build before next e).trees =
      (originsOf e).map fun q => markAt before next [e] (0 :: q) := by
  cases e with
  | remark => rfl
  | element tag attributes children =>
    have inner := marks_buildAll none (chainTag attributes before next).2 children
    cases visible : tag == slotTag with
    | true =>
      rw [build_slot visible, originsOf_slot visible]
      rfl
    | false =>
    by_cases wrapper : tag ∈ transparentTags
    · rw [build_wrapper visible wrapper, originsOf_wrapper visible wrapper, marksAll_inBranch,
        inner, List.map_map]
      apply List.map_congr_left
      intro q mem
      exact (markAt_wrapper visible wrapper q (origins_ne_nil mem)).symm
    cases closed : hasAttribute attributes "v-html" with
    | true =>
      rw [build_closed visible wrapper closed, originsOf_closed visible wrapper closed,
        List.map_singleton, markAt_self visible]
      rfl
    | false =>
      rw [build_kept visible wrapper closed, originsOf_kept visible wrapper closed, List.map_cons,
        markAt_self visible, marksAll, marks, inner, List.map_map, marksAll, List.append_nil]
      congr 1
      apply List.map_congr_left
      intro q mem
      exact (markAt_kept wrapper q (origins_ne_nil mem)).symm

theorem marks_buildAll (before : Option Conditional) (next : Nat) (es : List Element) :
    marksAll (buildAll before next es).trees = (origins es).map (markAt before next es) := by
  cases es with
  | nil => rfl
  | cons e es =>
    rw [buildAll, origins, marksAll_append, marks_build _ _ e, marks_buildAll _ _ es,
      List.map_append, List.map_map, List.map_map]
    congr 1
    · apply List.map_congr_left
      intro q _
      simp only [Function.comp_apply, markAt, wraps_head e es, labelAt_head e es]
    · apply List.map_congr_left
      intro p _
      simp only [Function.comp_apply, markAt, wraps_later, labelAt_later]

end

/-! ## Parents -/

theorem sizeAll_trees (before : Option Conditional) (next : Nat) (es : List Element) :
    sizeAll (buildAll before next es).trees = (origins es).length := by
  have labels := congrArg List.length (labels_nodesFromAll none 0 (buildAll before next es).trees)
  rw [List.length_map, List.length_map, length_nodesFromAll, marks_buildAll, List.length_map]
    at labels
  exact labels

theorem sizeAll_build (before : Option Conditional) (next : Nat) (e : Element) :
    sizeAll (build before next e).trees = (originsOf e).length := by
  have single := sizeAll_trees before next [e]
  rw [buildAll, buildAll, origins, origins] at single
  simpa using single

theorem nodesFromAll_append (parent : Option NodeId) (id : NodeId) (ts us : List Tree) :
    nodesFromAll parent id (ts ++ us) =
      nodesFromAll parent id ts ++ nodesFromAll parent (id + sizeAll ts) us := by
  induction ts generalizing id with
  | nil => rfl
  | cons t ts ih =>
    rw [List.cons_append, nodesFromAll, nodesFromAll, ih, sizeAll, List.append_assoc, Nat.add_assoc]

theorem parents_inBranch (conditional : Option Conditional) (parent : Option NodeId) (id : NodeId)
    (ts : List Tree) :
    (nodesFromAll parent id (ts.map (inBranch conditional))).map Node.parent =
      (nodesFromAll parent id ts).map Node.parent := by
  induction ts generalizing id with
  | nil => rfl
  | cons t ts ih =>
    obtain ⟨label, children⟩ := t
    rw [List.map_cons, nodesFromAll, nodesFromAll, List.map_append, List.map_append, inBranch, ih]
    rfl

/-- The parent of the node that comes from an address, where the nodes of the list are numbered from
`id` on. -/
def parentAt (parent : Option NodeId) (id : NodeId) : List Element → Address → Option NodeId
  | es, k :: l :: q =>
    let here := id + (origins (es.take k)).length
    if es[k]?.any isTransparent then parentAt parent here (contentAt es k) (l :: q)
    else parentAt (some here) (here + 1) (contentAt es k) (l :: q)
  | _, _ => parent

theorem parentAt_head (parent : Option NodeId) (id : NodeId) (e : Element) (es : List Element)
    (q : Address) : parentAt parent id (e :: es) (0 :: q) = parentAt parent id [e] (0 :: q) := by
  cases q <;> rfl

theorem parentAt_later (parent : Option NodeId) (id : NodeId) (e : Element) (es : List Element)
    (p : Address) : parentAt parent id (e :: es) (later p) =
      parentAt parent (id + (originsOf e).length) es p := by
  match p with
  | [] | [_] => rfl
  | k :: l :: q =>
    have here : id + (origins ((e :: es).take (k + 1))).length =
        id + (originsOf e).length + (origins (es.take k)).length := by
      rw [List.take_succ_cons, origins, List.length_append, List.length_map, List.length_map,
        Nat.add_assoc]
    rw [later, parentAt, parentAt, here]
    rfl

section

variable {tag : String} {attributes : List (String × String)} {children : List Element}
  {parent : Option NodeId} {id : NodeId}

theorem parentAt_cons (nonempty : q ≠ []) : parentAt parent id es (k :: q) =
    let here := id + (origins (es.take k)).length
    if es[k]?.any isTransparent then parentAt parent here (contentAt es k) q
    else parentAt (some here) (here + 1) (contentAt es k) q := by
  obtain ⟨l, q, rfl⟩ := List.exists_cons_of_ne_nil nonempty
  rfl

theorem parentAt_wrapper (wrapper : tag ∈ transparentTags) (q : Address) (nonempty : q ≠ []) :
    parentAt parent id [element tag attributes children] (0 :: q) =
      parentAt parent id children q := by
  rw [parentAt_cons nonempty]
  exact if_pos (by simp [isTransparent, wrapper])

theorem parentAt_kept (kept : tag ∉ transparentTags) (q : Address) (nonempty : q ≠ []) :
    parentAt parent id [element tag attributes children] (0 :: q) =
      parentAt (some id) (id + 1) children q := by
  rw [parentAt_cons nonempty]
  exact if_neg (by simp [isTransparent, kept])

end

mutual

theorem parents_build (before : Option Conditional) (next : Nat) (parent : Option NodeId)
    (id : NodeId) (e : Element) :
    (nodesFromAll parent id (build before next e).trees).map Node.parent =
      (originsOf e).map fun q => parentAt parent id [e] (0 :: q) := by
  cases e with
  | remark => rfl
  | element tag attributes children =>
    have inner := fun parent id =>
      parents_buildAll none (chainTag attributes before next).2 parent id children
    cases visible : tag == slotTag with
    | true =>
      rw [build_slot visible, originsOf_slot visible]
      rfl
    | false =>
    by_cases wrapper : tag ∈ transparentTags
    · rw [build_wrapper visible wrapper, originsOf_wrapper visible wrapper, parents_inBranch,
        inner parent id]
      apply List.map_congr_left
      intro q mem
      exact (parentAt_wrapper wrapper q (origins_ne_nil mem)).symm
    cases closed : hasAttribute attributes "v-html" with
    | true =>
      rw [build_closed visible wrapper closed, originsOf_closed visible wrapper closed]
      rfl
    | false =>
      rw [build_kept visible wrapper closed, originsOf_kept visible wrapper closed, nodesFromAll,
        nodesFrom, nodesFromAll, List.append_nil, List.map_cons, List.map_cons,
        inner (some id) (id + 1)]
      congr 1
      apply List.map_congr_left
      intro q mem
      exact (parentAt_kept wrapper q (origins_ne_nil mem)).symm

theorem parents_buildAll (before : Option Conditional) (next : Nat) (parent : Option NodeId)
    (id : NodeId) (es : List Element) :
    (nodesFromAll parent id (buildAll before next es).trees).map Node.parent =
      (origins es).map (parentAt parent id es) := by
  cases es with
  | nil => rfl
  | cons e es =>
    rw [buildAll, origins, nodesFromAll_append, List.map_append, parents_build _ _ _ _ e,
      sizeAll_build, parents_buildAll _ _ _ _ es, List.map_append, List.map_map, List.map_map]
    congr 1
    · apply List.map_congr_left
      intro q _
      exact (parentAt_head parent id e es q).symm
    · apply List.map_congr_left
      intro p _
      exact (parentAt_later parent id e es p).symm

end

/-! ## Nodes and their origins -/

variable {i : NodeId} {p : Address}

/-- The nodes are the elements that are kept, in document order. -/
theorem has_iff_origin (es : List Element) (i : NodeId) :
    (Template.ofElements es).forest.Has i ↔ ∃ p, (origins es)[i]? = some p := by
  have total : (Template.ofElements es).forest.nodes.length = (origins es).length := by
    rw [Template.ofElements, Template.ofTrees, length_nodesFromAll, toTrees, sizeAll_trees]
  rw [Forest.Has, total]
  constructor
  · intro lt
    exact ⟨_, List.getElem?_eq_getElem lt⟩
  · rintro ⟨p, found⟩
    exact (List.getElem?_eq_some_iff.1 found).1

theorem node_of_origin (h : (origins es)[i]? = some p) :
    ∃ n, (Template.ofElements es).forest.node i = n ∧ n.label = labelAt none 0 es p ∧
      n.parent = parentAt none 0 es p := by
  have labels := congrArg (·[i]?) (labels_nodesFromAll none 0 (buildAll none 0 es).trees)
  have parents := congrArg (·[i]?) (parents_buildAll none 0 none 0 es)
  simp only [marks_buildAll, List.map_map, List.getElem?_map, h, Option.map_some] at labels parents
  obtain ⟨n, here, label⟩ := Option.map_eq_some_iff.1 labels
  obtain ⟨n', here', parent⟩ := Option.map_eq_some_iff.1 parents
  obtain rfl : n = n' := Option.some.inj (here.symm.trans here')
  refine ⟨n, ?_, label, parent⟩
  rw [Forest.node, List.getD_eq_getElem?_getD, Template.ofElements, Template.ofTrees, toTrees, here]
  rfl

/-- A node is labelled by the element it comes from. -/
theorem label_origin (h : (origins es)[i]? = some p) :
    (Template.ofElements es).forest.label i = labelAt none 0 es p := by
  obtain ⟨n, here, label, -⟩ := node_of_origin h
  rw [Forest.label, here, label]

theorem parent_origin (h : (origins es)[i]? = some p) :
    (Template.ofElements es).forest.parent i = parentAt none 0 es p := by
  obtain ⟨n, here, -, parent⟩ := node_of_origin h
  rw [Forest.parent, here, parent]

end Element

end NestedStyles
