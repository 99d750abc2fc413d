import Mathlib.Data.List.Infix
import Mathlib.Data.List.Nodup
import NestedStyles.Proofs.Template.Chains

/-!
# The nodes of a template and the elements that are kept

An element is kept if it is neither a slot nor a wrapper and everything around it is entered
(`Kept`). The nodes of a template, in document order, are the elements of its markup that are kept,
in document order, and the parent of a node is the nearest of them around it (`ofElements_mirrors`).
-/

namespace NestedStyles

/-! ## Document order -/

namespace Tree

mutual

theorem subtreeTo_nodesFrom {f : Forest} {parent : Option NodeId} {depth next : NodeId} {t : Tree}
    (h : LaidOut f next (nodesFrom parent next t)) (enough : t.size ≤ depth) :
    f.subtreeTo depth next = List.range' next t.size := by
  cases t with
  | node label children =>
    obtain ⟨-, here, below⟩ := h.head
    rw [size, Nat.add_comm] at enough ⊢
    obtain ⟨depth, rfl⟩ := Nat.exists_eq_add_of_le' (Nat.le_of_add_left_le enough)
    have inner := subtreeTo_nodesFromAll below (Nat.le_of_add_le_add_right enough)
    rw [Forest.subtreeTo, Forest.children, here, inner, List.range'_succ]

theorem subtreeTo_nodesFromAll {f : Forest} {parent : Option NodeId} {depth next : NodeId}
    {ts : List Tree} (h : LaidOut f next (nodesFromAll parent next ts))
    (enough : sizeAll ts ≤ depth) :
    (places next ts).flatMap (f.subtreeTo depth) = List.range' next (sizeAll ts) := by
  cases ts with
  | nil => rfl
  | cons t ts =>
    obtain ⟨first, others⟩ := h.append
    rw [length_nodesFrom] at others
    rw [sizeAll] at enough
    rw [places, List.flatMap_cons, subtreeTo_nodesFrom first (Nat.le_of_add_right_le enough),
      subtreeTo_nodesFromAll others (Nat.le_of_add_left_le enough), sizeAll, List.range'_append_1]

end

end Tree

/-- The nodes of trees are numbered in document order. -/
theorem Template.elements_ofTrees (ts : List Tree) :
    (Template.ofTrees ts).elements = List.range (Tree.sizeAll ts) := by
  have whole : Tree.LaidOut (Template.ofTrees ts).forest 0 (Tree.nodesFromAll none 0 ts) :=
    ⟨[], List.append_nil _⟩
  have total : (Template.ofTrees ts).forest.nodes.length = Tree.sizeAll ts :=
    Tree.length_nodesFromAll none 0 ts
  rw [List.range_eq_range', ← Tree.subtreeTo_nodesFromAll whole (Nat.le_refl _), ← total]
  rfl

namespace Element

variable {es : List Element} {e : Element} {k n : Nat} {p q : Address}

mutual

theorem originsOf_sorted (e : Element) : (originsOf e).Pairwise (· < ·) := by
  cases e with
  | remark => exact .nil
  | element tag attributes children =>
    have inner := origins_sorted children
    have first : ∀ q ∈ origins children, [] < q := by
      intro q mem
      obtain ⟨k, q, rfl⟩ := List.exists_cons_of_ne_nil (origins_ne_nil mem)
      exact List.nil_lt_cons k q
    rw [originsOf]
    split
    · exact .nil
    split
    · exact inner
    split
    · exact List.pairwise_singleton _ _
    · exact List.pairwise_cons.2 ⟨first, inner⟩

/-- The elements that are kept are listed in document order: an element comes in front of those in
it, and those in front of what is behind it. -/
theorem origins_sorted (es : List Element) : (origins es).Pairwise (· < ·) := by
  cases es with
  | nil => exact .nil
  | cons e es =>
    rw [origins]
    refine List.pairwise_append.2 ⟨List.pairwise_map.2 ?_, List.pairwise_map.2 ?_, ?_⟩
    · exact (originsOf_sorted e).imp fun lt => List.cons_lt_cons_iff.2 (.inr ⟨rfl, lt⟩)
    · refine (origins_sorted es).imp_of_mem fun {p q} hp hq lt => ?_
      obtain ⟨k, p, rfl⟩ := List.exists_cons_of_ne_nil (origins_ne_nil hp)
      obtain ⟨l, q, rfl⟩ := List.exists_cons_of_ne_nil (origins_ne_nil hq)
      obtain less | ⟨rfl, less⟩ := List.cons_lt_cons_iff.1 lt
      · exact List.cons_lt_cons_iff.2 (.inl (Nat.succ_lt_succ less))
      · exact List.cons_lt_cons_iff.2 (.inr ⟨rfl, less⟩)
    · intro p hp q hq
      obtain ⟨p, -, rfl⟩ := List.mem_map.1 hp
      obtain ⟨q, mem, rfl⟩ := List.mem_map.1 hq
      obtain ⟨l, q, rfl⟩ := List.exists_cons_of_ne_nil (origins_ne_nil mem)
      exact List.cons_lt_cons_iff.2 (.inl (Nat.succ_pos l))

end

/-! ## Kept elements -/

/-- A piece of markup that can become a node. -/
def isShown (e : Element) : Bool :=
  !e.isRemark && !e.isSlot && !e.isTransparent

/-- The element at an address becomes a node: it is neither a slot nor a wrapper, and of what is
around it nothing is a slot or an element that is no wrapper and whose content `v-html` replaces. -/
structure Kept (es : List Element) (p : Address) : Prop where
  shown : ∃ e, elementAt es p = some e ∧ e.isShown = true
  entered : ∀ r, r <+: p → r ≠ [] → r ≠ p → ∃ e, elementAt es r = some e ∧ e.isOpen = true

theorem not_kept_nil : ¬ Kept es [] := by
  rintro ⟨⟨e, here, -⟩, -⟩
  cases here

theorem kept_singleton : Kept es [k] ↔ ∃ e, es[k]? = some e ∧ e.isShown = true := by
  refine ⟨Kept.shown, fun shown => ⟨shown, fun r above nonempty proper => ?_⟩⟩
  obtain rfl | ⟨r, rfl, rest⟩ := List.prefix_cons_iff.1 above
  · exact absurd rfl nonempty
  · exact absurd (congrArg _ (List.prefix_nil.1 rest)) proper

theorem kept_cons (nonempty : q ≠ []) :
    Kept es (k :: q) ↔ (∃ e, es[k]? = some e ∧ e.isOpen = true) ∧ Kept (contentAt es k) q := by
  constructor
  · rintro ⟨shown, entered⟩
    rw [elementAt_cons nonempty] at shown
    refine ⟨entered [k] (by simp) (List.cons_ne_nil k []) (by simpa using nonempty.symm), shown,
      fun r above proper other => ?_⟩
    have inner := entered (k :: r) (List.cons_prefix_cons.2 ⟨rfl, above⟩) (List.cons_ne_nil k r)
      (fun same => other (List.cons.inj same).2)
    rwa [elementAt_cons proper] at inner
  · rintro ⟨around, shown, entered⟩
    rw [← elementAt_cons nonempty] at shown
    refine ⟨shown, fun r above proper other => ?_⟩
    obtain rfl | ⟨r, rfl, rest⟩ := List.prefix_cons_iff.1 above
    · exact absurd rfl proper
    by_cases last : r = []
    · rw [last]
      exact around
    · rw [elementAt_cons last]
      exact entered r rest last fun same => other (congrArg _ same)

/-- An element that is entered is kept just if it is no wrapper. -/
theorem isShown_of_isOpen (h : e.isOpen = true) : e.isShown = !e.isTransparent := by
  cases e with
  | remark => cases h
  | element tag attributes children =>
    simp [isShown, isRemark, isSlot, (isOpen_element.1 h).1]

theorem mem_originsOf_iff :
    q ∈ originsOf e ↔ q = [] ∧ e.isShown = true ∨ e.isOpen = true ∧ q ∈ origins e.content := by
  cases e with
  | remark => simp [originsOf, isShown, isRemark, isOpen]
  | element tag attributes children =>
    cases visible : tag == slotTag with
    | true =>
      rw [originsOf_slot visible]
      simp [isShown, isSlot, isOpen, beq_iff_eq.1 visible]
    | false =>
    have other : tag ≠ slotTag := by simpa using visible
    by_cases wrapper : tag ∈ transparentTags
    · simp [originsOf_wrapper visible wrapper, isShown, isTransparent, isOpen, wrapper, other,
        content]
    cases closed : hasAttribute attributes "v-html" with
    | true =>
      simp [originsOf_closed visible wrapper closed, isShown, isRemark, isSlot, isTransparent,
        isOpen, wrapper, closed, visible]
    | false =>
      simp [originsOf_kept visible wrapper closed, isShown, isRemark, isSlot, isTransparent,
        isOpen, wrapper, closed, visible, other, content]

/-- The elements kept in the `k`-th element come behind those kept in front of it. -/
theorem getElem?_origins (here : es[k]? = some e) (found : (originsOf e)[n]? = some q) :
    (origins es)[(origins (es.take k)).length + n]? = some (k :: q) := by
  induction es generalizing k with
  | nil => cases here
  | cons d es ih =>
    cases k with
    | zero =>
      obtain rfl : d = e := Option.some.inj here
      have lt : n < ((originsOf d).map (0 :: ·)).length := by
        rw [List.length_map]
        exact (List.getElem?_eq_some_iff.1 found).1
      rw [List.take_zero, origins, origins, List.length_nil, Nat.zero_add,
        List.getElem?_append_left lt, List.getElem?_map, found]
      rfl
    | succ k =>
      rw [List.take_succ_cons, origins, origins, List.length_append, List.length_map,
        List.length_map, Nat.add_assoc, List.getElem?_append_right (by simp), List.length_map,
        Nat.add_sub_cancel_left, List.getElem?_map, ih here]
      rfl

theorem cons_mem_origins_iff :
    k :: q ∈ origins es ↔ ∃ e, es[k]? = some e ∧ q ∈ originsOf e := by
  constructor
  · intro mem
    induction es generalizing k with
    | nil => cases mem
    | cons e es ih =>
      rw [origins, List.mem_append, List.mem_map, List.mem_map] at mem
      obtain ⟨q', mem, same⟩ | ⟨p, mem, same⟩ := mem
      · obtain ⟨rfl, rfl⟩ := List.cons.inj same
        exact ⟨e, rfl, mem⟩
      · obtain ⟨l, p, rfl⟩ := List.exists_cons_of_ne_nil (origins_ne_nil mem)
        obtain ⟨rfl, rfl⟩ := List.cons.inj same
        exact ih mem
  · rintro ⟨e, here, mem⟩
    obtain ⟨n, found⟩ := List.mem_iff_getElem?.1 mem
    exact List.mem_of_getElem? (getElem?_origins here found)

/-- The addresses listed are those of the elements that are kept. -/
theorem mem_origins_iff : p ∈ origins es ↔ Kept es p := by
  induction p generalizing es with
  | nil => exact iff_of_false (fun mem => origins_ne_nil mem rfl) not_kept_nil
  | cons k q ih =>
    rw [cons_mem_origins_iff]
    simp only [mem_originsOf_iff]
    by_cases last : q = []
    · subst last
      have none (ds : List Element) : [] ∉ origins ds := fun mem => origins_ne_nil mem rfl
      simp [kept_singleton, none]
    · rw [kept_cons last]
      constructor
      · rintro ⟨e, here, ⟨rfl, -⟩ | ⟨entered, mem⟩⟩
        · exact absurd rfl last
        · refine ⟨⟨e, here, entered⟩, ?_⟩
          rw [contentAt_of_getElem? here]
          exact ih.1 mem
      · rintro ⟨⟨e, here, entered⟩, kept⟩
        rw [contentAt_of_getElem? here] at kept
        exact ⟨e, here, .inr ⟨entered, ih.2 kept⟩⟩

/-! ## Nearest kept elements -/

/-- The nearest of the kept elements around the one at `p` stands at `q`. -/
structure NearestAbove (es : List Element) (q p : Address) : Prop where
  kept : Kept es q
  above : q <+: p
  proper : q ≠ p
  nearest : ∀ r, Kept es r → r <+: p → r ≠ p → r <+: q

/-- No element around the one at `p` is kept. -/
def NoneAbove (es : List Element) (p : Address) : Prop :=
  ∀ q, Kept es q → q <+: p → q = p

theorem NearestAbove.cons (around : ∃ e, es[k]? = some e ∧ e.isOpen = true)
    (h : NearestAbove (contentAt es k) q p) : NearestAbove es (k :: q) (k :: p) where
  kept := (kept_cons fun last => not_kept_nil (last ▸ h.kept)).2 ⟨around, h.kept⟩
  above := List.cons_prefix_cons.2 ⟨rfl, h.above⟩
  proper := fun same => h.proper (List.cons.inj same).2
  nearest := by
    intro r kept above proper
    obtain rfl | ⟨r, rfl, rest⟩ := List.prefix_cons_iff.1 above
    · exact absurd kept not_kept_nil
    refine List.cons_prefix_cons.2 ⟨rfl, ?_⟩
    by_cases last : r = []
    · rw [last]
      exact List.nil_prefix
    · exact h.nearest r ((kept_cons last).1 kept).2 rest fun same => proper (congrArg _ same)

/-- The element around a list is the nearest one if none in the list is. -/
theorem nearestAbove_self (here : es[k]? = some e) (shown : e.isShown = true)
    (nonempty : q ≠ []) (none : NoneAbove (contentAt es k) q) : NearestAbove es [k] (k :: q) where
  kept := kept_singleton.2 ⟨e, here, shown⟩
  above := List.cons_prefix_cons.2 ⟨rfl, List.nil_prefix⟩
  proper := fun same => nonempty (List.cons.inj same).2.symm
  nearest := by
    intro r kept above proper
    obtain rfl | ⟨r, rfl, rest⟩ := List.prefix_cons_iff.1 above
    · exact absurd kept not_kept_nil
    by_cases last : r = []
    · rw [last]
    · exact absurd (congrArg _ (none r ((kept_cons last).1 kept).2 rest)) proper

theorem noneAbove_cons (here : es[k]? = some e) (wrapper : e.isTransparent = true)
    (none : NoneAbove (contentAt es k) q) : NoneAbove es (k :: q) := by
  intro r kept above
  obtain rfl | ⟨r, rfl, rest⟩ := List.prefix_cons_iff.1 above
  · exact absurd kept not_kept_nil
  by_cases last : r = []
  · subst last
    obtain ⟨d, there, shown⟩ := kept_singleton.1 kept
    obtain rfl : e = d := Option.some.inj (here.symm.trans there)
    simp [isShown, wrapper] at shown
  · exact congrArg _ (none r ((kept_cons last).1 kept).2 rest)

theorem noneAbove_singleton : NoneAbove es [k] := by
  intro q kept above
  obtain rfl | ⟨q, rfl, rest⟩ := List.prefix_cons_iff.1 above
  · exact absurd kept not_kept_nil
  · rw [List.prefix_nil.1 rest]

/-- The parent of a node is the node of the nearest kept element around its own. Where there is none
it is the parent of the whole list. -/
theorem parentAt_of_kept (kept : Kept es p) (parent : Option Nat) (id : Nat) :
    (∃ n q, NearestAbove es q p ∧ (origins es)[n]? = some q ∧
      parentAt parent id es p = some (id + n)) ∨
    NoneAbove es p ∧ parentAt parent id es p = parent := by
  induction p generalizing es parent id with
  | nil => exact absurd kept not_kept_nil
  | cons k p ih =>
    by_cases last : p = []
    · rw [last]
      exact .inr ⟨noneAbove_singleton, rfl⟩
    obtain ⟨⟨e, here, entered⟩, within⟩ := (kept_cons last).1 kept
    have listed : ∀ {m q}, (originsOf e)[m]? = some q →
        (origins es)[(origins (es.take k)).length + m]? = some (k :: q) := getElem?_origins here
    have inner := fun parent id => ih within parent id
    have content : contentAt es k = e.content := contentAt_of_getElem? here
    have same := originsOf_of_isOpen entered
    rw [← content] at same
    have shown := isShown_of_isOpen entered
    rw [parentAt_cons last, here, Option.any_some]
    cases wrapper : e.isTransparent with
    | true =>
      rw [wrapper, if_pos rfl] at same
      obtain ⟨n, q, nearest, found, result⟩ | ⟨none, result⟩ :=
        inner parent (id + (origins (es.take k)).length)
      · refine .inl ⟨_, k :: q, nearest.cons ⟨e, here, entered⟩, listed (same ▸ found), ?_⟩
        rw [if_pos rfl, result, Nat.add_assoc]
      · exact .inr ⟨noneAbove_cons here wrapper none, result⟩
    | false =>
      rw [wrapper, if_neg Bool.false_ne_true] at same
      rw [wrapper] at shown
      obtain ⟨n, q, nearest, found, result⟩ | ⟨none, result⟩ :=
        inner (some (id + (origins (es.take k)).length)) (id + (origins (es.take k)).length + 1)
      · have later : (originsOf e)[n + 1]? = some q := by rw [same, List.getElem?_cons_succ, found]
        refine .inl ⟨_, k :: q, nearest.cons ⟨e, here, entered⟩, listed later, ?_⟩
        rw [if_neg Bool.false_ne_true, result]
        simp only [Option.some.injEq]
        omega
      · have first : (originsOf e)[0]? = some [] := by rw [same, List.getElem?_cons_zero]
        refine .inl ⟨_, [k], nearestAbove_self here shown last none, listed first, ?_⟩
        rw [if_neg Bool.false_ne_true, result]
        rfl

end Element

open Element

/-- The nodes of a template, in document order, are those of the pieces of markup at these
addresses. Each is linked to the node of the nearest kept element around its own. -/
structure Template.Mirrors (t : Template) (es : List Element) (kept : List Address) : Prop where
  nodup : t.elements.Nodup
  length_eq : t.elements.length = kept.length
  label : ∀ p i, (p, i) ∈ kept.zip t.elements → ∃ tag attributes children,
    elementAt es p = some (element tag attributes children) ∧
      t.forest.label i = toLabel tag attributes (t.forest.label i).conditional
  parent : ∀ p i, (p, i) ∈ kept.zip t.elements →
    (∃ q j, (q, j) ∈ kept.zip t.elements ∧ NearestAbove es q p ∧
      t.forest.parent i = some j ∧ (t.forest.children j).count i = 1) ∨
    NoneAbove es p ∧ t.forest.parent i = none ∧ t.roots.count i = 1
  child : ∀ j, ∀ i ∈ t.forest.children j,
    j ∈ t.elements ∧ i ∈ t.elements ∧ t.forest.parent i = some j
  root : ∀ r ∈ t.roots, r ∈ t.elements ∧ t.forest.parent r = none

namespace Element

variable {es : List Element} {i : NodeId} {p : Address}

/-- The nodes are numbered as the kept elements are. -/
theorem mem_zip_elements_iff : (p, i) ∈ (origins es).zip (Template.ofElements es).elements ↔
    (origins es)[i]? = some p := by
  rw [Template.ofElements, Template.elements_ofTrees, toTrees, sizeAll_trees,
    List.range_eq_range', ← List.zipIdx_eq_zip_range', List.mk_mem_zipIdx_iff_getElem?]

/-- A kept element is one, and its node says about itself what the element does. -/
theorem label_of_kept (kept : Kept es p) (h : (origins es)[i]? = some p) :
    ∃ tag attributes children, elementAt es p = some (element tag attributes children) ∧
      (Template.ofElements es).forest.label i =
        toLabel tag attributes ((Template.ofElements es).forest.label i).conditional := by
  obtain ⟨e, here, shown⟩ := kept.shown
  cases e with
  | remark => cases shown
  | element tag attributes children =>
    refine ⟨tag, attributes, children, here, ?_⟩
    rw [label_origin h, conditional_labelAt, labelAt, here]

/-- A node is linked to the nearest kept element around its own, or it is a root. -/
theorem parent_of_kept (kept : Kept es p) (h : (origins es)[i]? = some p) :
    (∃ q j, (origins es)[j]? = some q ∧ NearestAbove es q p ∧
      (Template.ofElements es).forest.parent i = some j ∧
      ((Template.ofElements es).forest.children j).count i = 1) ∨
    NoneAbove es p ∧ (Template.ofElements es).forest.parent i = none ∧
      (Template.ofElements es).roots.count i = 1 := by
  have wf : (Template.ofElements es).WellFormed := Template.wellFormed_ofTrees (toTrees es)
  have link := parent_origin h
  obtain ⟨j, q, nearest, found, result⟩ | ⟨none, result⟩ := parentAt_of_kept kept none 0
  · rw [result, Nat.zero_add] at link
    exact .inl ⟨q, j, found, nearest, link,
      List.count_eq_one_of_mem (wf.children_nodup j) (wf.child_of_parent link)⟩
  · rw [result] at link
    obtain ⟨r, root, path⟩ := wf.reached ((has_iff_origin es i).2 ⟨p, h⟩)
    -- Only a root has no parent, so the way down from the root above is empty.
    obtain rfl | ⟨j, -, child⟩ := path.cases_tail
    · exact .inr ⟨none, link, List.count_eq_one_of_mem wf.roots_nodup root⟩
    · rw [wf.parent_of_child child] at link
      cases link

/-- The kept elements of markup, in document order, are the nodes of its template. -/
theorem ofElements_mirrors (es : List Element) :
    (origins es).Pairwise (· < ·) ∧ (∀ p, p ∈ origins es ↔ Kept es p) ∧
      (Template.ofElements es).Mirrors es (origins es) := by
  have wf : (Template.ofElements es).WellFormed := Template.wellFormed_ofTrees (toTrees es)
  have numbered : (Template.ofElements es).elements = List.range (origins es).length := by
    rw [Template.ofElements, Template.elements_ofTrees, toTrees, sizeAll_trees]
  have kept {p i} (listed : (origins es)[i]? = some p) : Kept es p :=
    mem_origins_iff.1 (List.mem_of_getElem? listed)
  have mirrors : (Template.ofElements es).Mirrors es (origins es) := {
    nodup := numbered ▸ List.nodup_range
    length_eq := by rw [numbered, List.length_range]
    label := by
      intro p i pair
      have listed := mem_zip_elements_iff.1 pair
      exact label_of_kept (kept listed) listed
    parent := by
      intro p i pair
      have listed := mem_zip_elements_iff.1 pair
      obtain ⟨q, j, found, linked⟩ | root := parent_of_kept (kept listed) listed
      · exact .inl ⟨q, j, mem_zip_elements_iff.2 found, linked⟩
      · exact .inr root
    child := fun j i child => ⟨wf.mem_elements_iff.2 (Forest.has_of_isChild child),
      wf.mem_elements_iff.2 (wf.has_child child), wf.parent_of_child child⟩
    root := fun r root => ⟨wf.mem_elements_iff.2 (wf.has_root root), wf.parent_of_root root⟩ }
  exact ⟨origins_sorted es, fun p => mem_origins_iff, mirrors⟩

end Element

end NestedStyles
