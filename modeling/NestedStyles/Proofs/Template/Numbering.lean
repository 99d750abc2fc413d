import NestedStyles.Proofs.Template.Links

/-!
# Templates made from trees are well formed

The nodes of trees that stand side by side take up one stretch of the forest. `Stretch` says how the
links in such a stretch agree. Stretches join, and a node goes in front of the stretch of its
children.
-/

namespace NestedStyles

open Relation Forest

/-- The nodes from `lo` up to `hi` make up trees with these roots, which lie below `parent`. -/
structure Stretch (f : Forest) (parent : Option NodeId) (lo hi : NodeId) (roots : List NodeId) :
    Prop where
  root : ∀ r ∈ roots, f.parent r = parent ∧ lo ≤ r ∧ r < hi
  sorted : roots.Pairwise (· < ·)
  has : ∀ i, lo ≤ i → i < hi → f.Has i
  nodup : ∀ i, lo ≤ i → i < hi → (f.children i).Nodup
  parent_of_child : ∀ i, lo ≤ i → i < hi → ∀ j ∈ f.children i, f.parent j = some i
  reached : ∀ i, lo ≤ i → i < hi → ∃ r ∈ roots, ReflTransGen f.IsChild r i

namespace Stretch

variable {f : Forest} {parent : Option NodeId} {lo mid hi : NodeId} {rs ss : List NodeId}

theorem nil (f : Forest) (parent : Option NodeId) (lo : NodeId) : Stretch f parent lo lo [] where
  root := by simp
  sorted := .nil
  has := fun i h h' => absurd h (Nat.not_le.2 h')
  nodup := fun i h h' => absurd h (Nat.not_le.2 h')
  parent_of_child := fun i h h' => absurd h (Nat.not_le.2 h')
  reached := fun i h h' => absurd h (Nat.not_le.2 h')

/-- Two stretches side by side are one. -/
theorem append (a : Stretch f parent lo mid rs) (b : Stretch f parent mid hi ss) (h : lo ≤ mid)
    (h' : mid ≤ hi) : Stretch f parent lo hi (rs ++ ss) where
  root := by
    intro r hr
    rcases List.mem_append.1 hr with hr | hr
    · obtain ⟨hp, h1, h2⟩ := a.root r hr
      exact ⟨hp, h1, Nat.lt_of_lt_of_le h2 h'⟩
    · obtain ⟨hp, h1, h2⟩ := b.root r hr
      exact ⟨hp, Nat.le_trans h h1, h2⟩
  sorted := by
    refine List.pairwise_append.2 ⟨a.sorted, b.sorted, fun r hr s hs => ?_⟩
    exact Nat.lt_of_lt_of_le (a.root r hr).2.2 (b.root s hs).2.1
  has := fun i h1 h2 =>
    if c : i < mid then a.has i h1 c else b.has i (Nat.not_lt.1 c) h2
  nodup := fun i h1 h2 =>
    if c : i < mid then a.nodup i h1 c else b.nodup i (Nat.not_lt.1 c) h2
  parent_of_child := fun i h1 h2 =>
    if c : i < mid then a.parent_of_child i h1 c else b.parent_of_child i (Nat.not_lt.1 c) h2
  reached := by
    intro i h1 h2
    by_cases c : i < mid
    · obtain ⟨r, hr, path⟩ := a.reached i h1 c
      exact ⟨r, List.mem_append_left _ hr, path⟩
    · obtain ⟨r, hr, path⟩ := b.reached i (Nat.not_lt.1 c) h2
      exact ⟨r, List.mem_append_right _ hr, path⟩

/-- A node in front of the stretch of its children. -/
theorem cons {label : Label} (here : f.node lo = ⟨label, rs, parent⟩) (has : f.Has lo)
    (a : Stretch f (some lo) (lo + 1) hi rs) (h : lo < hi) : Stretch f parent lo hi [lo] where
  root := by
    intro r hr
    obtain rfl := List.mem_singleton.1 hr
    exact ⟨by rw [Forest.parent, here], Nat.le_refl _, h⟩
  sorted := List.pairwise_singleton _ _
  has := by
    intro i h1 h2
    rcases Nat.eq_or_lt_of_le h1 with rfl | h1
    · exact has
    · exact a.has i h1 h2
  nodup := by
    intro i h1 h2
    rcases Nat.eq_or_lt_of_le h1 with rfl | h1
    · rw [Forest.children, here]
      exact a.sorted.imp Nat.ne_of_lt
    · exact a.nodup i h1 h2
  parent_of_child := by
    intro i h1 h2 j hj
    rcases Nat.eq_or_lt_of_le h1 with rfl | h1
    · rw [Forest.children, here] at hj
      exact (a.root j hj).1
    · exact a.parent_of_child i h1 h2 j hj
  reached := by
    intro i h1 h2
    refine ⟨lo, List.mem_singleton_self _, ?_⟩
    rcases Nat.eq_or_lt_of_le h1 with rfl | h1
    · exact .refl
    · obtain ⟨r, hr, path⟩ := a.reached i h1 h2
      have step : f.IsChild lo r := by rwa [IsChild, Forest.children, here]
      exact .head step path

end Stretch

namespace Tree

mutual

theorem length_nodesFrom (parent : Option NodeId) (next : NodeId) (t : Tree) :
    (nodesFrom parent next t).length = t.size := by
  cases t with
  | node label children =>
    simp only [nodesFrom, size, List.length_cons, length_nodesFromAll _ _ children]
    omega

theorem length_nodesFromAll (parent : Option NodeId) (next : NodeId) (ts : List Tree) :
    (nodesFromAll parent next ts).length = sizeAll ts := by
  cases ts with
  | nil => rfl
  | cons t ts =>
    simp only [nodesFromAll, sizeAll, List.length_append, length_nodesFrom _ _ t,
      length_nodesFromAll _ _ ts]

end

/-- The nodes stand in the forest from `next` on. -/
def LaidOut (f : Forest) (next : NodeId) (nodes : List Node) : Prop :=
  nodes <+: f.nodes.drop next

theorem LaidOut.append {f : Forest} {next : NodeId} {a b : List Node}
    (h : LaidOut f next (a ++ b)) : LaidOut f next a ∧ LaidOut f (next + a.length) b := by
  obtain ⟨rest, h⟩ := h
  refine ⟨⟨b ++ rest, by rw [← h, List.append_assoc]⟩, ⟨rest, ?_⟩⟩
  rw [← List.drop_drop, ← h, List.append_assoc, List.drop_left]

theorem LaidOut.head {f : Forest} {next : NodeId} {n : Node} {ns : List Node}
    (h : LaidOut f next (n :: ns)) : f.Has next ∧ f.node next = n ∧ LaidOut f (next + 1) ns := by
  obtain ⟨rest, h⟩ := h
  have here : f.nodes[next]? = some n := by
    have := congrArg List.head? h
    simpa [List.head?_drop] using this.symm
  refine ⟨(List.getElem?_eq_some_iff.1 here).1, ?_, ⟨rest, ?_⟩⟩
  · rw [Forest.node, List.getD_eq_getElem?_getD, here]
    rfl
  · rw [← List.drop_drop, ← h]
    rfl

mutual

theorem stretch_nodesFrom {f : Forest} {parent : Option NodeId} {next : NodeId} {t : Tree}
    (h : LaidOut f next (nodesFrom parent next t)) :
    Stretch f parent next (next + t.size) [next] := by
  cases t with
  | node label children =>
    obtain ⟨has, here, below⟩ := h.head
    have inner := stretch_nodesFromAll below
    rw [Nat.add_assoc] at inner
    exact inner.cons here has (Nat.lt_add_of_pos_right (by simp only [size]; omega))

theorem stretch_nodesFromAll {f : Forest} {parent : Option NodeId} {next : NodeId} {ts : List Tree}
    (h : LaidOut f next (nodesFromAll parent next ts)) :
    Stretch f parent next (next + sizeAll ts) (places next ts) := by
  cases ts with
  | nil => exact .nil f parent next
  | cons t ts =>
    obtain ⟨first, others⟩ := h.append
    rw [length_nodesFrom] at others
    have joined := (stretch_nodesFrom first).append (stretch_nodesFromAll others)
      (Nat.le_add_right ..) (Nat.le_add_right ..)
    rwa [Nat.add_assoc] at joined

end

end Tree

/-- Trees make a well-formed template. -/
theorem Template.wellFormed_ofTrees (ts : List Tree) : (Template.ofTrees ts).WellFormed := by
  have whole : Stretch (Template.ofTrees ts).forest none 0 (0 + Tree.sizeAll ts)
      (Template.ofTrees ts).roots :=
    Tree.stretch_nodesFromAll ⟨[], by simp [Template.ofTrees]⟩
  have within : ∀ {i}, (Template.ofTrees ts).forest.Has i → i < 0 + Tree.sizeAll ts := by
    intro i h
    simpa [Has, Template.ofTrees, Tree.length_nodesFromAll] using h
  exact {
    parent_of_child := fun {i j} h =>
      whole.parent_of_child i (Nat.zero_le i) (within (has_of_isChild h)) j h
    parent_of_root := fun {r} h => (whole.root r h).1
    children_nodup := by
      intro i
      by_cases h : (Template.ofTrees ts).forest.Has i
      · exact whole.nodup i (Nat.zero_le i) (within h)
      · rw [Forest.children, node_of_not_has h]
        exact .nil
    roots_nodup := whole.sorted.imp Nat.ne_of_lt
    has_root := fun {r} h => whole.has r (whole.root r h).2.1 (whole.root r h).2.2
    reached := fun {i} h => whole.reached i (Nat.zero_le i) (within h) }

end NestedStyles
