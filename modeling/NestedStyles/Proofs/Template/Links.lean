import Mathlib.Data.List.GetD
import Mathlib.Data.List.Perm.Subperm
import Mathlib.Logic.Relation
import NestedStyles.Template.Tree

/-!
# Templates whose links agree

In a well-formed template each node occurs once, in the list of children of its parent or among the
roots. No node lies below itself there, so the bounds of `Forest.subtree` and `Forest.ancestors` cut
nothing off: the one holds exactly the nodes below a node and the other those above it.
-/

namespace NestedStyles

open Relation

namespace Forest

/-- `j` is a child of `i`. -/
def IsChild (f : Forest) (i j : NodeId) : Prop :=
  j ∈ f.children i

/-- `j` is a node of the forest. -/
def Has (f : Forest) (j : NodeId) : Prop :=
  j < f.nodes.length

theorem node_of_not_has {f : Forest} {i : NodeId} (h : ¬ f.Has i) : f.node i = .blank := by
  unfold node
  exact List.getD_eq_default _ _ (Nat.le_of_not_lt h)

theorem has_of_isChild {f : Forest} {i j : NodeId} (h : f.IsChild i j) : f.Has i := by
  by_contra hi
  rw [IsChild, children, node_of_not_has hi] at h
  exact List.not_mem_nil h

theorem has_of_parent {f : Forest} {i j : NodeId} (h : f.parent j = some i) : f.Has j := by
  by_contra hj
  rw [parent, node_of_not_has hj] at h
  cases h

/-- Pairwise different nodes are at most as many as the forest has. -/
theorem length_le_of_nodup {f : Forest} {l : List NodeId} (hl : l.Nodup) (h : ∀ i ∈ l, f.Has i) :
    l.length ≤ f.nodes.length := by
  have sub : l ⊆ List.range f.nodes.length := fun i hi => List.mem_range.2 (h i hi)
  simpa using (hl.subperm sub).length_le

end Forest

open Forest

/-- Each node occurs once, below its parent or among the roots. -/
structure Template.WellFormed (t : Template) : Prop where
  parent_of_child : ∀ {i j}, t.forest.IsChild i j → t.forest.parent j = some i
  parent_of_root : ∀ {r}, r ∈ t.roots → t.forest.parent r = none
  children_nodup : ∀ i, (t.forest.children i).Nodup
  roots_nodup : t.roots.Nodup
  has_root : ∀ {r}, r ∈ t.roots → t.forest.Has r
  reached : ∀ {i}, t.forest.Has i → ∃ r ∈ t.roots, ReflTransGen t.forest.IsChild r i

namespace Template.WellFormed

variable {t : Template} {i j : NodeId}

theorem has_child (wf : t.WellFormed) (h : t.forest.IsChild i j) : t.forest.Has j :=
  has_of_parent (wf.parent_of_child h)

/-- A node is listed among the children of its parent. -/
theorem child_of_parent (wf : t.WellFormed) (h : t.forest.parent j = some i) :
    t.forest.IsChild i j := by
  obtain ⟨r, hr, path⟩ := wf.reached (has_of_parent h)
  rcases path.cases_tail with rfl | ⟨k, -, hk⟩
  · rw [wf.parent_of_root hr] at h
    cases h
  · have same : i = k := Option.some.inj (h.symm.trans (wf.parent_of_child hk))
    exact same ▸ hk

theorem parent_eq_some_iff (wf : t.WellFormed) :
    t.forest.parent j = some i ↔ t.forest.IsChild i j :=
  ⟨wf.child_of_parent, wf.parent_of_child⟩

/-- No node lies below itself. -/
theorem acyclic (wf : t.WellFormed) (i : NodeId) : ¬ TransGen t.forest.IsChild i i := by
  intro cycle
  obtain ⟨r, hr, path⟩ : ∃ r ∈ t.roots, ReflTransGen t.forest.IsChild r i := by
    obtain ⟨k, hk, -⟩ := TransGen.head'_iff.1 cycle
    exact wf.reached (has_of_isChild hk)
  -- A cycle at a node gives one at its parent, and so at the root above it, which has no parent.
  induction path with
  | refl =>
    obtain ⟨p, -, hp⟩ := TransGen.tail'_iff.1 cycle
    have := wf.parent_of_child hp
    rw [wf.parent_of_root hr] at this
    cases this
  | @tail a b path hab ih =>
    obtain ⟨p, hbp, hp⟩ := TransGen.tail'_iff.1 cycle
    have same : p = a :=
      Option.some.inj ((wf.parent_of_child hp).symm.trans (wf.parent_of_child hab))
    subst same
    exact ih (TransGen.head' hab hbp)

theorem has_of_reach (wf : t.WellFormed) (h : ReflTransGen t.forest.IsChild i j)
    (hi : t.forest.Has i) : t.forest.Has j := by
  rcases h.cases_tail with rfl | ⟨k, -, hk⟩
  · exact hi
  · exact wf.has_child hk

/-! ## Subtrees -/

/-- Listing the nodes below `i` does not run out of depth. The nodes in `above` lie over `i`. -/
theorem mem_subtreeTo_of_reach (wf : t.WellFormed) {depth : Nat} {above : List NodeId}
    (hi : t.forest.Has i) (nodup : above.Nodup)
    (habove : ∀ a ∈ above, t.forest.Has a ∧ TransGen t.forest.IsChild a i)
    (bound : t.forest.nodes.length ≤ depth + above.length)
    (path : ReflTransGen t.forest.IsChild i j) : j ∈ t.forest.subtreeTo depth i := by
  have fresh : (i :: above).Nodup :=
    List.nodup_cons.2 ⟨fun h => wf.acyclic i (habove i h).2, nodup⟩
  have hall : ∀ a ∈ i :: above, t.forest.Has a := by
    rintro a (_ | ⟨_, h⟩)
    · exact hi
    · exact (habove a h).1
  induction depth generalizing i above with
  | zero =>
    have := length_le_of_nodup fresh hall
    simp only [List.length_cons] at this
    omega
  | succ depth ih =>
    rcases path.cases_head with rfl | ⟨k, hk, path⟩
    · exact List.mem_cons_self
    · refine List.mem_cons_of_mem _ (List.mem_flatMap.2 ⟨k, hk, ?_⟩)
      have below : ∀ a ∈ i :: above, t.forest.Has a ∧ TransGen t.forest.IsChild a k := by
        rintro a (_ | ⟨_, h⟩)
        · exact ⟨hi, .single hk⟩
        · exact ⟨(habove a h).1, (habove a h).2.tail hk⟩
      refine ih (wf.has_child hk) fresh below ?_ path ?_ ?_
      · simp only [List.length_cons]
        omega
      · exact List.nodup_cons.2 ⟨fun h => wf.acyclic k (below k h).2, fresh⟩
      · rintro a (_ | ⟨_, h⟩)
        · exact wf.has_child hk
        · exact hall a h

end Template.WellFormed

theorem Forest.reach_of_mem_subtreeTo {f : Forest} {depth : Nat} {i j : NodeId}
    (h : j ∈ f.subtreeTo depth i) : ReflTransGen f.IsChild i j := by
  induction depth generalizing i with
  | zero => cases h
  | succ depth ih =>
    rcases List.mem_cons.1 h with rfl | h
    · exact .refl
    · obtain ⟨k, hk, h⟩ := List.mem_flatMap.1 h
      exact .head hk (ih h)

namespace Template.WellFormed

variable {t : Template} {i j : NodeId}

/-- The subtree of a node holds what can be reached from it by going down. -/
theorem mem_subtree_iff (wf : t.WellFormed) (hi : t.forest.Has i) :
    j ∈ t.forest.subtree i ↔ ReflTransGen t.forest.IsChild i j :=
  ⟨reach_of_mem_subtreeTo, wf.mem_subtreeTo_of_reach hi List.nodup_nil (by simp) (by simp)⟩

/-- The template lists exactly the nodes of its forest. -/
theorem mem_elements_iff (wf : t.WellFormed) : j ∈ t.elements ↔ t.forest.Has j := by
  unfold elements
  rw [List.mem_flatMap]
  constructor
  · rintro ⟨r, hr, h⟩
    exact wf.has_of_reach (reach_of_mem_subtreeTo h) (wf.has_root hr)
  · intro h
    obtain ⟨r, hr, path⟩ := wf.reached h
    exact ⟨r, hr, (wf.mem_subtree_iff (wf.has_root hr)).2 path⟩

/-! ## Ancestors -/

/-- Listing the nodes above `i` does not run out of height. The nodes in `below` lie under `i`. -/
theorem mem_ancestorsTo_of_reach (wf : t.WellFormed) {height : Nat} {below : List NodeId}
    (hi : t.forest.Has i) (nodup : below.Nodup)
    (hbelow : ∀ a ∈ below, t.forest.Has a ∧ TransGen t.forest.IsChild i a)
    (bound : t.forest.nodes.length ≤ height + below.length)
    (path : TransGen t.forest.IsChild j i) : j ∈ t.forest.ancestorsTo height i := by
  have fresh : (i :: below).Nodup :=
    List.nodup_cons.2 ⟨fun h => wf.acyclic i (hbelow i h).2, nodup⟩
  have hall : ∀ a ∈ i :: below, t.forest.Has a := by
    rintro a (_ | ⟨_, h⟩)
    · exact hi
    · exact (hbelow a h).1
  induction height generalizing i below with
  | zero =>
    have := length_le_of_nodup fresh hall
    simp only [List.length_cons] at this
    omega
  | succ height ih =>
    obtain ⟨k, path, hk⟩ := TransGen.tail'_iff.1 path
    simp only [ancestorsTo, wf.parent_of_child hk]
    rcases reflTransGen_iff_eq_or_transGen.1 path with rfl | path
    · exact List.mem_cons_self
    · refine List.mem_cons_of_mem _ ?_
      have under : ∀ a ∈ i :: below, t.forest.Has a ∧ TransGen t.forest.IsChild k a := by
        rintro a (_ | ⟨_, h⟩)
        · exact ⟨hi, .single hk⟩
        · exact ⟨(hbelow a h).1, .head hk (hbelow a h).2⟩
      refine ih (has_of_isChild hk) fresh under ?_ path ?_ ?_
      · simp only [List.length_cons]
        omega
      · exact List.nodup_cons.2 ⟨fun h => wf.acyclic k (under k h).2, fresh⟩
      · rintro a (_ | ⟨_, h⟩)
        · exact has_of_isChild hk
        · exact hall a h

theorem reach_of_mem_ancestorsTo (wf : t.WellFormed) {height : Nat}
    (h : j ∈ t.forest.ancestorsTo height i) : TransGen t.forest.IsChild j i := by
  induction height generalizing i with
  | zero => cases h
  | succ height ih =>
    cases hp : t.forest.parent i with
    | none => simp [ancestorsTo, hp] at h
    | some p =>
      have step := wf.child_of_parent hp
      simp only [ancestorsTo, hp, List.mem_cons] at h
      rcases h with rfl | h
      · exact .single step
      · exact (ih h).tail step

/-- The ancestors of a node are those it can be reached from by going down. -/
theorem mem_ancestors_iff (wf : t.WellFormed) (hi : t.forest.Has i) :
    j ∈ t.forest.ancestors i ↔ TransGen t.forest.IsChild j i :=
  ⟨wf.reach_of_mem_ancestorsTo,
    wf.mem_ancestorsTo_of_reach hi List.nodup_nil (by simp) (by simp)⟩

end Template.WellFormed

end NestedStyles
