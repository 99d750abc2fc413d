import Mathlib.Data.List.Nodup
import NestedStyles.Match.Siblings
import NestedStyles.Proofs.Template.Links

/-!
# Runtime siblings by their places among the children

`Between i mid j` says that `i` and `j` are children of one node with the siblings `mid` between
them. In a well-formed template every node has a sibling position, and the lists `Forest.following`
and `Forest.preceding` with their first elements are described by what stands between two siblings.
-/

namespace NestedStyles

open Forest

theorem Conditional.excludes_self (a : Option Conditional) : excludes a a = false := by
  cases a <;> simp [excludes]

theorem Conditional.excludes_comm (a b : Option Conditional) : excludes a b = excludes b a := by
  have bne_comm (x y : Int) : (x != y) = (y != x) := by rw [bne, bne, BEq.comm]
  cases a with
  | none => cases b <;> rfl
  | some a =>
    cases b with
    | none => rfl
    | some b => rw [excludes, excludes, BEq.comm, bne_comm]

namespace Forest

variable {f : Forest} {i j p : NodeId} {before mid after : List NodeId}

@[simp] theorem areAlternatives_self (f : Forest) (i : NodeId) : f.areAlternatives i i = false :=
  Conditional.excludes_self _

theorem areAlternatives_comm (f : Forest) (i j : NodeId) :
    f.areAlternatives i j = f.areAlternatives j i :=
  Conditional.excludes_comm _ _

/-- `i` and `j` are children of one node, with `mid` between them. -/
def Between (f : Forest) (i : NodeId) (mid : List NodeId) (j : NodeId) : Prop :=
  ∃ p before after, f.children p = before ++ i :: (mid ++ j :: after)

theorem Between.exists_parent (h : f.Between i mid j) : ∃ p, f.IsChild p i ∧ f.IsChild p j := by
  obtain ⟨p, before, after, hc⟩ := h
  exact ⟨p, by simp [IsChild, hc], by simp [IsChild, hc]⟩

/-- The siblings of a root. -/
theorem siblingPosition_of_root (h : f.parent i = none) : f.siblingPosition i = .ok ([i], 0) := by
  simp [siblingPosition, runtimeSiblings, h]

/-- The siblings of a node in its place among the children of its parent. -/
theorem siblingPosition_of_split (hp : f.parent i = some p)
    (hc : f.children p = before ++ i :: after) (fresh : i ∉ before) :
    f.siblingPosition i = .ok
      (before.filter (fun j => !f.areAlternatives i j) ++
        i :: after.filter (fun j => !f.areAlternatives i j),
       (before.filter fun j => !f.areAlternatives i j).length) := by
  have siblings : f.runtimeSiblings i = before.filter (fun j => !f.areAlternatives i j) ++
      i :: after.filter (fun j => !f.areAlternatives i j) := by
    simp [runtimeSiblings, hp, hc]
  have position : (f.runtimeSiblings i).idxOf? i =
      some (before.filter fun j => !f.areAlternatives i j).length := by
    rw [siblings, List.idxOf?, List.findIdx?_append, List.findIdx?_eq_none_iff.2]
    · simp [List.findIdx?_cons]
    · intro j hj
      have : j ∈ before := (List.mem_filter.1 hj).1
      exact beq_false_of_ne fun same => fresh (same ▸ this)
  unfold siblingPosition
  simp only [position]
  rw [siblings]

end Forest

namespace Template.WellFormed

variable {t : Template} {i j p p' : NodeId} {before before' mid mid' after after' : List NodeId}

/-- A node stands in one place. -/
theorem place_unique (wf : t.WellFormed) (h : t.forest.children p = before ++ i :: after)
    (h' : t.forest.children p' = before' ++ i :: after') :
    p = p' ∧ before = before' ∧ after = after' := by
  have hi : t.forest.parent i = some p := wf.parent_of_child (by simp [IsChild, h])
  have hi' : t.forest.parent i = some p' := wf.parent_of_child (by simp [IsChild, h'])
  obtain rfl : p = p' := Option.some.inj (hi.symm.trans hi')
  have nodup := wf.children_nodup p
  rw [h', List.nodup_middle, List.nodup_cons, List.mem_append, not_or] at nodup
  obtain ⟨⟨fresh, fresh'⟩, -⟩ := nodup
  obtain ⟨hb, -, ha⟩ := (List.append_cons_inj_of_notMem fresh fresh').1 (h'.symm.trans h)
  exact ⟨rfl, hb.symm, ha.symm⟩

/-- What stands between two siblings is determined. -/
theorem between_unique (wf : t.WellFormed) (h : t.forest.Between i mid j)
    (h' : t.forest.Between i mid' j) : mid = mid' := by
  obtain ⟨p, before, after, hc⟩ := h
  obtain ⟨p', before', after', hc'⟩ := h'
  obtain ⟨-, rfl, rest⟩ := wf.place_unique hc hc'
  have regroup : ∀ m a, before ++ i :: (m ++ j :: a) = (before ++ i :: m) ++ j :: a := by simp
  rw [regroup] at hc hc'
  obtain ⟨-, same, -⟩ := wf.place_unique hc hc'
  simpa using same

/-- Every node is a root or has a place among the children of its parent. -/
theorem place_cases (wf : t.WellFormed) (i : NodeId) :
    (t.forest.parent i = none ∧ ∀ p before after, t.forest.children p ≠ before ++ i :: after) ∨
    ∃ p before after, t.forest.parent i = some p ∧ t.forest.children p = before ++ i :: after ∧
      i ∉ before := by
  cases hp : t.forest.parent i with
  | none =>
    refine .inl ⟨rfl, fun p before after hc => ?_⟩
    have := wf.parent_of_child (i := p) (j := i) (by simp [IsChild, hc])
    rw [hp] at this
    cases this
  | some p =>
    obtain ⟨before, after, hc⟩ := List.append_of_mem (wf.child_of_parent hp)
    have nodup := wf.children_nodup p
    rw [hc, List.nodup_middle, List.nodup_cons, List.mem_append, not_or] at nodup
    exact .inr ⟨p, before, after, rfl, hc, nodup.1.1⟩

/-- Every node has a position among its siblings. -/
theorem exists_siblingPosition (wf : t.WellFormed) (i : NodeId) :
    ∃ position, t.forest.siblingPosition i = .ok position := by
  rcases wf.place_cases i with ⟨hp, -⟩ | ⟨p, before, after, hp, hc, fresh⟩
  · exact ⟨_, siblingPosition_of_root hp⟩
  · exact ⟨_, siblingPosition_of_split hp hc fresh⟩

/-- The siblings that follow a node are those behind it that are no alternatives of it. The first
of them has only alternatives of the node in front of it. -/
theorem exists_following (wf : t.WellFormed) (i : NodeId) :
    ∃ l, t.forest.following i = .ok l ∧
      (∀ j, j ∈ l ↔ (∃ mid, t.forest.Between i mid j) ∧ t.forest.areAlternatives i j = false) ∧
      ∀ j, l.head? = some j ↔ ∃ mid, t.forest.Between i mid j ∧
        t.forest.areAlternatives i j = false ∧ ∀ k ∈ mid, t.forest.areAlternatives i k := by
  rcases wf.place_cases i with ⟨hp, nowhere⟩ | ⟨p, before, after, hp, hc, fresh⟩
  · have alone : ∀ mid j, ¬ t.forest.Between i mid j :=
      fun mid j ⟨p, before, after, hc⟩ => nowhere p before _ hc
    refine ⟨[], ?_, by simp [alone], by simp [alone]⟩
    rw [following, siblingPosition_of_root hp]
    rfl
  · have place : ∀ mid j, t.forest.Between i mid j ↔ ∃ rest, after = mid ++ j :: rest := by
      intro mid j
      constructor
      · rintro ⟨p', before', rest, hc'⟩
        exact ⟨rest, (wf.place_unique hc hc').2.2⟩
      · rintro ⟨rest, rfl⟩
        exact ⟨p, before, rest, hc⟩
    refine ⟨after.filter fun j => !t.forest.areAlternatives i j, ?_, fun j => ?_, fun j => ?_⟩
    · rw [following, siblingPosition_of_split hp hc fresh]
      simp [Except.map, List.drop_append]
    · simp only [List.mem_filter, place, Bool.not_eq_true', ← List.mem_iff_append]
    · rw [List.head?_filter, List.find?_eq_some_iff_append]
      simp only [place, Bool.not_eq_true', Bool.not_not]
      grind

/-- The siblings that precede a node are those in front of it that are no alternatives of it. The
nearest of them has only alternatives of the node behind it. -/
theorem exists_preceding (wf : t.WellFormed) (i : NodeId) :
    ∃ l, t.forest.preceding i = .ok l ∧
      (∀ j, j ∈ l ↔ (∃ mid, t.forest.Between j mid i) ∧ t.forest.areAlternatives i j = false) ∧
      ∀ j, l.head? = some j ↔ ∃ mid, t.forest.Between j mid i ∧
        t.forest.areAlternatives i j = false ∧ ∀ k ∈ mid, t.forest.areAlternatives i k := by
  rcases wf.place_cases i with ⟨hp, nowhere⟩ | ⟨p, before, after, hp, hc, fresh⟩
  · have alone : ∀ mid j, ¬ t.forest.Between j mid i :=
      fun mid j ⟨p, before, after, hc⟩ => nowhere p (before ++ j :: mid) after (by simp [hc])
    refine ⟨[], ?_, by simp [alone], by simp [alone]⟩
    rw [preceding, siblingPosition_of_root hp]
    rfl
  · have place : ∀ mid j, t.forest.Between j mid i ↔
        ∃ rest, before.reverse = mid.reverse ++ j :: rest := by
      intro mid j
      constructor
      · rintro ⟨p', before', rest, hc'⟩
        rw [← List.cons_append, ← List.append_assoc] at hc'
        obtain ⟨-, rfl, -⟩ := wf.place_unique hc hc'
        exact ⟨before'.reverse, by simp⟩
      · rintro ⟨rest, h⟩
        have : before = rest.reverse ++ j :: mid := by simpa using congrArg List.reverse h
        exact ⟨p, rest.reverse, after, by simp [hc, this]⟩
    refine ⟨before.reverse.filter fun j => !t.forest.areAlternatives i j, ?_, fun j => ?_,
      fun j => ?_⟩
    · rw [preceding, siblingPosition_of_split hp hc fresh]
      simp [Except.map]
    · simp only [List.mem_filter, place, Bool.not_eq_true']
      rw [List.mem_iff_append]
      refine and_congr_left fun _ => ⟨fun ⟨s, r, h⟩ => ⟨s.reverse, r, by simpa using h⟩, ?_⟩
      rintro ⟨mid, rest, h⟩
      exact ⟨mid.reverse, rest, h⟩
    · rw [List.head?_filter, List.find?_eq_some_iff_append]
      simp only [place, Bool.not_eq_true', Bool.not_not]
      constructor
      · rintro ⟨hj, s, rest, h, halt⟩
        exact ⟨s.reverse, ⟨rest, by simpa using h⟩, hj, by simpa using halt⟩
      · rintro ⟨mid, ⟨rest, h⟩, hj, halt⟩
        exact ⟨hj, mid.reverse, rest, h, by simpa using halt⟩

end Template.WellFormed

end NestedStyles
