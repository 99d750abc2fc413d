import NestedStyles.Proofs.Match.Settled

/-!
# Chains as relations between elements

`Chain.Reaches` says which elements a chain leads to from the elements a predicate admits as its
first. Following a chain forward selects exactly these (`Chain.exists_selectIn`). Looking for its
elements backward is described by the same relation once every combinator means the same in both
directions, which holds for all but the adjacent sibling (`leadsTo_iff_leadsFrom`).
-/

namespace NestedStyles

open Relation Forest Linked

namespace Forest

/-- The combinator leads from `i` to `j`. -/
def LeadsTo (f : Forest) (k : Combinator) (i j : NodeId) : Prop :=
  ∃ l, f.after i k = .ok l ∧ j ∈ l

/-- Looking back from `j` along the combinator `i` is found. -/
def LeadsFrom (f : Forest) (k : Combinator) (j i : NodeId) : Prop :=
  ∃ l, f.before j k = .ok l ∧ i ∈ l

end Forest

namespace Template.WellFormed

variable {t : Template} {k : Combinator} {i j : NodeId}

theorem has_of_leadsTo (wf : t.WellFormed) (h : t.forest.LeadsTo k i j) : t.forest.Has j := by
  obtain ⟨l, hl, hj⟩ := h
  obtain ⟨l', hl', has⟩ := wf.exists_after i k
  rw [hl] at hl'
  cases hl'
  exact has j hj

theorem has_of_leadsFrom (wf : t.WellFormed) (h : t.forest.LeadsFrom k j i) : t.forest.Has i := by
  obtain ⟨l, hl, hi⟩ := h
  obtain ⟨l', hl', has⟩ := wf.exists_before j k
  rw [hl] at hl'
  cases hl'
  exact has i hi

theorem leadsTo_descendant (wf : t.WellFormed) :
    t.forest.LeadsTo .descendant i j ↔ TransGen t.forest.IsChild i j := by
  constructor
  · rintro ⟨l, hl, hj⟩
    cases hl
    obtain ⟨c, hc, hj⟩ := List.mem_flatMap.1 hj
    exact .head' hc (reach_of_mem_subtreeTo hj)
  · intro h
    obtain ⟨c, hc, path⟩ := TransGen.head'_iff.1 h
    exact ⟨_, rfl, List.mem_flatMap.2 ⟨c, hc, (wf.mem_subtree_iff (wf.has_child hc)).2 path⟩⟩

theorem leadsTo_child : t.forest.LeadsTo .child i j ↔ t.forest.IsChild i j :=
  ⟨fun ⟨_, hl, hj⟩ => by cases hl; exact hj, fun h => ⟨_, rfl, h⟩⟩

theorem leadsTo_sibling (wf : t.WellFormed) :
    t.forest.LeadsTo .sibling i j ↔
      (∃ mid, t.forest.Between i mid j) ∧ t.forest.areAlternatives i j = false := by
  obtain ⟨l, hl, mem, -⟩ := wf.exists_following i
  rw [← mem]
  constructor
  · rintro ⟨l', hl', hj⟩
    rw [after, hl] at hl'
    cases hl'
    exact hj
  · exact fun hj => ⟨l, by rw [after, hl], hj⟩

/-- The next sibling has only alternatives of the node in front of it. -/
theorem leadsTo_adjacent (wf : t.WellFormed) :
    t.forest.LeadsTo .adjacent i j ↔ ∃ mid, t.forest.Between i mid j ∧
      t.forest.areAlternatives i j = false ∧ ∀ m ∈ mid, t.forest.areAlternatives i m := by
  obtain ⟨l, hl, -, head⟩ := wf.exists_following i
  have first : t.forest.after i .adjacent = .ok l.head?.toList := by
    rw [after, hl]
    cases l <;> rfl
  rw [← head, LeadsTo, first]
  simp

/-- The sibling before has only alternatives of the node behind it. -/
theorem leadsFrom_adjacent (wf : t.WellFormed) :
    t.forest.LeadsFrom .adjacent j i ↔ ∃ mid, t.forest.Between i mid j ∧
      t.forest.areAlternatives j i = false ∧ ∀ m ∈ mid, t.forest.areAlternatives j m := by
  obtain ⟨l, hl, -, head⟩ := wf.exists_preceding j
  have first : t.forest.before j .adjacent = .ok l.head?.toList := by
    rw [before, hl]
    cases l <;> rfl
  rw [← head, LeadsFrom, first]
  simp

/-- Every combinator but the adjacent sibling means the same in both directions. -/
theorem leadsTo_iff_leadsFrom (wf : t.WellFormed) (hk : k ≠ .adjacent) (hj : t.forest.Has j) :
    t.forest.LeadsTo k i j ↔ t.forest.LeadsFrom k j i := by
  cases k with
  | descendant =>
    rw [wf.leadsTo_descendant, ← wf.mem_ancestors_iff hj]
    exact ⟨fun h => ⟨_, rfl, h⟩, fun ⟨_, hl, h⟩ => by cases hl; exact h⟩
  | child =>
    rw [leadsTo_child, ← wf.parent_eq_some_iff]
    constructor
    · exact fun h => ⟨_, rfl, by simp [h]⟩
    · rintro ⟨l, hl, hi⟩
      cases hl
      simpa using hi
  | adjacent => exact absurd rfl hk
  | sibling =>
    obtain ⟨l, hl, mem, -⟩ := wf.exists_preceding j
    rw [wf.leadsTo_sibling, areAlternatives_comm, ← mem]
    constructor
    · exact fun hi => ⟨l, by rw [before, hl], hi⟩
    · rintro ⟨l', hl', hi⟩
      rw [before, hl] at hl'
      cases hl'
      exact hi

end Template.WellFormed

namespace Chain

/-- `j` is the last of elements that the compounds of the chain admit one after the other, the
first of which satisfies `First`. -/
def Reaches (s : Scene) (First : NodeId → Prop) : Chain → NodeId → Prop
  | start _ compound, j => First j ∧ Compound.holds s j compound = .ok true
  | step previous k compound, j =>
    (∃ i, previous.Reaches s First i ∧ s.forest.LeadsTo k i j) ∧
      Compound.holds s j compound = .ok true

/-- The combinators between the compounds. -/
def combinators : Chain → List Combinator
  | start _ _ => []
  | step previous k _ => previous.combinators ++ [k]

variable {s : Scene} {roots : List NodeId} {First : NodeId → Prop} {j : NodeId}

theorem Reaches.imp {First' : NodeId → Prop} {c : Chain} (h : c.Reaches s First j)
    (himp : ∀ i, First i → First' i) : c.Reaches s First' j := by
  induction c using combinators.induct generalizing j with
  | case1 => exact ⟨himp j h.1, h.2⟩
  | case2 previous k compound ih =>
    obtain ⟨⟨i, hi, step⟩, holds⟩ := h
    exact ⟨⟨i, ih hi, step⟩, holds⟩

theorem Reaches.has (wf : (Template.mk s.forest roots).WellFormed)
    (hFirst : ∀ i, First i → s.forest.Has i) {c : Chain} (h : c.Reaches s First j) :
    s.forest.Has j := by
  cases c with
  | start => exact hFirst j h.1
  | step => exact wf.has_of_leadsTo h.1.choose_spec.2

/-- Following a chain in a scope selects the elements it reaches from those in the scope. -/
theorem exists_selectIn (wf : (Template.mk s.forest roots).WellFormed) {scope : Scope}
    {anchored : Bool} (c : Chain)
    (hg : ∀ g ∈ scope.starts s.forest anchored c.leading,
      ∃ l, g = .ok l ∧ ∀ i ∈ l, s.forest.Has i) :
    ∃ l, c.selectIn s scope anchored = .ok l ∧ ∀ j, j ∈ l ↔ c.Reaches s
      (fun i => ∃ g ∈ scope.starts s.forest anchored c.leading, ∃ l, g = .ok l ∧ i ∈ l) j := by
  induction c using combinators.induct with
  | case1 leading compound =>
    exact exists_gather hg fun j hj => Compound.settled wf hj compound
  | case2 previous k compound ih =>
    obtain ⟨reached, hr, mem⟩ := ih hg
    obtain ⟨l, hl, mem'⟩ := exists_gather_after wf reached k
      fun j hj => Compound.settled wf hj compound
    refine ⟨l, by rw [selectIn, hr]; exact hl, fun j => ?_⟩
    rw [mem', Reaches]
    refine and_congr_left fun _ => exists_congr fun i => and_congr_left fun _ => ?_
    exact mem i

/-- The last element of a chain, looking back one compound. -/
theorem endsAt_step_iff (wf : (Template.mk s.forest roots).WellFormed) {previous : Chain}
    {k : Combinator} {compound : Compound} (hj : s.forest.Has j) :
    (step previous k compound).endsAt s j = .ok true ↔
      Compound.holds s j compound = .ok true ∧
        ∃ i, s.forest.LeadsFrom k j i ∧ previous.endsAt s i = .ok true := by
  obtain ⟨b, hb⟩ := Compound.settled wf hj compound
  obtain ⟨l, hl, has⟩ := wf.exists_before j k
  have found := anyM_eq fun i hi => Chain.settled wf (has i hi) previous
  have back : ∀ i, s.forest.LeadsFrom k j i ↔ i ∈ l :=
    fun i => ⟨fun ⟨l', hl', hi⟩ => by cases hl.symm.trans hl'; exact hi, fun hi => ⟨l, hl, hi⟩⟩
  rw [Chain.endsAt, hb]
  cases b with
  | false => simp [bind, Except.bind, pure, Except.pure]
  | true =>
    change (s.forest.before j k >>= fun l => l.anyM fun i => Chain.endsAt s i previous) = _ ↔ _
    rw [hl]
    change l.anyM _ = _ ↔ _
    rw [found]
    simp [isTrue_iff, back]

/-- A chain without adjacent siblings ends where it leads to from any element. -/
theorem endsAt_iff_reaches (wf : (Template.mk s.forest roots).WellFormed) {c : Chain}
    (hc : .adjacent ∉ c.combinators) (hj : s.forest.Has j) :
    c.endsAt s j = .ok true ↔ c.Reaches s s.forest.Has j := by
  induction c using combinators.induct generalizing j with
  | case1 leading compound => exact (and_iff_right hj).symm
  | case2 previous k compound ih =>
    rw [combinators, List.mem_append, not_or] at hc
    have hk : k ≠ .adjacent := fun h => hc.2 (by simp [h])
    rw [endsAt_step_iff wf hj, Reaches, and_comm]
    refine and_congr_left fun _ => exists_congr fun i => ?_
    rw [← wf.leadsTo_iff_leadsFrom hk hj, and_comm]
    refine and_congr_left fun step => ih hc.1 ?_
    exact wf.has_of_leadsFrom ((wf.leadsTo_iff_leadsFrom hk hj).1 step)

end Chain

end NestedStyles
