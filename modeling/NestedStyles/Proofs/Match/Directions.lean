import NestedStyles.Proofs.Match.Reach
import NestedStyles.Proofs.Template.Numbering

/-!
# Chains select the same elements in both directions

`Branch.select` follows a chain forward and narrows what it has reached, whereas `:is` and a branch
with `&` inside look for the elements of a chain backward. For chains without adjacent siblings the
two agree: from the roots of a template with `:is`, and from the elements of an enclosing rule with
the branch that holds `&` in its first compound (`select_iff_endsAt`).
-/

namespace NestedStyles

open Relation Forest Linked

/-! ## The tree a node belongs to -/

namespace Template.WellFormed

variable {t : Template} {i j r : NodeId} {k : Combinator}

theorem nodup_ancestorsTo (wf : t.WellFormed) (height : Nat) (i : NodeId) :
    (i :: t.forest.ancestorsTo height i).Nodup := by
  have below : ∀ i height, i ∉ t.forest.ancestorsTo height i :=
    fun i height h => wf.acyclic i (wf.reach_of_mem_ancestorsTo h)
  refine List.nodup_cons.2 ⟨below i height, ?_⟩
  induction height generalizing i with
  | zero => exact .nil
  | succ height ih =>
    cases hp : t.forest.parent i with
    | none => simp [ancestorsTo, hp]
    | some p =>
      simp only [ancestorsTo, hp]
      exact List.nodup_cons.2 ⟨below p height, ih p⟩

theorem has_of_mem_ancestors (wf : t.WellFormed) (h : j ∈ t.forest.ancestors i) :
    t.forest.Has j := by
  obtain ⟨c, hc, -⟩ := TransGen.head'_iff.1 (wf.reach_of_mem_ancestorsTo h)
  exact has_of_isChild hc

/-- Going up until the bound is not reached ends at a node without parent. -/
theorem parent_getLastD_ancestorsTo {f : Forest} {height : Nat} {i : NodeId}
    (h : (f.ancestorsTo height i).length < height) :
    f.parent ((f.ancestorsTo height i).getLastD i) = none := by
  induction height generalizing i with
  | zero => cases h
  | succ height ih =>
    cases hp : f.parent i with
    | none => simp [ancestorsTo, hp]
    | some p =>
      simp only [ancestorsTo, hp, List.length_cons, Nat.add_lt_add_iff_right] at h ⊢
      rw [List.getLastD_cons]
      exact ih h

/-- The root above a node has no parent, and the node lies in its subtree. -/
theorem rootOf_spec (wf : t.WellFormed) (hi : t.forest.Has i) :
    t.forest.parent (t.forest.rootOf i) = none ∧ t.forest.Has (t.forest.rootOf i) ∧
      ReflTransGen t.forest.IsChild (t.forest.rootOf i) i := by
  have all : ∀ j ∈ i :: t.forest.ancestors i, t.forest.Has j := by
    rintro j (_ | ⟨_, hj⟩)
    · exact hi
    · exact wf.has_of_mem_ancestors hj
  have short := length_le_of_nodup (wf.nodup_ancestorsTo t.forest.nodes.length i) all
  rw [List.length_cons] at short
  have mem : t.forest.rootOf i ∈ i :: t.forest.ancestors i := by
    rw [rootOf, List.getLastD_eq_getLast?]
    cases h : (t.forest.ancestors i).getLast? with
    | none => exact List.mem_cons_self
    | some a => exact List.mem_cons_of_mem _ (List.mem_of_getLast? h)
  refine ⟨parent_getLastD_ancestorsTo short, all _ mem, ?_⟩
  rcases List.mem_cons.1 mem with h | h
  · rw [h]
  · exact (wf.reach_of_mem_ancestorsTo h).to_reflTransGen

/-- Two siblings lie below the same nodes. -/
theorem reach_of_between (wf : t.WellFormed) {mid : List NodeId} (hr : t.forest.parent r = none)
    (path : ReflTransGen t.forest.IsChild r i) (h : t.forest.Between i mid j) :
    ReflTransGen t.forest.IsChild r j := by
  obtain ⟨p, hi, hj⟩ := h.exists_parent
  have hp := wf.parent_of_child hi
  rcases path.cases_tail with rfl | ⟨q, path, hq⟩
  · rw [hr] at hp
    cases hp
  · obtain rfl : q = p := Option.some.inj ((wf.parent_of_child hq).symm.trans hp)
    exact path.tail hj

/-- A combinator does not lead out of a tree. -/
theorem reach_of_leadsTo (wf : t.WellFormed) (hr : t.forest.parent r = none)
    (path : ReflTransGen t.forest.IsChild r i) (h : t.forest.LeadsTo k i j) :
    ReflTransGen t.forest.IsChild r j := by
  cases k with
  | descendant => exact path.trans (wf.leadsTo_descendant.1 h).to_reflTransGen
  | child => exact path.tail (leadsTo_child.1 h)
  | adjacent =>
    obtain ⟨mid, between, -⟩ := wf.leadsTo_adjacent.1 h
    exact wf.reach_of_between hr path between
  | sibling =>
    obtain ⟨⟨mid, between⟩, -⟩ := wf.leadsTo_sibling.1 h
    exact wf.reach_of_between hr path between

end Template.WellFormed

/-! ## Conditions on the elements that `&` stands for -/

theorem Compound.holds_cons_iff {s : Scene} {j : NodeId} {x : Simple} {xs : List Simple} :
    Compound.holds s j (x :: xs) = .ok true ↔
      x.holds s j = .ok true ∧ Compound.holds s j xs = .ok true := by
  rw [Compound.holds]
  cases x.holds s j with
  | error e => simp [bind, Except.bind]
  | ok b => cases b <;> simp [bind, Except.bind, pure, Except.pure]

theorem Simple.holds_nesting_iff {s : Scene} {j : NodeId} :
    Simple.nesting.holds s j = .ok true ↔ j ∈ s.nesting := by
  simp [Simple.holds]

theorem Compound.mem_nesting_of_holds {s : Scene} {j : NodeId} {xs : List Simple}
    (hx : xs.any Simple.isNesting) (h : Compound.holds s j xs = .ok true) : j ∈ s.nesting := by
  induction xs with
  | nil => cases hx
  | cons x xs ih =>
    rw [Compound.holds_cons_iff] at h
    rw [List.any_cons, Bool.or_eq_true] at hx
    rcases hx with hx | hx
    · cases x <;> first | exact Simple.holds_nesting_iff.1 h.1 | cases hx
    · exact ih hx h.2

namespace Chain

variable {s : Scene} {roots : List NodeId} {First : NodeId → Prop} {j : NodeId}

/-- The chain whose first element has to be one that `&` stands for. -/
def withNesting : Chain → Chain
  | start leading compound => start leading (.nesting :: compound)
  | step previous k compound => step previous.withNesting k compound

theorem combinators_withNesting (c : Chain) : c.withNesting.combinators = c.combinators := by
  induction c using combinators.induct with
  | case1 => rfl
  | case2 previous k compound ih => rw [withNesting, combinators, ih, combinators]

theorem reaches_withNesting {c : Chain} :
    c.withNesting.Reaches s First j ↔ c.Reaches s (fun i => First i ∧ i ∈ s.nesting) j := by
  induction c using combinators.induct generalizing j with
  | case1 leading compound =>
    rw [withNesting, Reaches, Reaches, Compound.holds_cons_iff, Simple.holds_nesting_iff, and_assoc]
  | case2 previous k compound ih =>
    rw [withNesting, Reaches, Reaches]
    simp only [ih]

theorem Reaches.subject {c : Chain} (h : c.Reaches s First j) :
    Compound.holds s j c.subject = .ok true := by
  cases c with
  | start => exact h.2
  | step => exact h.2

/-- A chain stays in the trees of the elements it starts from. -/
theorem Reaches.reach_rootOf (wf : (Template.mk s.forest roots).WellFormed) {anchors : List NodeId}
    (has : ∀ a ∈ anchors, s.forest.Has a) {c : Chain} (h : c.Reaches s (· ∈ anchors) j) :
    ∃ a ∈ anchors, ReflTransGen s.forest.IsChild (s.forest.rootOf a) j := by
  induction c using combinators.induct generalizing j with
  | case1 => exact ⟨j, h.1, (wf.rootOf_spec (has j h.1)).2.2⟩
  | case2 previous k compound ih =>
    obtain ⟨i, hi, step⟩ := h.1
    obtain ⟨a, ha, path⟩ := ih hi
    exact ⟨a, ha, wf.reach_of_leadsTo (wf.rootOf_spec (has a ha)).1 path step⟩

/-- Where `&` stands for elements of the forest, such a chain leads to what the chain leads to from
those elements. -/
theorem reaches_withNesting_iff {anchors : List NodeId} (nesting : s.nesting = anchors)
    (has : ∀ a ∈ anchors, s.forest.Has a) {c : Chain} :
    c.withNesting.Reaches s s.forest.Has j ↔ c.Reaches s (· ∈ anchors) j := by
  rw [reaches_withNesting, nesting]
  constructor
  · exact fun h => h.imp fun _ hi => hi.2
  · exact fun h => h.imp fun i hi => ⟨has i hi, hi⟩

/-- A chain without adjacent siblings leads to those elements of the template at which it is found
backward. -/
theorem reaches_iff_endsAt {t : Template} {cfg : Config} {nesting : List NodeId}
    (wf : t.WellFormed) {c : Chain} (hc : .adjacent ∉ c.combinators) :
    c.Reaches ⟨t.forest, cfg, nesting⟩ t.forest.Has j ↔
      j ∈ t.elements ∧ c.endsAt ⟨t.forest, cfg, nesting⟩ j = .ok true := by
  let s : Scene := ⟨t.forest, cfg, nesting⟩
  have wf' : (Template.mk s.forest t.roots).WellFormed := wf
  rw [wf.mem_elements_iff]
  constructor
  · intro h
    have has : s.forest.Has j := h.has wf' fun _ hi => hi
    exact ⟨has, (endsAt_iff_reaches wf' hc has).2 h⟩
  · exact fun h => (endsAt_iff_reaches wf' hc h.1).1 h.2

/-- `:is` with one chain in it admits the elements at which the chain is found backward. -/
theorem holds_among_iff (wf : (Template.mk s.forest roots).WellFormed) (has : s.forest.Has j)
    (c : Chain) : Compound.holds s j [.among [c]] = .ok true ↔ c.endsAt s j = .ok true := by
  obtain ⟨b, hb⟩ := Chain.settled wf has c
  rw [Compound.holds_cons_iff, Simple.holds, anyEndsAt, hb]
  cases b <;> simp [bind, Except.bind, pure, Except.pure, Compound.holds, anyEndsAt]

theorem has_of_mem_candidates (wf : (Template.mk s.forest roots).WellFormed) {scope : Scope}
    (has : ∀ a ∈ scope.anchors, s.forest.Has a) {c : Chain} (h : j ∈ c.candidates s scope) :
    s.forest.Has j := by
  unfold candidates at h
  split at h
  · exact has j h
  · obtain ⟨r, hr, h⟩ := List.mem_flatMap.1 h
    obtain ⟨a, ha, rfl⟩ := List.mem_map.1 (List.mem_eraseDups.1 hr)
    exact wf.has_of_reach (reach_of_mem_subtreeTo h) (wf.rootOf_spec (has a ha)).2.1

/-- The elements a chain leads to from the elements that `&` stands for are candidates. -/
theorem mem_candidates (wf : (Template.mk s.forest roots).WellFormed) {scope : Scope}
    (nesting : s.nesting = scope.anchors) (has : ∀ a ∈ scope.anchors, s.forest.Has a) {c : Chain}
    (h : c.Reaches s (· ∈ scope.anchors) j) : j ∈ c.candidates s scope := by
  unfold candidates
  split
  case isTrue hs => exact nesting ▸ Compound.mem_nesting_of_holds hs h.subject
  case isFalse =>
    obtain ⟨a, ha, path⟩ := h.reach_rootOf wf has
    refine List.mem_flatMap.2 ⟨s.forest.rootOf a, ?_, ?_⟩
    · exact List.mem_eraseDups.2 (List.mem_map_of_mem ha)
    · exact (wf.mem_subtree_iff (wf.rootOf_spec (has a ha)).2.1).2 path

end Chain

/-! ## Branches -/

namespace Branch

variable {s : Scene} {roots : List NodeId} {scope : Scope}

/-- A branch that starts anywhere selects what the chain reaches from the nodes of the forest. -/
theorem exists_select_free (wf : (Template.mk s.forest roots).WellFormed) (c : Chain)
    (leading : c.leading = .descendant) :
    ∃ l, Branch.select s ⟨roots, none⟩ ⟨c, .free⟩ = .ok l ∧
      ∀ j, j ∈ l ↔ c.Reaches s s.forest.Has j := by
  have groups : ∀ g ∈ (Scope.mk roots none).starts s.forest false c.leading,
      ∃ l, g = .ok l ∧ ∀ i ∈ l, s.forest.Has i := by
    rw [leading]
    intro g hg
    obtain ⟨r, hr, rfl⟩ := List.mem_map.1 hg
    exact ⟨_, rfl, fun i hi => wf.has_of_reach (reach_of_mem_subtreeTo hi) (wf.has_root hr)⟩
  obtain ⟨l, hl, mem⟩ := c.exists_selectIn wf groups
  refine ⟨l, hl, fun j => ?_⟩
  have first : ∀ i, (∃ g ∈ (Scope.mk roots none).starts s.forest false c.leading,
      ∃ l, g = .ok l ∧ i ∈ l) ↔ s.forest.Has i := by
    intro i
    rw [leading]
    simp only [Scope.starts, Bool.false_eq_true, if_false, List.mem_map, exists_exists_and_eq_and,
      Except.ok.injEq, exists_eq_left']
    rw [← wf.mem_elements_iff, Template.elements, List.mem_flatMap]
  rw [mem]
  simp only [first]

/-- A branch that starts with `&` selects what the chain reaches from the elements it stands for. -/
theorem exists_select_anchored (wf : (Template.mk s.forest roots).WellFormed)
    (has : ∀ a ∈ scope.anchors, s.forest.Has a) (c : Chain) :
    ∃ l, Branch.select s scope ⟨c, .anchored⟩ = .ok l ∧
      ∀ j, j ∈ l ↔ c.Reaches s (· ∈ scope.anchors) j := by
  have groups : ∀ g ∈ scope.starts s.forest true c.leading,
      ∃ l, g = .ok l ∧ ∀ i ∈ l, s.forest.Has i := by
    intro g hg
    obtain rfl := List.mem_singleton.1 hg
    exact ⟨_, rfl, has⟩
  obtain ⟨l, hl, mem⟩ := c.exists_selectIn wf groups
  refine ⟨l, hl, fun j => ?_⟩
  rw [mem]
  simp [Scope.starts]

/-- A branch with `&` inside selects the candidates at which its chain ends. -/
theorem exists_select_contextual (wf : (Template.mk s.forest roots).WellFormed)
    (has : ∀ a ∈ scope.anchors, s.forest.Has a) (c : Chain) :
    ∃ l, Branch.select s scope ⟨c, .contextual⟩ = .ok l ∧
      ∀ j, j ∈ l ↔ j ∈ c.candidates s scope ∧ c.endsAt s j = .ok true := by
  have settled : ∀ j ∈ c.candidates s scope, (c.endsAt s j).Settled :=
    fun j hj => Chain.settled wf (Chain.has_of_mem_candidates wf has hj) c
  refine ⟨_, filterM_eq settled, fun j => ?_⟩
  rw [List.mem_filter, isTrue_iff]

/-- Following a chain without adjacent siblings forward selects the elements at which it is found
backward: from the roots those that `:is` admits, and from the elements that `&` stands for those
that the branch with `&` in its first compound selects. -/
theorem select_iff_endsAt {t : Template} (wf : t.WellFormed) (cfg : Config) (c : Chain)
    (hc : .adjacent ∉ c.combinators) :
    (c.leading = .descendant → ∀ nesting, ∃ l l',
      Branch.select ⟨t.forest, cfg, nesting⟩ ⟨t.roots, none⟩ ⟨c, .free⟩ = .ok l ∧
      Branch.select ⟨t.forest, cfg, nesting⟩ ⟨t.roots, none⟩
        ⟨.start .descendant [.among [c]], .free⟩ = .ok l' ∧
      ∀ j, (j ∈ l ↔ j ∈ t.elements ∧ c.endsAt ⟨t.forest, cfg, nesting⟩ j = .ok true) ∧
        (j ∈ l ↔ j ∈ l')) ∧
    (∀ scope : Scope, (∀ a ∈ scope.anchors, a ∈ t.elements) → ∃ l l',
      Branch.select ⟨t.forest, cfg, scope.anchors⟩ scope ⟨c, .anchored⟩ = .ok l ∧
      Branch.select ⟨t.forest, cfg, scope.anchors⟩ scope ⟨c.withNesting, .contextual⟩ = .ok l' ∧
      ∀ j, j ∈ l ↔ j ∈ l') := by
  constructor
  · intro leading nesting
    let s : Scene := ⟨t.forest, cfg, nesting⟩
    have wf' : (Template.mk s.forest t.roots).WellFormed := wf
    obtain ⟨l, hl, mem⟩ := exists_select_free wf' c leading
    obtain ⟨l', hl', mem'⟩ := exists_select_free wf' (.start .descendant [.among [c]]) rfl
    have backward : ∀ j, j ∈ l ↔ j ∈ t.elements ∧ c.endsAt s j = .ok true :=
      fun j => (mem j).trans (Chain.reaches_iff_endsAt wf hc)
    refine ⟨l, l', hl, hl', fun j => ⟨backward j, ?_⟩⟩
    rw [backward, mem', wf.mem_elements_iff, Chain.Reaches]
    exact and_congr_right fun has => (Chain.holds_among_iff wf' has c).symm
  · intro scope hscope
    let s : Scene := ⟨t.forest, cfg, scope.anchors⟩
    have wf' : (Template.mk s.forest t.roots).WellFormed := wf
    have has : ∀ a ∈ scope.anchors, s.forest.Has a :=
      fun a ha => wf.mem_elements_iff.1 (hscope a ha)
    obtain ⟨l, hl, mem⟩ := exists_select_anchored wf' has c
    obtain ⟨l', hl', mem'⟩ := exists_select_contextual wf' has c.withNesting
    refine ⟨l, l', hl, hl', fun j => ?_⟩
    have same : c.withNesting.Reaches s s.forest.Has j ↔ c.Reaches s (· ∈ scope.anchors) j :=
      Chain.reaches_withNesting_iff rfl has
    have hc' : .adjacent ∉ c.withNesting.combinators := by rwa [Chain.combinators_withNesting]
    rw [mem, mem']
    constructor
    · intro h
      have hj := h.has wf' has
      refine ⟨?_, (Chain.endsAt_iff_reaches wf' hc' hj).2 (same.2 h)⟩
      refine Chain.mem_candidates wf' rfl has (Chain.reaches_withNesting.2 ?_)
      exact h.imp fun i hi => ⟨hi, hi⟩
    · rintro ⟨hcand, h⟩
      have hj := Chain.has_of_mem_candidates wf' has hcand
      exact same.1 ((Chain.endsAt_iff_reaches wf' hc' hj).1 h)

end Branch

/-- A section with two headings, of which one is shown, and a paragraph. -/
def Template.eitherHeading : Template :=
  .ofTrees [.node { Label.blank with tag := "section" }
    [.node { Label.blank with tag := "h2", classes := ["a"], conditional := some ⟨1, 0⟩ } [],
      .node { Label.blank with tag := "h2", conditional := some ⟨1, 1⟩ } [],
      .node { Label.blank with tag := "p" } []]]

/-- `section h2 ~ p` from the roots, and the same below both headings. -/
theorem Branch.select_eitherHeading :
    Template.eitherHeading.WellFormed ∧
    (∃ l l',
      Branch.select ⟨Template.eitherHeading.forest, .standard, []⟩
        ⟨Template.eitherHeading.roots, none⟩ ⟨.step (.step (.start .descendant
          [.type "section"]) .descendant [.type "h2"]) .sibling [.type "p"], .free⟩ = .ok l ∧
      Branch.select ⟨Template.eitherHeading.forest, .standard, []⟩
        ⟨Template.eitherHeading.roots, none⟩ ⟨.start .descendant [.among [.step (.step (.start
          .descendant [.type "section"]) .descendant [.type "h2"]) .sibling [.type "p"]]],
          .free⟩ = .ok l' ∧
      3 ∈ l ∧ 3 ∈ l') ∧
    ∃ l l',
      Branch.select ⟨Template.eitherHeading.forest, .standard, [1, 2]⟩ ⟨[], some [1, 2]⟩
        ⟨.step (.start .descendant [.type "h2"]) .sibling [.type "p"], .anchored⟩ = .ok l ∧
      Branch.select ⟨Template.eitherHeading.forest, .standard, [1, 2]⟩ ⟨[], some [1, 2]⟩
        ⟨.step (.start .descendant [.nesting, .type "h2"]) .sibling [.type "p"], .contextual⟩ =
          .ok l' ∧
      ∀ j, j ∈ l ↔ j ∈ l' := by
  have wf : Template.eitherHeading.WellFormed := Template.wellFormed_ofTrees _
  refine ⟨wf, ?_, ?_⟩
  · obtain ⟨l, l', hl, hl', agree⟩ := (select_iff_endsAt wf .standard (.step (.step (.start
      .descendant [.type "section"]) .descendant [.type "h2"]) .sibling [.type "p"])
      (by decide)).1 rfl []
    have found : 3 ∈ l := (agree 3).1.2 ⟨by decide, by decide⟩
    exact ⟨l, l', hl, hl', found, (agree 3).2.1 found⟩
  · exact (select_iff_endsAt wf .standard
      (.step (.start .descendant [.type "h2"]) .sibling [.type "p"]) (by decide)).2
      ⟨[], some [1, 2]⟩ (by decide)

end NestedStyles
