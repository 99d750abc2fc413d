import NestedStyles.Proofs.Match.Directions

/-!
# The adjacent sibling in both directions

The next sibling is read from the siblings a node has when it is shown itself, and so is the one
before. The two need not belong together: where other branches of the chain of `i` stand between `i`
and `j`, they are out of the way for `i` but not for `j`. `SeenOnlyFrom` names this place, and it is
the only one where the two directions of `X + Y` part (`adjacent_differs_iff`).
-/

namespace NestedStyles

open Forest Linked

namespace Forest

/-- `j` is the first of the siblings that follow `i`. -/
def IsNext (f : Forest) (i j : NodeId) : Prop :=
  (f.following i).map List.head? = .ok (some j)

/-- `i` is the first of the siblings that precede `j`. -/
def IsPrevious (f : Forest) (j i : NodeId) : Prop :=
  (f.preceding j).map List.head? = .ok (some i)

/-- Both nodes are tagged as branches of one chain. -/
def SameChain (f : Forest) (i j : NodeId) : Prop :=
  ∃ a b, (f.label i).conditional = some a ∧ (f.label j).conditional = some b ∧ a.chain = b.chain

/-- Between `i` and its sibling `j` stand other branches of the chain of `i` and nothing else, and
`j` is no branch of that chain. -/
def SeenOnlyFrom (f : Forest) (i : NodeId) (mid : List NodeId) (j : NodeId) : Prop :=
  mid ≠ [] ∧ (∀ m ∈ mid, f.areAlternatives i m) ∧ ¬ f.SameChain i j

variable {f : Forest} {i j k : NodeId} {mid : List NodeId}

theorem areAlternatives_iff : f.areAlternatives i j = true ↔
    ∃ a b, (f.label i).conditional = some a ∧ (f.label j).conditional = some b ∧
      a.chain = b.chain ∧ a.branch ≠ b.branch := by
  unfold areAlternatives
  cases (f.label i).conditional <;> cases (f.label j).conditional <;>
    simp [Conditional.excludes]

theorem sameChain_of_areAlternatives (h : f.areAlternatives i j = true) : f.SameChain i j := by
  obtain ⟨a, b, ha, hb, hab, -⟩ := areAlternatives_iff.1 h
  exact ⟨a, b, ha, hb, hab⟩

/-- Alternatives of one node belong to one chain. -/
theorem sameChain_of_common (hi : f.areAlternatives i k = true)
    (hj : f.areAlternatives j k = true) :
    f.SameChain i j := by
  obtain ⟨a, c, ha, hc, hac, -⟩ := areAlternatives_iff.1 hi
  obtain ⟨b, c', hb, hc', hbc, -⟩ := areAlternatives_iff.1 hj
  obtain rfl : c = c' := Option.some.inj (hc.symm.trans hc')
  exact ⟨a, b, ha, hb, hac.trans hbc.symm⟩

/-- Nodes in one branch of a chain have the same alternatives. -/
theorem areAlternatives_of_sameChain (h : f.SameChain i j) (hij : f.areAlternatives i j = false)
    (hk : f.areAlternatives i k = true) : f.areAlternatives j k = true := by
  obtain ⟨a, b, ha, hb, hab⟩ := h
  obtain ⟨a', c, ha', hc, hac, hne⟩ := areAlternatives_iff.1 hk
  obtain rfl : a = a' := Option.some.inj (ha.symm.trans ha')
  have branch : a.branch = b.branch := by
    by_contra hne
    rw [areAlternatives_iff.2 ⟨a, b, ha, hb, hab, hne⟩] at hij
    cases hij
  exact areAlternatives_iff.2 ⟨b, c, hb, hc, hab.symm.trans hac, branch ▸ hne⟩

/-- With `i` shown there is nothing between `i` and `j`, and `j` can be shown as well. -/
def Clear (f : Forest) (i : NodeId) (mid : List NodeId) (j : NodeId) : Prop :=
  f.areAlternatives i j = false ∧ ∀ m ∈ mid, f.areAlternatives i m

/-- The space between two nodes is clear for one of them only where it is seen from that one. -/
theorem clear_not_clear_iff : (f.Clear i mid j ∧ ¬ f.Clear j mid i) ↔ f.SeenOnlyFrom i mid j := by
  rw [Clear, Clear, areAlternatives_comm f j i]
  constructor
  · rintro ⟨⟨hij, hall⟩, blocked⟩
    refine ⟨?_, hall, fun same => ?_⟩
    · rintro rfl
      exact blocked ⟨hij, by simp⟩
    · exact blocked ⟨hij, fun m hm => areAlternatives_of_sameChain same hij (hall m hm)⟩
  · rintro ⟨nonempty, hall, other⟩
    have hij : f.areAlternatives i j = false :=
      Bool.eq_false_iff.2 fun h => other (sameChain_of_areAlternatives h)
    refine ⟨⟨hij, hall⟩, fun ⟨_, hall'⟩ => ?_⟩
    obtain ⟨m, hm⟩ := List.exists_mem_of_ne_nil mid nonempty
    exact other (sameChain_of_common (hall m hm) (hall' m hm))

end Forest

namespace Template.WellFormed

variable {t : Template} {i j : NodeId} {mid : List NodeId}

theorem isNext_iff (wf : t.WellFormed) :
    t.forest.IsNext i j ↔ ∃ mid, t.forest.Between i mid j ∧ t.forest.Clear i mid j := by
  obtain ⟨l, hl, -, head⟩ := wf.exists_following i
  simp only [Clear]
  rw [← head, IsNext, hl]
  simp [Except.map]

theorem isPrevious_iff (wf : t.WellFormed) :
    t.forest.IsPrevious j i ↔ ∃ mid, t.forest.Between i mid j ∧ t.forest.Clear j mid i := by
  obtain ⟨l, hl, -, head⟩ := wf.exists_preceding j
  simp only [Clear]
  rw [← head, IsPrevious, hl]
  simp [Except.map]

/-- Between two siblings, one thing and not another: what stands there is determined. -/
theorem between_and_not (wf : t.WellFormed) {P Q : List NodeId → Prop} :
    ((∃ mid, t.forest.Between i mid j ∧ P mid) ∧ ¬ ∃ mid, t.forest.Between i mid j ∧ Q mid) ↔
      ∃ mid, t.forest.Between i mid j ∧ P mid ∧ ¬ Q mid := by
  constructor
  · rintro ⟨⟨mid, between, hP⟩, hQ⟩
    exact ⟨mid, between, hP, fun h => hQ ⟨mid, between, h⟩⟩
  · rintro ⟨mid, between, hP, hQ⟩
    refine ⟨⟨mid, between, hP⟩, ?_⟩
    rintro ⟨mid', between', h⟩
    obtain rfl := wf.between_unique between between'
    exact hQ h

/-- The next sibling of `i` does not have `i` before it just where it is seen from `i` only. -/
theorem isNext_not_isPrevious_iff (wf : t.WellFormed) :
    (t.forest.IsNext i j ∧ ¬ t.forest.IsPrevious j i) ↔
      ∃ mid, t.forest.Between i mid j ∧ t.forest.SeenOnlyFrom i mid j := by
  rw [wf.isNext_iff, wf.isPrevious_iff, wf.between_and_not]
  simp only [clear_not_clear_iff]

/-- The sibling before `j` does not have `j` next to it just where it is seen from `j` only. -/
theorem isPrevious_not_isNext_iff (wf : t.WellFormed) :
    (t.forest.IsPrevious j i ∧ ¬ t.forest.IsNext i j) ↔
      ∃ mid, t.forest.Between i mid j ∧ t.forest.SeenOnlyFrom j mid i := by
  rw [wf.isNext_iff, wf.isPrevious_iff, wf.between_and_not]
  simp only [clear_not_clear_iff]

theorem isNext_iff_leadsTo (wf : t.WellFormed) :
    t.forest.IsNext i j ↔ t.forest.LeadsTo .adjacent i j := by
  rw [wf.isNext_iff, wf.leadsTo_adjacent]
  rfl

theorem isPrevious_iff_leadsFrom (wf : t.WellFormed) :
    t.forest.IsPrevious j i ↔ t.forest.LeadsFrom .adjacent j i := by
  rw [wf.isPrevious_iff, wf.leadsFrom_adjacent]
  rfl

theorem has_of_isNext (wf : t.WellFormed) (h : t.forest.IsNext i j) :
    t.forest.Has i ∧ t.forest.Has j := by
  obtain ⟨mid, between, -⟩ := wf.isNext_iff.1 h
  obtain ⟨p, hi, hj⟩ := between.exists_parent
  exact ⟨wf.has_child hi, wf.has_child hj⟩

end Template.WellFormed

/-- Two conditions ask for `Y` and for an element of `X`, one among `A` and one among `B`. The first
holds without the second just where there is such an element among `A` and none among `B`. -/
theorem exists_and_not_exists_iff {A B X : NodeId → Prop} {Y : Prop} :
    ((Y ∧ ∃ i, A i ∧ X i) ∧ ¬ (Y ∧ ∃ i, B i ∧ X i)) ↔
      Y ∧ (∃ i, (A i ∧ ¬ B i) ∧ X i) ∧ ∀ i, B i → ¬ X i := by
  constructor
  · rintro ⟨⟨hY, i, hA, hX⟩, refused⟩
    have none : ∀ k, B k → ¬ X k := fun k hB hX => refused ⟨hY, k, hB, hX⟩
    exact ⟨hY, ⟨i, ⟨hA, fun hB => none i hB hX⟩, hX⟩, none⟩
  · rintro ⟨hY, ⟨i, ⟨hA, -⟩, hX⟩, none⟩
    exact ⟨⟨hY, i, hA, hX⟩, fun ⟨_, k, hB, hX⟩ => none k hB hX⟩

namespace Branch

variable {s : Scene} {roots : List NodeId} {x y : Compound} {j : NodeId}

/-- `x + y` from the roots selects what stands next to an element of `x`. -/
theorem exists_select_adjacent (wf : (Template.mk s.forest roots).WellFormed) (x y : Compound) :
    ∃ l, Branch.select s ⟨roots, none⟩ ⟨.step (.start .descendant x) .adjacent y, .free⟩ = .ok l ∧
      ∀ j, j ∈ l ↔ Compound.holds s j y = .ok true ∧
        ∃ i, s.forest.IsNext i j ∧ Compound.holds s i x = .ok true := by
  obtain ⟨l, hl, mem⟩ := exists_select_free wf (.step (.start .descendant x) .adjacent y) rfl
  refine ⟨l, hl, fun j => ?_⟩
  rw [mem, Chain.Reaches, and_comm]
  refine and_congr_right fun _ => exists_congr fun i => ?_
  rw [Chain.Reaches, wf.isNext_iff_leadsTo]
  constructor
  · rintro ⟨⟨-, hx⟩, next⟩
    exact ⟨next, hx⟩
  · rintro ⟨next, hx⟩
    exact ⟨⟨(wf.has_of_isNext (wf.isNext_iff_leadsTo.2 next)).1, hx⟩, next⟩

/-- `:is(x + y)` admits what has an element of `x` before it. -/
theorem endsAt_adjacent_iff (wf : (Template.mk s.forest roots).WellFormed) {leading : Combinator}
    (hj : s.forest.Has j) :
    (Chain.step (.start leading x) .adjacent y).endsAt s j = .ok true ↔
      Compound.holds s j y = .ok true ∧
        ∃ i, s.forest.IsPrevious j i ∧ Compound.holds s i x = .ok true := by
  rw [Chain.endsAt_step_iff wf hj]
  simp only [wf.isPrevious_iff_leadsFrom, Chain.endsAt]

/-- Where the two directions of the adjacent sibling part. A node is next to another without having
it before it, or the other way round, just where one of the two sees the other past branches of its
own chain. So `x + y` from the roots selects an element that `:is(x + y)` refuses just where such
branches hide an element of `x` from it and the element it has before it is not of `x`, and likewise
in the other direction. -/
theorem adjacent_differs_iff {t : Template} (wf : t.WellFormed) (cfg : Config)
    (nesting : List NodeId) (x y : Compound) :
    (∀ i j, ¬ (t.forest.IsNext i j ↔ t.forest.IsPrevious j i) ↔ ∃ mid, t.forest.Between i mid j ∧
      (t.forest.SeenOnlyFrom i mid j ∨ t.forest.SeenOnlyFrom j mid i)) ∧
    ∃ l, Branch.select ⟨t.forest, cfg, nesting⟩ ⟨t.roots, none⟩
        ⟨.step (.start .descendant x) .adjacent y, .free⟩ = .ok l ∧
      ∀ j ∈ t.elements,
        ((j ∈ l ∧ (Chain.step (.start .descendant x) .adjacent y).endsAt
            ⟨t.forest, cfg, nesting⟩ j ≠ .ok true) ↔
          Compound.holds ⟨t.forest, cfg, nesting⟩ j y = .ok true ∧
          (∃ i mid, t.forest.Between i mid j ∧ t.forest.SeenOnlyFrom i mid j ∧
            Compound.holds ⟨t.forest, cfg, nesting⟩ i x = .ok true) ∧
          ∀ i, t.forest.IsPrevious j i → Compound.holds ⟨t.forest, cfg, nesting⟩ i x ≠ .ok true) ∧
        ((j ∉ l ∧ (Chain.step (.start .descendant x) .adjacent y).endsAt
            ⟨t.forest, cfg, nesting⟩ j = .ok true) ↔
          Compound.holds ⟨t.forest, cfg, nesting⟩ j y = .ok true ∧
          (∃ i mid, t.forest.Between i mid j ∧ t.forest.SeenOnlyFrom j mid i ∧
            Compound.holds ⟨t.forest, cfg, nesting⟩ i x = .ok true) ∧
          ∀ i, t.forest.IsNext i j → Compound.holds ⟨t.forest, cfg, nesting⟩ i x ≠ .ok true) := by
  refine ⟨fun i j => ?_, ?_⟩
  · simp only [and_or_left, exists_or]
    rw [← wf.isNext_not_isPrevious_iff, ← wf.isPrevious_not_isNext_iff]
    tauto
  · let s : Scene := ⟨t.forest, cfg, nesting⟩
    have wf' : (Template.mk s.forest t.roots).WellFormed := wf
    obtain ⟨l, hl, mem⟩ := exists_select_adjacent wf' x y
    refine ⟨l, hl, fun j hj => ?_⟩
    have has : s.forest.Has j := wf.mem_elements_iff.1 hj
    rw [ne_eq, mem, endsAt_adjacent_iff wf' has]
    constructor
    · rw [exists_and_not_exists_iff]
      simp only [wf.isNext_not_isPrevious_iff, ← exists_and_right, and_assoc, s]
    · rw [and_comm, exists_and_not_exists_iff]
      simp only [wf.isPrevious_not_isNext_iff, ← exists_and_right, and_assoc, s]

/-- Seen from the first heading the paragraph comes next, as the second heading is not shown then.
Seen from the paragraph the second heading stands before it. -/
theorem adjacent_differs_eitherHeading :
    Template.eitherHeading.WellFormed ∧
    ¬ (Template.eitherHeading.forest.IsNext 1 3 ↔ Template.eitherHeading.forest.IsPrevious 3 1) ∧
    ∃ l, Branch.select ⟨Template.eitherHeading.forest, .standard, []⟩
        ⟨Template.eitherHeading.roots, none⟩
        ⟨.step (.start .descendant [.class "a"]) .adjacent [.type "p"], .free⟩ = .ok l ∧
      3 ∈ l ∧ (Chain.step (.start .descendant [.class "a"]) .adjacent [.type "p"]).endsAt
        ⟨Template.eitherHeading.forest, .standard, []⟩ 3 ≠ .ok true := by
  have wf : Template.eitherHeading.WellFormed := Template.wellFormed_ofTrees _
  have between : Template.eitherHeading.forest.Between 1 [2] 3 := ⟨0, [], [], rfl⟩
  have seen : Template.eitherHeading.forest.SeenOnlyFrom 1 [2] 3 := by
    refine ⟨by decide, by decide, ?_⟩
    rintro ⟨a, b, -, hb, -⟩
    cases hb
  obtain ⟨links, l, hl, parts⟩ :=
    adjacent_differs_iff wf .standard [] [.class "a"] [.type "p"]
  refine ⟨wf, (links 1 3).2 ⟨[2], between, .inl seen⟩, l, hl, ?_⟩
  have previous : Template.eitherHeading.forest.IsPrevious 3 2 := rfl
  refine (parts 3 (by decide)).1.2 ⟨by decide, ⟨1, [2], between, seen, by decide⟩, ?_⟩
  intro i hi
  obtain rfl : 2 = i := by
    rw [Forest.IsPrevious] at previous hi
    exact Option.some.inj (Except.ok.inj (previous.symm.trans hi))
  decide

end Branch

end NestedStyles
