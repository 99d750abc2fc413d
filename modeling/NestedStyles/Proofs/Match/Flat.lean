import NestedStyles.Proofs.Match.Directions

/-!
# Branches that go on where others end

`Branch.nest` writes a branch and a branch nested in it as one: the segments of the nested one
follow, and where it starts with `&` its first compound is added to the last one in front of it. The
nested branch, started at each element of the outer one, selects what the joined branch selects
(`Branch.selectsIn_nest`).

What a chain selects depends on the elements that `&` stands for only if it mentions them
(`Chain.reaches_congr`).
-/

namespace NestedStyles

open Relation Forest Linked

/-! ## Joining chains -/

namespace Chain

/-- The chain with more conditions on its last element. -/
def also (more : Compound) : Chain → Chain
  | start leading compound => start leading (compound ++ more)
  | step previous k compound => step previous k (compound ++ more)

/-- The chain with the segments of another one behind it. -/
def followedBy (c : Chain) : Chain → Chain
  | start leading compound => step c leading compound
  | step previous k compound => step (c.followedBy previous) k compound

/-- The chain that goes on with another one from its own last element. -/
def mergedWith (c : Chain) : Chain → Chain
  | start _ compound => c.also compound
  | step previous k compound => step (c.mergedWith previous) k compound

@[simp] theorem segments_followedBy (c d : Chain) :
    (c.followedBy d).segments = c.segments ++ d.segments := by
  induction d using segments.induct with
  | case1 leading compound => simp [followedBy, segments]
  | case2 previous k compound ih => simp [followedBy, segments, ih]

@[simp] theorem leading_also (c : Chain) (more : Compound) : (c.also more).leading = c.leading := by
  cases c <;> rfl

@[simp] theorem leading_followedBy (c d : Chain) : (c.followedBy d).leading = c.leading := by
  induction d using segments.induct with
  | case1 => rfl
  | case2 previous k compound ih => simp only [followedBy, leading, ih]

@[simp] theorem leading_mergedWith (c d : Chain) : (c.mergedWith d).leading = c.leading := by
  induction d using segments.induct with
  | case1 => exact leading_also c _
  | case2 previous k compound ih => simp only [mergedWith, leading, ih]

end Chain

theorem Compound.holds_append_iff {s : Scene} {j : NodeId} {xs ys : Compound} :
    Compound.holds s j (xs ++ ys) = .ok true ↔
      Compound.holds s j xs = .ok true ∧ Compound.holds s j ys = .ok true := by
  induction xs with
  | nil => simp [Compound.holds]
  | cons x xs ih => rw [List.cons_append, holds_cons_iff, holds_cons_iff, ih, and_assoc]

namespace Chain

variable {s : Scene} {First : NodeId → Prop} {j : NodeId}

theorem reaches_also {c : Chain} {more : Compound} :
    (c.also more).Reaches s First j ↔
      c.Reaches s First j ∧ Compound.holds s j more = .ok true := by
  cases c <;> simp only [also, Reaches, Compound.holds_append_iff, and_assoc]

/-- A chain behind another one starts where a combinator leads to from the end of that one. -/
theorem reaches_followedBy {c d : Chain} :
    (c.followedBy d).Reaches s First j ↔
      ∃ i, c.Reaches s First i ∧ d.Reaches s (s.forest.LeadsTo d.leading i) j := by
  induction d using segments.induct generalizing j with
  | case1 leading compound =>
    simp only [followedBy, Reaches, Chain.leading]
    constructor
    · rintro ⟨⟨i, hi, leads⟩, holds⟩
      exact ⟨i, hi, leads, holds⟩
    · rintro ⟨i, hi, leads, holds⟩
      exact ⟨⟨i, hi, leads⟩, holds⟩
  | case2 previous k compound ih =>
    simp only [followedBy, Reaches, Chain.leading, ih]
    constructor
    · rintro ⟨⟨m, ⟨i, hi, inner⟩, leads⟩, holds⟩
      exact ⟨i, hi, ⟨m, inner, leads⟩, holds⟩
    · rintro ⟨i, hi, ⟨m, inner, leads⟩, holds⟩
      exact ⟨⟨m, ⟨i, hi, inner⟩, leads⟩, holds⟩

/-- A chain merged into another one starts at the end of that one. -/
theorem reaches_mergedWith {c d : Chain} :
    (c.mergedWith d).Reaches s First j ↔
      ∃ i, c.Reaches s First i ∧ d.Reaches s (· = i) j := by
  induction d using segments.induct generalizing j with
  | case1 leading compound =>
    simp only [mergedWith, reaches_also, Reaches]
    constructor
    · rintro ⟨hj, holds⟩
      exact ⟨j, hj, rfl, holds⟩
    · rintro ⟨i, hi, rfl, holds⟩
      exact ⟨hi, holds⟩
  | case2 previous k compound ih =>
    simp only [mergedWith, Reaches, ih]
    constructor
    · rintro ⟨⟨m, ⟨i, hi, inner⟩, leads⟩, holds⟩
      exact ⟨i, hi, ⟨m, inner, leads⟩, holds⟩
    · rintro ⟨i, hi, ⟨m, inner, leads⟩, holds⟩
      exact ⟨⟨m, ⟨i, hi, inner⟩, leads⟩, holds⟩

end Chain

/-! ## Branches in a scope -/

namespace Scope

/-- Below one element of the enclosing rule. -/
abbrev within (f : Forest) (i : NodeId) : Scope :=
  ⟨f.children i, some [i]⟩

/-- The first element of a branch may be this one. -/
def Starts (scope : Scope) (f : Forest) (b : Branch) (j : NodeId) : Prop :=
  ∃ g ∈ scope.starts f (b.anchoring == .anchored) b.chain.leading, ∃ l, g = .ok l ∧ j ∈ l

/-- The elements to look at and those that `&` stands for belong to the forest. -/
structure Inside (scope : Scope) (f : Forest) : Prop where
  elements : ∀ i ∈ scope.elements, f.Has i
  anchors : ∀ i ∈ scope.anchors, f.Has i

variable {t : Template} {i j : NodeId} {b : Branch}

theorem inside_roots (wf : t.WellFormed) : (Scope.mk t.roots none).Inside t.forest :=
  ⟨fun _ h => wf.has_root h, fun _ h => wf.has_root h⟩

theorem inside_within (wf : t.WellFormed) (hi : t.forest.Has i) :
    (within t.forest i).Inside t.forest :=
  ⟨fun _ h => wf.has_child h, fun _ h => List.mem_singleton.1 h ▸ hi⟩

/-- The elements a chain may start at in a scope belong to the forest. -/
theorem Inside.of_starts {f : Forest} {roots : List NodeId} {scope : Scope} {anchored : Bool}
    {leading : Combinator} {g : Linked (List NodeId)} (inside : scope.Inside f)
    (wf : (Template.mk f roots).WellFormed) (hg : g ∈ scope.starts f anchored leading) :
    ∃ l, g = .ok l ∧ ∀ i ∈ l, f.Has i := by
  unfold starts at hg
  split at hg
  · rw [List.mem_singleton.1 hg]
    exact ⟨_, rfl, inside.anchors⟩
  · split at hg
    · rw [List.mem_singleton.1 hg]
      exact ⟨_, rfl, inside.elements⟩
    · obtain ⟨i, hi, rfl⟩ := List.mem_map.1 hg
      refine ⟨_, rfl, fun k hk => ?_⟩
      exact wf.has_of_reach (reach_of_mem_subtreeTo hk) (inside.elements i hi)
    · obtain ⟨i, -, rfl⟩ := List.mem_map.1 hg
      exact wf.exists_after i _

/-- Below an element a branch with `&` starts at the element itself, and any other branch where its
leading combinator leads to. -/
theorem starts_within {f : Forest} :
    (within f i).Starts f b j ↔
      if b.anchoring = .anchored then j = i else f.LeadsTo b.chain.leading i j := by
  obtain ⟨c, anchoring⟩ := b
  unfold Starts starts
  by_cases anchored : anchoring = .anchored
  · subst anchored
    simp [anchors]
  · have free : (anchoring == .anchored) = false := by simpa using anchored
    simp only [free, anchored, Bool.false_eq_true, if_false]
    cases c.leading with
    | child => simp [LeadsTo, after]
    | descendant =>
      simp only [LeadsTo, after, List.mem_map, exists_exists_and_eq_and, Except.ok.injEq,
        exists_eq_left', List.mem_flatMap]
    | adjacent | sibling =>
      simp only [LeadsTo, Option.getD_some, List.map_cons, List.map_nil, List.mem_singleton,
        exists_eq_left]

end Scope

namespace Branch

/-- The element is the last of a branch that starts in the scope. -/
def SelectsIn (s : Scene) (scope : Scope) (b : Branch) (j : NodeId) : Prop :=
  b.chain.Reaches s (scope.Starts s.forest b) j

/-- A branch nested in another one, with it. -/
def nest (outer inner : Branch) : Branch where
  chain :=
    if inner.anchoring = .anchored then outer.chain.mergedWith inner.chain
    else outer.chain.followedBy inner.chain
  anchoring := outer.anchoring

variable {s : Scene} {scope : Scope} {roots : List NodeId} {outer inner b : Branch} {j : NodeId}

/-- A branch selects what its chain reaches from its starts in the scope. -/
theorem exists_select (wf : (Template.mk s.forest roots).WellFormed)
    (inside : scope.Inside s.forest) (plain : b.anchoring ≠ .contextual) :
    ∃ l, b.select s scope = .ok l ∧ ∀ j, j ∈ l ↔ b.SelectsIn s scope j := by
  obtain ⟨l, hl, mem⟩ := b.chain.exists_selectIn wf fun g hg => inside.of_starts wf hg
  refine ⟨l, ?_, mem⟩
  obtain ⟨c, anchoring⟩ := b
  cases anchoring with
  | free => exact hl
  | anchored => exact hl
  | contextual => exact absurd rfl plain

theorem SelectsIn.has (wf : (Template.mk s.forest roots).WellFormed)
    (inside : scope.Inside s.forest) (h : b.SelectsIn s scope j) : s.forest.Has j := by
  refine Chain.Reaches.has wf (fun i hi => ?_) h
  obtain ⟨g, hg, l, rfl, mem⟩ := hi
  obtain ⟨l', same, has⟩ := inside.of_starts wf hg
  cases same
  exact has i mem

theorem starts_nest : scope.Starts s.forest (outer.nest inner) = scope.Starts s.forest outer := by
  have leading : (outer.nest inner).chain.leading = outer.chain.leading := by
    unfold nest
    split
    · exact Chain.leading_mergedWith _ _
    · exact Chain.leading_followedBy _ _
  funext j
  rw [Scope.Starts, leading]
  rfl

/-- A branch nested in another one, started below each element of that one, selects what the two
joined select. -/
theorem selectsIn_nest : (outer.nest inner).SelectsIn s scope j ↔
    ∃ i, outer.SelectsIn s scope i ∧ inner.SelectsIn s (Scope.within s.forest i) j := by
  simp only [SelectsIn, starts_nest]
  have inStart (i : NodeId) : (Scope.within s.forest i).Starts s.forest inner =
      fun j => if inner.anchoring = .anchored then j = i
        else s.forest.LeadsTo inner.chain.leading i j :=
    funext fun _ => propext Scope.starts_within
  simp only [inStart]
  by_cases anchored : inner.anchoring = .anchored
  · simp only [nest, anchored, if_true]
    exact Chain.reaches_mergedWith
  · simp only [nest, anchored, if_false]
    exact Chain.reaches_followedBy

end Branch

/-- A selector selects what its branches select. -/
theorem Selector.exists_select {f : Forest} {cfg : Config} {scope : Scope} {selector : Selector}
    {P : Branch → NodeId → Prop} (h : ∀ b ∈ selector.branches,
      ∃ l, b.select ⟨f, cfg, scope.anchors⟩ scope = .ok l ∧ ∀ j, j ∈ l ↔ P b j) :
    ∃ l, selector.select f cfg scope = .ok l ∧ ∀ j, j ∈ l ↔ ∃ b ∈ selector.branches, P b j := by
  obtain ⟨found, hf, mem⟩ := exists_mapM fun b hb => (h b hb).imp fun _ hl => hl.1
  refine ⟨found.flatten.eraseDups, by rw [select, hf]; rfl, fun j => ?_⟩
  rw [List.mem_eraseDups, mem]
  refine exists_congr fun b => and_congr_right fun hb => ?_
  obtain ⟨l, hl, hj⟩ := h b hb
  simp [hl, hj]

/-! ## Conditions that do not speak of `&` -/

mutual

/-- The condition mentions the elements that `&` stands for. -/
def Simple.mentionsNesting : Simple → Bool
  | .nesting => true
  | .has alternatives | .among alternatives | .except alternatives => anyMentionsNesting alternatives
  | .type _ | .class _ | .id _ | .attribute _ _ | .pseudo _ _ | .nth _ _ _ | .any => false

/-- One of the conditions mentions the elements that `&` stands for. -/
def Compound.mentionsNesting : List Simple → Bool
  | [] => false
  | x :: xs => x.mentionsNesting || Compound.mentionsNesting xs

/-- A condition of the chain mentions the elements that `&` stands for. -/
def Chain.mentionsNesting : Chain → Bool
  | .start _ compound => Compound.mentionsNesting compound
  | .step previous _ compound => previous.mentionsNesting || Compound.mentionsNesting compound

/-- One of the chains mentions the elements that `&` stands for. -/
def anyMentionsNesting : List Chain → Bool
  | [] => false
  | c :: cs => c.mentionsNesting || anyMentionsNesting cs

end

section

variable {f : Forest} {cfg : Config} (ns ns' : List NodeId)

mutual

theorem Simple.holds_congr (x : Simple) (free : x.mentionsNesting = false) (i : NodeId) :
    x.holds ⟨f, cfg, ns⟩ i = x.holds ⟨f, cfg, ns'⟩ i := by
  cases x with
  | type | «class» | id | «attribute» | pseudo | nth | any => rfl
  | nesting => cases free
  | has cs => exact anySelects_congr cs free i
  | among cs => exact anyEndsAt_congr cs free i
  | except cs => rw [Simple.holds, Simple.holds, anyEndsAt_congr cs free i]
termination_by structural x

theorem Compound.holds_congr (xs : List Simple) (free : Compound.mentionsNesting xs = false)
    (i : NodeId) : Compound.holds ⟨f, cfg, ns⟩ i xs = Compound.holds ⟨f, cfg, ns'⟩ i xs := by
  cases xs with
  | nil => rfl
  | cons x xs =>
    obtain ⟨first, rest⟩ := Bool.or_eq_false_iff.1 free
    rw [Compound.holds, Compound.holds, Simple.holds_congr x first i,
      Compound.holds_congr xs rest i]
termination_by structural xs

theorem Chain.endsAt_congr (c : Chain) (free : c.mentionsNesting = false) (i : NodeId) :
    c.endsAt ⟨f, cfg, ns⟩ i = c.endsAt ⟨f, cfg, ns'⟩ i := by
  cases c with
  | start _ compound => exact Compound.holds_congr compound free i
  | step previous k compound =>
    obtain ⟨before, last⟩ := Bool.or_eq_false_iff.1 free
    simp only [Chain.endsAt, Compound.holds_congr compound last i,
      fun j => Chain.endsAt_congr previous before j]
termination_by structural c

theorem Chain.select_congr (c : Chain) (free : c.mentionsNesting = false)
    (starts : List NodeId) : c.select ⟨f, cfg, ns⟩ starts = c.select ⟨f, cfg, ns'⟩ starts := by
  cases c with
  | start leading compound =>
    simp only [Chain.select, fun j => Compound.holds_congr compound free j]
  | step previous k compound =>
    obtain ⟨before, last⟩ := Bool.or_eq_false_iff.1 free
    simp only [Chain.select, fun j => Compound.holds_congr compound last j,
      Chain.select_congr previous before starts]
termination_by structural c

theorem anyEndsAt_congr (cs : List Chain) (free : anyMentionsNesting cs = false) (i : NodeId) :
    anyEndsAt ⟨f, cfg, ns⟩ i cs = anyEndsAt ⟨f, cfg, ns'⟩ i cs := by
  cases cs with
  | nil => rfl
  | cons c cs =>
    obtain ⟨first, rest⟩ := Bool.or_eq_false_iff.1 free
    rw [anyEndsAt, anyEndsAt, Chain.endsAt_congr c first i, anyEndsAt_congr cs rest i]
termination_by structural cs

theorem anySelects_congr (cs : List Chain) (free : anyMentionsNesting cs = false) (i : NodeId) :
    anySelects ⟨f, cfg, ns⟩ i cs = anySelects ⟨f, cfg, ns'⟩ i cs := by
  cases cs with
  | nil => rfl
  | cons c cs =>
    obtain ⟨first, rest⟩ := Bool.or_eq_false_iff.1 free
    rw [anySelects, anySelects, Chain.select_congr c first [i], anySelects_congr cs rest i]
termination_by structural cs

end

/-- A chain that does not mention the elements `&` stands for leads to the same whichever they
are. -/
theorem Chain.reaches_congr {First : NodeId → Prop} {c : Chain} (free : c.mentionsNesting = false)
    {j : NodeId} : c.Reaches ⟨f, cfg, ns⟩ First j ↔ c.Reaches ⟨f, cfg, ns'⟩ First j := by
  induction c using combinators.induct generalizing j with
  | case1 leading compound => rw [Reaches, Reaches, Compound.holds_congr ns ns' compound free j]
  | case2 previous k compound ih =>
    obtain ⟨before, last⟩ := Bool.or_eq_false_iff.1 free
    rw [Reaches, Reaches, Compound.holds_congr ns ns' compound last j]
    refine and_congr_left fun _ => exists_congr fun i => and_congr_left fun _ => ?_
    exact ih before

end

/-! ## Joined branches that do not speak of `&` -/

theorem Compound.mentionsNesting_append (xs ys : Compound) :
    Compound.mentionsNesting (xs ++ ys) =
      (Compound.mentionsNesting xs || Compound.mentionsNesting ys) := by
  induction xs with
  | nil => rfl
  | cons x xs ih => rw [List.cons_append, mentionsNesting, mentionsNesting, ih, Bool.or_assoc]

namespace Chain

theorem mentionsNesting_also (c : Chain) (more : Compound) :
    (c.also more).mentionsNesting = (c.mentionsNesting || Compound.mentionsNesting more) := by
  cases c with
  | start => exact Compound.mentionsNesting_append _ _
  | step =>
    rw [also, mentionsNesting, mentionsNesting, Compound.mentionsNesting_append, Bool.or_assoc]

theorem mentionsNesting_followedBy (c d : Chain) :
    (c.followedBy d).mentionsNesting = (c.mentionsNesting || d.mentionsNesting) := by
  induction d using segments.induct with
  | case1 => rfl
  | case2 previous k compound ih =>
    rw [followedBy, mentionsNesting, mentionsNesting, ih, Bool.or_assoc]

theorem mentionsNesting_mergedWith (c d : Chain) :
    (c.mergedWith d).mentionsNesting = (c.mentionsNesting || d.mentionsNesting) := by
  induction d using segments.induct with
  | case1 => exact mentionsNesting_also c _
  | case2 previous k compound ih =>
    rw [mergedWith, mentionsNesting, mentionsNesting, ih, Bool.or_assoc]

end Chain

theorem Branch.mentionsNesting_nest (outer inner : Branch) :
    (outer.nest inner).chain.mentionsNesting =
      (outer.chain.mentionsNesting || inner.chain.mentionsNesting) := by
  unfold nest
  split
  · exact Chain.mentionsNesting_mergedWith _ _
  · exact Chain.mentionsNesting_followedBy _ _

end NestedStyles
