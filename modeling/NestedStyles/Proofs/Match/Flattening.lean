import Mathlib
import NestedStyles.Proofs.Match.Flat
import NestedStyles.Proofs.Match.Order

/-!
# Nested rules as flat selectors

A rule below other rules says what one rule says whose selector is written out: along the path to
the rule a branch is chosen from each selector, and the branches are joined. `FlatSelector` lists
the selectors of a rule that arise so. Matching a rule tree puts on each element the classes and
the declarations of the rules with a flat selector that selects it from the roots
(`Matching.collected_iff_flat`).

The nested selectors may not name the pseudo-class that `&` is turned into. Written out by hand it
stands for the elements of the enclosing rule, which a flat selector does not have.
-/

namespace NestedStyles

open Forest Linked

/-- The branches of a selector. One that stands for the elements of the enclosing rule has the
branch `&` with no further conditions. -/
def Branch.ofText (text : String) : List Branch :=
  if isParentSelector text then [⟨.start .descendant [], .anchored⟩]
  else
    match Selector.compile text with
    | .ok selector => selector.branches
    | .error _ => []

/-- The branch is one of the flat selectors of the rule at the path: the branches of the rules along
the path, one of each, joined. -/
inductive FlatSelector : List StyleRule → RulePath → StyleRule → Branch → Prop
  | top {rules k r b} (rule : rules[k]? = some r) (branch : b ∈ Branch.ofText r.selector) :
      FlatSelector rules [k] r b
  | nested {rules k r outer path s inner} (rule : rules[k]? = some r)
      (branch : outer ∈ Branch.ofText r.selector)
      (below : FlatSelector r.children path s inner) :
      FlatSelector rules (k :: path) s (outer.nest inner)

/-- The branch selects the element from the roots. -/
def Template.Selects (t : Template) (cfg : Config) (b : Branch) (j : NodeId) : Prop :=
  ∃ l, b.select ⟨t.forest, cfg, t.roots⟩ ⟨t.roots, none⟩ = .ok l ∧ j ∈ l

namespace StyleRule

/-- The selector can be compiled, and `&` stands at most at the start of its branches. -/
structure Plain (r : StyleRule) : Prop where
  compiles : isParentSelector r.selector = true ∨
    ∃ selector, Selector.compile r.selector = .ok selector
  leading : ∀ b ∈ Branch.ofText r.selector, b.anchoring ≠ .contextual

/-- No condition of the selector speaks of the elements that `&` stands for. -/
def Independent (r : StyleRule) : Prop :=
  ∀ b ∈ Branch.ofText r.selector, b.chain.mentionsNesting = false

theorem mem_walkAll {rules : List StyleRule} {s : StyleRule} :
    s ∈ walkAll rules ↔ ∃ r ∈ rules, s = r ∨ s ∈ walkAll r.children := by
  induction rules with
  | nil => simp [walkAll]
  | cons r rules ih =>
    obtain ⟨selector, classes, declarations, uses, children⟩ := r
    simp [walkAll, walk, ih, or_assoc]

/-- The selectors of the rules can be written out as flat ones. -/
structure CanBeFlat (rules : List StyleRule) : Prop where
  plain : ∀ r ∈ walkAll rules, r.Plain
  nested : ∀ r ∈ rules, ∀ s ∈ walkAll r.children, s.Independent

namespace CanBeFlat

variable {rules : List StyleRule} {r : StyleRule}

theorem rule (h : CanBeFlat rules) (hr : r ∈ rules) : r.Plain :=
  h.plain r (mem_walkAll.2 ⟨r, hr, .inl rfl⟩)

theorem children (h : CanBeFlat rules) (hr : r ∈ rules) : CanBeFlat r.children where
  plain s hs := h.plain s (mem_walkAll.2 ⟨r, hr, .inr hs⟩)
  nested s hs u hu := h.nested r hr u (mem_walkAll.2 ⟨s, hs, .inr hu⟩)

end CanBeFlat

end StyleRule

open StyleRule

/-- The flat selectors of rules that do not speak of `&` do not either. -/
theorem FlatSelector.independent {rules : List StyleRule} {path : RulePath} {r : StyleRule}
    {b : Branch} (flat : FlatSelector rules path r b) (h : ∀ s ∈ walkAll rules, s.Independent) :
    b.chain.mentionsNesting = false := by
  induction flat with
  | top rule branch =>
    have listed := List.mem_of_getElem? rule
    exact h _ (mem_walkAll.2 ⟨_, listed, .inl rfl⟩) _ branch
  | nested rule branch below ih =>
    have listed := List.mem_of_getElem? rule
    have outer := h _ (mem_walkAll.2 ⟨_, listed, .inl rfl⟩) _ branch
    have inner := ih fun s hs => h s (mem_walkAll.2 ⟨_, listed, .inr hs⟩)
    rw [Branch.mentionsNesting_nest, outer, inner, Bool.or_false]

/-- A flat selector starts where the rule at the top does. -/
theorem FlatSelector.leading {rules : List StyleRule} {path : RulePath} {r : StyleRule}
    {b : Branch} (flat : FlatSelector rules path r b) (h : ∀ s ∈ rules, s.Plain) :
    b.anchoring ≠ .contextual := by
  cases flat with
  | top rule branch => exact (h _ (List.mem_of_getElem? rule)).leading _ branch
  | @nested _ _ _ outer _ _ _ rule branch _ =>
    show outer.anchoring ≠ .contextual
    exact (h _ (List.mem_of_getElem? rule)).leading _ branch

/-- The flat selectors of a rule, from those of the rules below its first one. -/
theorem flatSelector_cons_iff {rules : List StyleRule} {k : Nat} {path : RulePath} {s : StyleRule}
    {b : Branch} :
    FlatSelector rules (k :: path) s b ↔
      ∃ r, rules[k]? = some r ∧ ∃ outer ∈ Branch.ofText r.selector,
        (path = [] ∧ s = r ∧ b = outer) ∨
          ∃ inner, FlatSelector r.children path s inner ∧ b = outer.nest inner := by
  constructor
  · intro flat
    cases flat with
    | top rule branch => exact ⟨_, rule, _, branch, .inl ⟨rfl, rfl, rfl⟩⟩
    | nested rule branch below => exact ⟨_, rule, _, branch, .inr ⟨_, below, rfl⟩⟩
  · rintro ⟨r, rule, outer, branch, ⟨rfl, rfl, rfl⟩ | ⟨inner, below, rfl⟩⟩
    · exact .top rule branch
    · exact .nested rule branch below

theorem not_flatSelector_nil {path : RulePath} {s : StyleRule} {b : Branch} :
    ¬ FlatSelector [] path s b := by
  rintro (⟨rule, -⟩ | ⟨rule, -, -⟩) <;> cases rule

/-- The flat selectors of a single rule and of the rules below it. -/
theorem flatSelector_singleton_iff {r s : StyleRule} {path : RulePath} {b : Branch} :
    FlatSelector [r] path s b ↔ ∃ outer ∈ Branch.ofText r.selector,
      (path = [0] ∧ s = r ∧ b = outer) ∨
        ∃ rest inner, path = 0 :: rest ∧ FlatSelector r.children rest s inner ∧
          b = outer.nest inner := by
  constructor
  · intro flat
    cases flat with
    | @top _ k _ _ rule branch =>
      cases k with
      | zero =>
        cases rule
        exact ⟨_, branch, .inl ⟨rfl, rfl, rfl⟩⟩
      | succ k => cases rule
    | @nested _ k _ _ _ _ _ rule branch below =>
      cases k with
      | zero =>
        cases rule
        exact ⟨_, branch, .inr ⟨_, _, rfl, below, rfl⟩⟩
      | succ k => cases rule
  · rintro ⟨outer, branch, ⟨rfl, rfl, rfl⟩ | ⟨rest, inner, rfl, below, rfl⟩⟩
    · exact .top rfl branch
    · exact .nested rfl branch below

/-! ## Selectors in a scope -/

section

variable {t : Template} {cfg : Config} {scope : Scope} {i j : NodeId}

/-- A selector selects in a scope what its branches select there. -/
theorem StyleRule.Plain.exists_selectText {r : StyleRule} (plain : r.Plain) (cfg : Config)
    (wf : t.WellFormed) (inside : scope.Inside t.forest) :
    ∃ l, selectText t.forest cfg scope r.selector = .ok l ∧
      ∀ j, j ∈ l ↔ ∃ b ∈ Branch.ofText r.selector,
        b.SelectsIn ⟨t.forest, cfg, scope.anchors⟩ scope j := by
  by_cases parent : isParentSelector r.selector = true
  · refine ⟨scope.anchors, by rw [selectText, if_pos parent], fun j => ?_⟩
    rw [Branch.ofText, if_pos parent]
    simp [Branch.SelectsIn, Chain.Reaches, Scope.Starts, Scope.starts, Compound.holds]
  · obtain ⟨selector, compiled⟩ := plain.compiles.resolve_left parent
    have branches : Branch.ofText r.selector = selector.branches := by
      rw [Branch.ofText, if_neg parent, compiled]
    obtain ⟨l, hl, mem⟩ := Selector.exists_select fun b hb =>
      Branch.exists_select (s := ⟨t.forest, cfg, scope.anchors⟩) wf inside
        (plain.leading b (branches ▸ hb))
    refine ⟨l, ?_, fun j => by rw [mem, branches]⟩
    rw [selectText, if_neg parent, compiled]
    simp only [hl]
    rfl

/-- The elements a selector selects belong to the forest. -/
theorem StyleRule.Plain.has_of_selectText {r : StyleRule} (plain : r.Plain) (wf : t.WellFormed)
    (inside : scope.Inside t.forest) {l : List NodeId}
    (selects : selectText t.forest cfg scope r.selector = .ok l) : ∀ i ∈ l, t.forest.Has i := by
  intro i hi
  obtain ⟨l', selects', mem⟩ := plain.exists_selectText cfg wf inside
  obtain rfl : l = l' := Except.ok.inj (selects.symm.trans selects')
  obtain ⟨b, -, selected⟩ := (mem i).1 hi
  exact selected.has wf inside

mutual

/-- Matching a rule has a result. -/
theorem exists_matchRule (cfg : Config) (wf : t.WellFormed) (r : StyleRule) (path : RulePath)
    {scope : Scope} (inside : scope.Inside t.forest) (plain : ∀ s ∈ r.walk, s.Plain) :
    ∃ trace, matchRule t.forest cfg path scope r = .ok trace := by
  obtain ⟨selector, classes, declarations, uses, children⟩ := r
  rw [walk] at plain
  have own : StyleRule.Plain ⟨selector, classes, declarations, uses, children⟩ :=
    plain _ List.mem_cons_self
  obtain ⟨selected, selects, -⟩ := own.exists_selectText cfg wf inside
  have below : ∀ i ∈ selected, ∃ events, (do
      let inner ← matchRules t.forest cfg path 0 ⟨t.forest.children i, some [i]⟩ children
      return MatchEvent.hit ⟨path, ⟨selector, classes, declarations, uses, children⟩, i⟩ ::
        inner) = .ok events := by
    intro i hi
    have has := own.has_of_selectText wf inside selects i hi
    obtain ⟨inner, matched⟩ := exists_matchRules cfg wf children path 0
      (Scope.inside_within wf has) fun s hs => plain s (List.mem_cons_of_mem _ hs)
    exact ⟨_, by rw [matched]; rfl⟩
  obtain ⟨found, visits, -⟩ := exists_mapM below
  exact ⟨_, bind_eq_ok.2 ⟨selected, selects, bind_eq_ok.2 ⟨found, visits, rfl⟩⟩⟩
termination_by structural r

/-- Matching rules has a result. -/
theorem exists_matchRules (cfg : Config) (wf : t.WellFormed) (rs : List StyleRule)
    (path : RulePath) (k : Nat) {scope : Scope} (inside : scope.Inside t.forest)
    (plain : ∀ s ∈ walkAll rs, s.Plain) :
    ∃ trace, matchRules t.forest cfg path k scope rs = .ok trace := by
  cases rs with
  | nil => exact ⟨[], rfl⟩
  | cons r rs =>
    rw [walkAll] at plain
    obtain ⟨first, here⟩ := exists_matchRule cfg wf r (path ++ [k]) inside
      fun s hs => plain s (List.mem_append_left _ hs)
    obtain ⟨others, later⟩ := exists_matchRules cfg wf rs path (k + 1) inside
      fun s hs => plain s (List.mem_append_right _ hs)
    exact ⟨_, bind_eq_ok.2 ⟨first, here, bind_eq_ok.2 ⟨others, later, rfl⟩⟩⟩
termination_by structural rs

end

/-! ## Ways through the rule tree and flat selectors -/

/-- Some route leads to the element by the rule at the path. -/
def Reached (f : Forest) (cfg : Config) (scope : Scope) (rules : List StyleRule) (path : RulePath)
    (r : StyleRule) (j : NodeId) : Prop :=
  ∃ ρ : Route, ρ.path = path ∧ Leads f cfg scope rules ⟨ρ, r, j⟩

theorem not_reached_nil {rules : List StyleRule} {s : StyleRule} :
    ¬ Reached t.forest cfg scope rules [] s j := by
  rintro ⟨ρ, path, leads⟩
  exact leads.route_ne_nil (List.map_eq_nil_iff.1 path)

/-- A route selects an element at its first rule, and ends there or goes on below. -/
theorem reached_cons_iff {rules : List StyleRule} {k : Nat} {path : RulePath} {s : StyleRule} :
    Reached t.forest cfg scope rules (k :: path) s j ↔
      ∃ r, rules[k]? = some r ∧ ∃ l, selectText t.forest cfg scope r.selector = .ok l ∧
        ∃ i ∈ l, (path = [] ∧ s = r ∧ j = i) ∨
          Reached t.forest cfg (Scope.within t.forest i) r.children path s j := by
  constructor
  · rintro ⟨ρ, hρ, leads⟩
    obtain ⟨k', r, rule, l, selects, q, i, place, same | ⟨b, below, same⟩⟩ := leads_iff.1 leads
    · cases same
      obtain ⟨rfl, rfl⟩ : k' = k ∧ [] = path := by simpa [Route.path] using hρ
      exact ⟨s, rule, l, selects, j, List.mem_of_getElem? place, .inl ⟨rfl, rfl, rfl⟩⟩
    · obtain ⟨σ, s', j'⟩ := b
      cases same
      obtain ⟨rfl, hσ⟩ : k' = k ∧ σ.path = path := by simpa [Route.path] using hρ
      exact ⟨r, rule, l, selects, i, List.mem_of_getElem? place, .inr ⟨σ, hσ, below⟩⟩
  · rintro ⟨r, rule, l, selects, i, hi, ending⟩
    obtain ⟨q, place⟩ := List.mem_iff_getElem?.1 hi
    rcases ending with ⟨rfl, rfl, rfl⟩ | ⟨σ, rfl, below⟩
    · exact ⟨[⟨k, q⟩], rfl, .stop rule selects place⟩
    · exact ⟨⟨k, q⟩ :: σ, rfl, .enter (a := ⟨σ, s, j⟩) rule selects place below⟩

/-- The rule at a path reaches the elements that its flat selectors select. -/
theorem reached_iff_flat (wf : t.WellFormed) {path : RulePath} {rules : List StyleRule}
    {s : StyleRule} (inside : scope.Inside t.forest) (flat : CanBeFlat rules) :
    Reached t.forest cfg scope rules path s j ↔
      ∃ b, FlatSelector rules path s b ∧
        b.SelectsIn ⟨t.forest, cfg, scope.anchors⟩ scope j := by
  induction path generalizing rules scope with
  | nil =>
    refine iff_of_false not_reached_nil ?_
    rintro ⟨b, impossible, -⟩
    cases impossible
  | cons k path ih =>
    -- Below `i` the elements that `&` stands for are `[i]`, but no nested branch depends on them.
    have below {r : StyleRule} (hr : r ∈ rules) {i : NodeId} (hi : t.forest.Has i) :
        Reached t.forest cfg (Scope.within t.forest i) r.children path s j ↔
          ∃ b, FlatSelector r.children path s b ∧
            b.SelectsIn ⟨t.forest, cfg, scope.anchors⟩ (Scope.within t.forest i) j := by
      rw [ih (Scope.inside_within wf hi) (flat.children hr)]
      refine exists_congr fun b => and_congr_right fun nested => ?_
      exact Chain.reaches_congr _ _ (nested.independent (flat.nested r hr))
    rw [reached_cons_iff]
    simp only [flatSelector_cons_iff]
    constructor
    · rintro ⟨r, rule, l, selects, i, hi, ending⟩
      have listed := List.mem_of_getElem? rule
      obtain ⟨l', selects', mem⟩ := (flat.rule listed).exists_selectText cfg wf inside
      obtain rfl : l = l' := Except.ok.inj (selects.symm.trans selects')
      obtain ⟨outer, branch, first⟩ := (mem i).1 hi
      rcases ending with ⟨rfl, rfl, rfl⟩ | later
      · exact ⟨outer, ⟨s, rule, outer, branch, .inl ⟨rfl, rfl, rfl⟩⟩, first⟩
      · obtain ⟨inner, nested, rest⟩ := (below listed (first.has wf inside)).1 later
        exact ⟨outer.nest inner, ⟨r, rule, outer, branch, .inr ⟨inner, nested, rfl⟩⟩,
          Branch.selectsIn_nest.2 ⟨i, first, rest⟩⟩
    · rintro ⟨b, ⟨r, rule, outer, branch, ending⟩, selected⟩
      have listed := List.mem_of_getElem? rule
      obtain ⟨l, selects, mem⟩ := (flat.rule listed).exists_selectText cfg wf inside
      refine ⟨r, rule, l, selects, ?_⟩
      rcases ending with ⟨rfl, rfl, rfl⟩ | ⟨inner, nested, rfl⟩
      · exact ⟨j, (mem j).2 ⟨b, branch, selected⟩, .inl ⟨rfl, rfl, rfl⟩⟩
      · obtain ⟨i, first, rest⟩ := Branch.selectsIn_nest.1 selected
        have hi := first.has wf inside
        exact ⟨i, (mem i).2 ⟨outer, branch, first⟩,
          .inr ((below listed hi).2 ⟨inner, nested, rest⟩)⟩

end

namespace Matching

variable {t : Template} {cfg : Config} {rules : List StyleRule} {m : Matching}

/-- The hits of a matching are the rules and elements that routes from the top lead to. -/
theorem mem_hits_iff (h : ofRules t cfg rules = .ok m) {hit : Hit} :
    hit ∈ m.hits ↔ Reached t.forest cfg ⟨t.roots, none⟩ rules hit.path hit.rule hit.element := by
  obtain ⟨arrivals, hits, -, mem⟩ := lists_ofRules h
  have listed : m.hits = arrivals.map (Arrival.hit []) := hits
  rw [listed, List.mem_map]
  constructor
  · rintro ⟨a, ha, rfl⟩
    exact ⟨a.route, rfl, (mem a).1 ha⟩
  · rintro ⟨ρ, path, leads⟩
    refine ⟨⟨ρ, hit.rule, hit.element⟩, (mem _).2 leads, ?_⟩
    rw [Arrival.hit, List.nil_append, path]

/-- An element has the words of all rules that hit it. -/
theorem mem_collect_iff {words : StyleRule → List String} {hits : List Hit} {j : NodeId}
    {w : String} :
    w ∈ ((collect words hits).lookup j).getD [] ↔
      ∃ hit ∈ hits, hit.element = j ∧ w ∈ words hit.rule := by
  rw [lookup_collect, List.mem_flatMap]
  simp only [List.mem_filter, beq_iff_eq, and_assoc]

/-- The rules with a flat selector that selects an element from the roots are those that give it
their classes and declarations, and a rule is matched when one of its flat selectors selects some
element. -/
theorem collected_iff_flat (cfg : Config) (wf : t.WellFormed) (flat : CanBeFlat rules) :
    ∃ m, ofRules t cfg rules = .ok m ∧
      (∀ j c, c ∈ (m.classes.lookup j).getD [] ↔
        ∃ path r b, FlatSelector rules path r b ∧ t.Selects cfg b j ∧ c ∈ r.classes) ∧
      (∀ j d, d ∈ (m.declarations.lookup j).getD [] ↔
        ∃ path r b, FlatSelector rules path r b ∧ t.Selects cfg b j ∧ d ∈ r.declarations) ∧
      ∀ path, path ∈ m.matchedRules ↔ ∃ r b j, FlatSelector rules path r b ∧ t.Selects cfg b j := by
  have inside := Scope.inside_roots wf
  obtain ⟨trace, matched⟩ := exists_matchRules cfg wf rules [] 0 inside flat.plain
  have run : ofRules t cfg rules = .ok ⟨trace⟩ := by
    rw [ofRules, matched]
    rfl
  have selects {path : RulePath} {r : StyleRule} {b : Branch} {j : NodeId}
      (hb : FlatSelector rules path r b) :
      b.SelectsIn ⟨t.forest, cfg, t.roots⟩ ⟨t.roots, none⟩ j ↔ t.Selects cfg b j := by
    obtain ⟨l, hl, mem⟩ := Branch.exists_select (s := ⟨t.forest, cfg, t.roots⟩) wf inside
      (hb.leading fun s hs => flat.rule hs)
    rw [← mem, Template.Selects, hl]
    simp
  have hits {hit : Hit} : hit ∈ (Matching.mk trace).hits ↔
      ∃ b, FlatSelector rules hit.path hit.rule b ∧ t.Selects cfg b hit.element := by
    rw [mem_hits_iff run, reached_iff_flat wf inside flat]
    exact exists_congr fun b => and_congr_right fun hb => selects hb
  have collected (words : StyleRule → List String) (j : NodeId) (w : String) :
      w ∈ ((collect words (Matching.mk trace).hits).lookup j).getD [] ↔
        ∃ path r b, FlatSelector rules path r b ∧ t.Selects cfg b j ∧ w ∈ words r := by
    rw [mem_collect_iff]
    constructor
    · rintro ⟨hit, listed, rfl, hw⟩
      obtain ⟨b, hb, selected⟩ := hits.1 listed
      exact ⟨_, _, b, hb, selected, hw⟩
    · rintro ⟨path, r, b, hb, selected, hw⟩
      exact ⟨⟨path, r, j⟩, hits.2 ⟨b, hb, selected⟩, rfl, hw⟩
  refine ⟨_, run, collected _, collected _, fun path => ?_⟩
  rw [matchedRules, List.mem_eraseDups, List.mem_map]
  constructor
  · rintro ⟨hit, listed, rfl⟩
    obtain ⟨b, hb, selected⟩ := hits.1 listed
    exact ⟨_, b, _, hb, selected⟩
  · rintro ⟨r, b, j, hb, selected⟩
    exact ⟨⟨path, r, j⟩, hits.2 ⟨b, hb, selected⟩, rfl⟩

theorem ofText_box : Branch.ofText "div" = [⟨.start .descendant [.type "div"], .free⟩] := by
  rw [Branch.ofText, isParentSelector_box, compile_box]
  rfl

theorem plain_box {r : StyleRule} (box : r.selector = "div") : r.Plain where
  compiles := .inr ⟨_, by rw [box, compile_box]⟩
  leading b hb := by
    rw [box, ofText_box, List.mem_singleton] at hb
    subst hb
    decide

/-- The class for a box in a box is put on it by the flat selector `div div`. -/
theorem collected_iff_flat_nestedBoxes :
    nestedBoxes.WellFormed ∧ CanBeFlat boxRules ∧
      ∃ m, ofRules nestedBoxes .standard boxRules = .ok m ∧
        "b" ∈ (m.classes.lookup 1).getD [] ∧ "b" ∉ (m.classes.lookup 0).getD [] := by
  have wf : nestedBoxes.WellFormed := Template.wellFormed_ofTrees _
  have flat : CanBeFlat boxRules := by
    constructor
    · intro r hr
      simp only [boxRules, walkAll, walk, List.append_nil, List.mem_cons, List.not_mem_nil,
        or_false] at hr
      rcases hr with rfl | rfl
      · exact plain_box rfl
      · exact plain_box rfl
    · intro r hr s hs b hb
      simp only [boxRules, List.mem_singleton] at hr
      subst hr
      simp only [walkAll, walk, List.append_nil, List.mem_singleton] at hs
      subst hs
      rw [ofText_box, List.mem_singleton] at hb
      subst hb
      rfl
  obtain ⟨m, run, classes, -, -⟩ := collected_iff_flat .standard wf flat
  have select : Branch.select ⟨nestedBoxes.forest, .standard, nestedBoxes.roots⟩
      ⟨nestedBoxes.roots, none⟩ ⟨.step (.start .descendant [.type "div"]) .descendant
        [.type "div"], .free⟩ = .ok [1] := rfl
  have double : FlatSelector boxRules [0, 0] ⟨"div", ["b"], [], [], []⟩
      (Branch.nest ⟨.start .descendant [.type "div"], .free⟩
        ⟨.start .descendant [.type "div"], .free⟩) := by
    refine .nested rfl ?_ (.top rfl ?_)
    · rw [ofText_box]
      exact List.mem_singleton_self _
    · rw [ofText_box]
      exact List.mem_singleton_self _
  refine ⟨wf, flat, m, run, (classes 1 "b").2 ?_, fun found => ?_⟩
  · exact ⟨_, _, _, double, ⟨[1], select, by decide⟩, by decide⟩
  · obtain ⟨path, r, b, hb, ⟨l, selects, here⟩, named⟩ := (classes 0 "b").1 found
    simp only [boxRules, flatSelector_singleton_iff, not_flatSelector_nil, ofText_box,
      List.mem_singleton, exists_eq_left, false_and, and_false, exists_false, or_false] at hb
    rcases hb with ⟨-, rfl, -⟩ | ⟨-, b', -, ⟨-, -, rfl⟩, rfl⟩
    · exact absurd named (by decide)
    · cases select.symm.trans selects
      exact absurd here (by decide)

/-- A box in a section. -/
def boxInSection : Template :=
  .ofTrees [.node { Label.blank with tag := "section" }
    [.node { Label.blank with tag := "div" } []]]

/-- A rule for boxes, with one that names the pseudo-class that `&` is turned into. -/
def reservedRules : List StyleRule :=
  [⟨"div", [], [], [], [⟨"&:-tailnest-nesting", ["a"], [], [], []⟩]⟩]

theorem isParentSelector_reserved : isParentSelector "&:-tailnest-nesting" = false := by
  decide +kernel

theorem compile_reserved : Selector.compile "&:-tailnest-nesting" =
    .ok ⟨[⟨.start .descendant [.nesting], .anchored⟩], []⟩ := by
  cbv

theorem ofText_reserved : Branch.ofText "&:-tailnest-nesting" =
    [⟨.start .descendant [.nesting], .anchored⟩] := by
  rw [Branch.ofText, isParentSelector_reserved, compile_reserved]
  rfl

/-- With the reserved pseudo-class the nested rule says more than its flat selector, which from the
roots selects nothing. -/
theorem collected_ne_flat_reserved :
    boxInSection.WellFormed ∧ (∀ r ∈ walkAll reservedRules, r.Plain) ∧
      ∃ m, ofRules boxInSection .standard reservedRules = .ok m ∧
        "a" ∈ (m.classes.lookup 1).getD [] ∧ [0, 0] ∈ m.matchedRules ∧
        ∀ path r b j, FlatSelector reservedRules path r b → "a" ∈ r.classes ∨ path = [0, 0] →
          ¬ boxInSection.Selects .standard b j := by
  have reserved (scope : Scope) :
      selectText boxInSection.forest .standard scope "&:-tailnest-nesting" =
        (Selector.select boxInSection.forest .standard scope
          ⟨[⟨.start .descendant [.nesting], .anchored⟩], []⟩).mapError .stray := by
    rw [selectText, isParentSelector_reserved, compile_reserved]
    rfl
  refine ⟨Template.wellFormed_ofTrees _, fun r hr => ?_, ⟨[.applied "div",
    .hit ⟨[0], ⟨"div", [], [], [], [⟨"&:-tailnest-nesting", ["a"], [], [], []⟩]⟩, 1⟩,
    .applied "&:-tailnest-nesting",
    .hit ⟨[0, 0], ⟨"&:-tailnest-nesting", ["a"], [], [], []⟩, 1⟩]⟩, ?_, by decide, by decide, ?_⟩
  · simp only [reservedRules, walkAll, walk, List.append_nil, List.mem_cons, List.not_mem_nil,
      or_false] at hr
    rcases hr with rfl | rfl
    · exact plain_box rfl
    · refine ⟨.inr ⟨_, compile_reserved⟩, fun b hb => ?_⟩
      rw [ofText_reserved, List.mem_singleton] at hb
      subst hb
      decide
  · simp only [ofRules, reservedRules, matchRules, matchRule, selectText_box, reserved]
    rfl
  · rintro path r b j hb asked ⟨l, selects, here⟩
    simp only [reservedRules, flatSelector_singleton_iff, not_flatSelector_nil, ofText_box,
      ofText_reserved, List.mem_singleton, exists_eq_left, false_and, and_false, exists_false,
      or_false] at hb
    rcases hb with ⟨rfl, rfl, -⟩ | ⟨-, b', -, ⟨-, -, rfl⟩, rfl⟩
    · exact absurd asked (by decide)
    · have none : Branch.select ⟨boxInSection.forest, .standard, boxInSection.roots⟩
          ⟨boxInSection.roots, none⟩ (Branch.nest ⟨.start .descendant [.type "div"], .free⟩
            ⟨.start .descendant [.nesting], .anchored⟩) = .ok [] := rfl
      cases none.symm.trans selects
      exact absurd here List.not_mem_nil

end Matching

end NestedStyles
