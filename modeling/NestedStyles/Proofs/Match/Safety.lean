import NestedStyles.Proofs.Match.Flattening
import NestedStyles.Proofs.Template.Numbering
import NestedStyles.Template.Element

/-!
# Matching is safe where links agree

`Meets` says which rules are applied while a rule tree is matched: those at the top, and those below
a rule at each element it selects. In a well-formed template the matching has a result when all of
them compile, and else ends with the break in one that does not (`matchRules_ends`). The links of
the template are never the reason.

`Template.Visits` closes the roots under everything that the matching follows from an element.
`Matching.exists_ofRules` is the safety of all this for the templates that are made from markup.
-/

namespace NestedStyles

open Relation Forest Linked StyleRule

/-- A loop has a result if each of its turns has one, and else fails as one of them does. -/
theorem mapM_cases {ε α β : Type} (g : α → Except ε β) (xs : List α) :
    (∃ ys, xs.mapM g = .ok ys ∧ ∀ x ∈ xs, ∃ y, g x = .ok y) ∨
      ∃ x ∈ xs, ∃ e, g x = .error e ∧ xs.mapM g = .error e := by
  induction xs with
  | nil => exact .inl ⟨[], rfl, by simp⟩
  | cons x xs ih =>
    rw [List.mapM_cons]
    cases first : g x with
    | error e => exact .inr ⟨x, List.mem_cons_self, e, first, rfl⟩
    | ok y =>
      obtain ⟨ys, rest, each⟩ | ⟨z, hz, e, fails, rest⟩ := ih
      · refine .inl ⟨y :: ys, by rw [rest]; rfl, fun z hz => ?_⟩
        obtain rfl | hz := List.mem_cons.1 hz
        · exact ⟨y, first⟩
        · exact each z hz
      · exact .inr ⟨z, List.mem_cons_of_mem x hz, e, fails, by rw [rest]; rfl⟩

/-! ## Selectors -/

namespace StyleRule

/-- The selector can be compiled, or stands for the elements of the enclosing rule. -/
def Compiles (r : StyleRule) : Prop :=
  isParentSelector r.selector = true ∨ ∃ selector, Selector.compile r.selector = .ok selector

/-- The selector breaks off inside an argument. -/
def BreaksOff (r : StyleRule) (missing : Css.CutOff) : Prop :=
  isParentSelector r.selector = false ∧ Selector.compile r.selector = .error missing

theorem compiles_or_breaksOff (r : StyleRule) : r.Compiles ∨ ∃ missing, r.BreaksOff missing := by
  unfold Compiles BreaksOff
  cases isParentSelector r.selector with
  | true => exact .inl (.inl rfl)
  | false =>
    cases Selector.compile r.selector with
    | ok selector => exact .inl (.inr ⟨selector, rfl⟩)
    | error missing => exact .inr ⟨missing, rfl, rfl⟩

theorem BreaksOff.not_compiles {r : StyleRule} {missing : Css.CutOff} (h : r.BreaksOff missing) :
    ¬ r.Compiles := by
  obtain ⟨parent, breaks⟩ := h
  simp [Compiles, parent, breaks]

end StyleRule

section

variable {t : Template} {scope : Scope}

/-- A branch selects elements of the forest, wherever `&` stands in it. -/
theorem Branch.exists_select_has {s : Scene} {roots : List NodeId}
    (wf : (Template.mk s.forest roots).WellFormed) (inside : scope.Inside s.forest) (b : Branch) :
    ∃ l, b.select s scope = .ok l ∧ ∀ j ∈ l, s.forest.Has j := by
  by_cases contextual : b.anchoring = .contextual
  · obtain ⟨c, anchoring⟩ := b
    cases contextual
    obtain ⟨l, hl, mem⟩ := exists_select_contextual wf inside.anchors c
    exact ⟨l, hl, fun j hj => Chain.has_of_mem_candidates wf inside.anchors ((mem j).1 hj).1⟩
  · obtain ⟨l, hl, mem⟩ := exists_select wf inside contextual
    exact ⟨l, hl, fun j hj => ((mem j).1 hj).has wf inside⟩

/-- A selector selects elements of the forest. -/
theorem Selector.exists_select_has (wf : t.WellFormed) (inside : scope.Inside t.forest)
    (cfg : Config) (selector : Selector) :
    ∃ l, selector.select t.forest cfg scope = .ok l ∧ ∀ j ∈ l, t.forest.Has j := by
  have branch (b : Branch) :=
    b.exists_select_has (s := ⟨t.forest, cfg, scope.anchors⟩) wf inside
  have each : ∀ b ∈ selector.branches, ∃ l, b.select ⟨t.forest, cfg, scope.anchors⟩ scope = .ok l :=
    fun b _ => (branch b).imp fun _ h => h.1
  obtain ⟨found, hf, mem⟩ := exists_mapM each
  refine ⟨found.flatten.eraseDups, by rw [select, hf]; rfl, fun j hj => ?_⟩
  obtain ⟨b, -, l, hl, hj⟩ := (mem j).1 (List.mem_eraseDups.1 hj)
  obtain ⟨l', hl', has⟩ := branch b
  cases hl.symm.trans hl'
  exact has j hj

/-- The selector of a rule selects elements of the forest, unless it breaks off. -/
theorem selectText_ends (cfg : Config) (wf : t.WellFormed) (inside : scope.Inside t.forest)
    (r : StyleRule) :
    (r.Compiles ∧ ∃ l, selectText t.forest cfg scope r.selector = .ok l ∧ ∀ j ∈ l, t.forest.Has j) ∨
      ∃ missing, r.BreaksOff missing ∧
        selectText t.forest cfg scope r.selector = .error (.cutOff missing) := by
  unfold selectText
  cases r.compiles_or_breaksOff with
  | inr breaks =>
    obtain ⟨missing, parent, breaks⟩ := breaks
    exact .inr ⟨missing, ⟨parent, breaks⟩, by simp [parent, breaks]⟩
  | inl compiles =>
    refine .inl ⟨compiles, ?_⟩
    by_cases parent : isParentSelector r.selector = true
    · exact ⟨scope.anchors, if_pos parent, inside.anchors⟩
    · obtain ⟨selector, compiled⟩ := compiles.resolve_left parent
      obtain ⟨l, hl, has⟩ := selector.exists_select_has wf inside cfg
      exact ⟨l, by simp [parent, compiled, hl, Except.mapError], has⟩

end

/-! ## Rules -/

/-- The rule is applied when rules are matched in a scope, if the matching gets that far. -/
inductive Meets (f : Forest) (cfg : Config) : Scope → List StyleRule → StyleRule → Prop
  /-- The rule is one of those that are matched. -/
  | here {scope rules r} (rule : r ∈ rules) : Meets f cfg scope rules r
  /-- A rule selects an element, and the rule is applied below it. -/
  | nested {scope rules r selected i s} (rule : r ∈ rules)
      (selects : selectText f cfg scope r.selector = .ok selected) (element : i ∈ selected)
      (inner : Meets f cfg (Scope.within f i) r.children s) : Meets f cfg scope rules s

section

variable {f : Forest} {cfg : Config} {scope : Scope} {rules : List StyleRule} {s : StyleRule}

theorem Meets.mem_walkAll (h : Meets f cfg scope rules s) : s ∈ walkAll rules := by
  induction h with
  | here rule => exact StyleRule.mem_walkAll.2 ⟨_, rule, .inl rfl⟩
  | nested rule _ _ _ ih => exact StyleRule.mem_walkAll.2 ⟨_, rule, .inr ih⟩

theorem meets_cons_iff {r : StyleRule} :
    Meets f cfg scope (r :: rules) s ↔ Meets f cfg scope [r] s ∨ Meets f cfg scope rules s := by
  constructor
  · intro h
    cases h with
    | here rule =>
      obtain rfl | rule := List.mem_cons.1 rule
      · exact .inl (.here (List.mem_singleton_self _))
      · exact .inr (.here rule)
    | nested rule selects element inner =>
      obtain rfl | rule := List.mem_cons.1 rule
      · exact .inl (.nested (List.mem_singleton_self _) selects element inner)
      · exact .inr (.nested rule selects element inner)
  · have widen {rs : List StyleRule} (sub : rs ⊆ r :: rules) (h : Meets f cfg scope rs s) :
        Meets f cfg scope (r :: rules) s := by
      cases h with
      | here rule => exact .here (sub rule)
      | nested rule selects element inner => exact .nested (sub rule) selects element inner
    intro h
    cases h with
    | inl h => exact widen (by simp) h
    | inr h => exact widen (by simp) h

/-- The result of matching these rules: there is one if all rules that are applied compile, and else
one of them breaks off. -/
def EndsAs {α : Type} (f : Forest) (cfg : Config) (scope : Scope) (rules : List StyleRule)
    (result : Except MatchError α) : Prop :=
  ((∃ a, result = .ok a) ∧ ∀ s, Meets f cfg scope rules s → s.Compiles) ∨
    ∃ s missing, Meets f cfg scope rules s ∧ s.BreaksOff missing ∧
      result = .error (.cutOff missing)

theorem EndsAs.append {α β γ : Type} {r : StyleRule} {first : Except MatchError α}
    {others : Except MatchError β} (here : EndsAs f cfg scope [r] first)
    (later : EndsAs f cfg scope rules others) (join : α → β → γ) :
    EndsAs f cfg scope (r :: rules) (do
      let a ← first
      let b ← others
      return join a b) := by
  obtain ⟨⟨a, rfl⟩, compile⟩ | ⟨s, missing, meets, breaks, rfl⟩ := here
  · obtain ⟨⟨b, rfl⟩, compile'⟩ | ⟨s, missing, meets, breaks, rfl⟩ := later
    · refine .inl ⟨⟨join a b, rfl⟩, fun s meets => ?_⟩
      cases meets_cons_iff.1 meets with
      | inl h => exact compile s h
      | inr h => exact compile' s h
    · exact .inr ⟨s, missing, meets_cons_iff.2 (.inr meets), breaks, rfl⟩
  · exact .inr ⟨s, missing, meets_cons_iff.2 (.inl meets), breaks, rfl⟩

end

section

variable {t : Template}

mutual

/-- Matching a rule fails at most for a selector that breaks off. -/
theorem matchRule_ends (cfg : Config) (wf : t.WellFormed) (r : StyleRule) (path : RulePath)
    {scope : Scope} (inside : scope.Inside t.forest) :
    EndsAs t.forest cfg scope [r] (matchRule t.forest cfg path scope r) := by
  obtain ⟨selector, classes, declarations, uses, children⟩ := r
  have own : (⟨selector, classes, declarations, uses, children⟩ : StyleRule) ∈
    [(⟨selector, classes, declarations, uses, children⟩ : StyleRule)] := List.mem_singleton_self _
  rw [matchRule]
  obtain ⟨compiles, selected, selects, has⟩ | ⟨missing, breaks, selects⟩ :=
    selectText_ends cfg wf inside ⟨selector, classes, declarations, uses, children⟩
  case inr => exact .inr ⟨_, missing, .here own, breaks, by rw [selects]; rfl⟩
  rw [selects]
  -- Below every selected element the nested rules end in one of the two ways.
  have below (i : NodeId) (hi : i ∈ selected) :=
    matchRules_ends cfg wf children path 0 (Scope.inside_within wf (has i hi))
  obtain ⟨found, visits, each⟩ | ⟨i, hi, e, fails, visits⟩ := mapM_cases (fun i => do
    let inner ← matchRules t.forest cfg path 0 ⟨t.forest.children i, some [i]⟩ children
    return MatchEvent.hit ⟨path, ⟨selector, classes, declarations, uses, children⟩, i⟩ :: inner)
    selected
  · refine .inl ⟨⟨.applied selector :: found.flatten, ?_⟩, fun s meets => ?_⟩
    · exact bind_eq_ok.2 ⟨selected, rfl, bind_eq_ok.2 ⟨found, visits, rfl⟩⟩
    · cases meets with
      | here rule => rwa [List.mem_singleton.1 rule]
      | @nested _ _ r selected' i _ rule selects' element inner =>
        obtain rfl := List.mem_singleton.1 rule
        cases selects.symm.trans selects'
        obtain ⟨-, compile⟩ | ⟨s', missing, -, -, fails⟩ := below i element
        · exact compile s inner
        · obtain ⟨events, matched⟩ := each i element
          obtain ⟨inner, matched, -⟩ := bind_eq_ok.1 matched
          cases fails.symm.trans matched
  · obtain ⟨⟨inner, matched⟩, -⟩ | ⟨s, missing, meets, breaks, matched⟩ := below i hi
    · rw [matched] at fails
      cases fails
    · rw [matched] at fails
      cases fails
      refine .inr ⟨s, missing, .nested own selects hi meets, breaks, ?_⟩
      simp only [bind, Except.bind] at visits ⊢
      rw [visits]
termination_by structural r

/-- Matching rules fails at most for a selector that breaks off. -/
theorem matchRules_ends (cfg : Config) (wf : t.WellFormed) (rs : List StyleRule) (path : RulePath)
    (k : Nat) {scope : Scope} (inside : scope.Inside t.forest) :
    EndsAs t.forest cfg scope rs (matchRules t.forest cfg path k scope rs) := by
  cases rs with
  | nil =>
    refine .inl ⟨⟨[], rfl⟩, fun s meets => ?_⟩
    exact absurd meets.mem_walkAll (by simp [walkAll])
  | cons r rs =>
    have here := matchRule_ends cfg wf r (path ++ [k]) inside
    have later := matchRules_ends cfg wf rs path (k + 1) inside
    exact here.append later (· ++ ·)
termination_by structural rs

end

/-- Matching a rule tree fails at most for a selector that breaks off. -/
theorem Matching.ofRules_ends (cfg : Config) (wf : t.WellFormed) (rules : List StyleRule) :
    EndsAs t.forest cfg ⟨t.roots, none⟩ rules (ofRules t cfg rules) := by
  unfold ofRules
  obtain ⟨⟨trace, matched⟩, compile⟩ | ⟨s, missing, meets, breaks, matched⟩ :=
    matchRules_ends cfg wf rules [] 0 (Scope.inside_roots wf)
  · exact .inl ⟨⟨⟨trace⟩, by rw [matched]; rfl⟩, compile⟩
  · exact .inr ⟨s, missing, meets, breaks, by rw [matched]; rfl⟩

end

/-! ## Elements that matching comes to -/

/-- What matching can come to: the roots, and from there everything below an element, along the
combinators in both directions, among the runtime siblings and at the root above. -/
inductive Template.Visits (t : Template) : NodeId → Prop
  | root {r} (listed : r ∈ t.roots) : Visits t r
  | down {i j} (visited : Visits t i) (inside : j ∈ t.forest.subtree i) : Visits t j
  | forward {k i j} (visited : Visits t i) (leads : t.forest.LeadsTo k i j) : Visits t j
  | backward {k i j} (visited : Visits t i) (leads : t.forest.LeadsFrom k i j) : Visits t j
  | sibling {i j} (visited : Visits t i) (listed : j ∈ t.forest.runtimeSiblings i) : Visits t j
  | top {i} (visited : Visits t i) : Visits t (t.forest.rootOf i)

/-- The node is listed exactly once: by its parent, or among the roots if it has none. -/
structure Template.ListedOnce (t : Template) (j : NodeId) : Prop where
  below : ∀ p, (t.forest.children p).count j = if t.forest.parent j = some p then 1 else 0
  among : t.roots.count j = if t.forest.parent j = none then 1 else 0

/-- A node that has a position among its siblings stands there, and is itself of its type. -/
theorem Forest.siblingPosition_spec {f : Forest} {j : NodeId} {siblings : List NodeId} {k : Nat}
    (h : f.siblingPosition j = .ok (siblings, k)) :
    siblings[k]? = some j ∧ j ∈ f.ofSameTag j siblings := by
  simp only [siblingPosition] at h
  cases found : (f.runtimeSiblings j).idxOf? j with
  | none => simp [found] at h
  | some position =>
    rw [found] at h
    cases h
    obtain ⟨bound, here, -⟩ := List.findIdx?_eq_some_iff_getElem.1 found
    have there : (f.runtimeSiblings j)[k]? = some j := by
      rw [List.getElem?_eq_getElem bound, eq_of_beq here]
    exact ⟨there, List.mem_filter.2 ⟨List.mem_of_getElem? there, by simp⟩⟩

namespace Template.WellFormed

variable {t : Template} {i j : NodeId}

/-- Runtime siblings are nodes of the forest. -/
theorem has_of_mem_runtimeSiblings (wf : t.WellFormed) (hi : t.forest.Has i)
    (h : j ∈ t.forest.runtimeSiblings i) : t.forest.Has j := by
  unfold runtimeSiblings at h
  split at h
  · rwa [List.mem_singleton.1 h]
  · exact wf.has_child (List.mem_filter.1 h).1

/-- Matching can come to every node of the forest, and to nothing else. -/
theorem visits_iff (wf : t.WellFormed) : t.Visits j ↔ t.forest.Has j := by
  constructor
  · intro h
    induction h with
    | root listed => exact wf.has_root listed
    | down _ inside ih => exact wf.has_of_reach (reach_of_mem_subtreeTo inside) ih
    | forward _ leads _ => exact wf.has_of_leadsTo leads
    | backward _ leads _ => exact wf.has_of_leadsFrom leads
    | sibling _ listed ih => exact wf.has_of_mem_runtimeSiblings ih listed
    | top _ ih => exact (wf.rootOf_spec ih).2.1
  · intro h
    obtain ⟨r, hr, inside⟩ := List.mem_flatMap.1 (wf.mem_elements_iff.2 h)
    exact .down (.root hr) inside

theorem listedOnce (wf : t.WellFormed) (hj : t.forest.Has j) : t.ListedOnce j where
  below p := by
    split
    case isTrue hp => exact List.count_eq_one_of_mem (wf.children_nodup p) (wf.child_of_parent hp)
    case isFalse hp => exact List.count_eq_zero.2 fun h => hp (wf.parent_of_child h)
  among := by
    split
    case isTrue hp =>
      obtain ⟨r, hr, path⟩ := wf.reached hj
      obtain rfl | ⟨p, -, child⟩ := path.cases_tail
      · exact List.count_eq_one_of_mem wf.roots_nodup hr
      · exact absurd (wf.parent_of_child child) (by simp [hp])
    case isFalse hp => exact List.count_eq_zero.2 fun h => hp (wf.parent_of_root h)

end Template.WellFormed

/-- Rules lead to nodes of the forest. -/
theorem Leads.has {t : Template} {cfg : Config} {scope : Scope} {rules : List StyleRule}
    {a : Arrival} (wf : t.WellFormed) (inside : scope.Inside t.forest)
    (h : Leads t.forest cfg scope rules a) : t.forest.Has a.element := by
  have selected {scope : Scope} {r : StyleRule} {l : List NodeId} {q : Nat} {i : NodeId}
      (inside : scope.Inside t.forest)
      (selects : selectText t.forest cfg scope r.selector = .ok l) (place : l[q]? = some i) :
      t.forest.Has i := by
    obtain ⟨-, l', selects', has⟩ | ⟨missing, -, breaks⟩ := selectText_ends cfg wf inside r
    · cases selects.symm.trans selects'
      exact has i (List.mem_of_getElem? place)
    · cases selects.symm.trans breaks
  induction h with
  | stop _ selects place => exact selected inside selects place
  | enter _ selects place _ ih => exact ih (Scope.inside_within wf (selected inside selects place))

namespace Matching

/-- Rules that compile can be matched against the elements of any markup: no node on the way is
missing from the children of its parent. Every node that the matching can come to is listed once,
has its position among its runtime siblings, and is one of those with its tag. -/
theorem ofElements_safe (es : List Element) (cfg : Config) (rules : List StyleRule)
    (compile : ∀ r ∈ walkAll rules, r.Compiles) :
    (∃ m, ofRules (.ofElements es) cfg rules = .ok m ∧
      ∀ hit ∈ m.hits, (Template.ofElements es).Visits hit.element) ∧
    ∀ j, (Template.ofElements es).Visits j → (Template.ofElements es).ListedOnce j ∧
      ∃ siblings k, (Template.ofElements es).forest.siblingPosition j = .ok (siblings, k) ∧
        siblings[k]? = some j ∧ j ∈ (Template.ofElements es).forest.ofSameTag j siblings := by
  have wf : (Template.ofElements es).WellFormed := Template.wellFormed_ofTrees _
  constructor
  · obtain ⟨⟨m, matched⟩, -⟩ | ⟨s, missing, meets, breaks, -⟩ := ofRules_ends cfg wf rules
    · refine ⟨m, matched, fun hit listed => wf.visits_iff.2 ?_⟩
      obtain ⟨ρ, -, leads⟩ := (mem_hits_iff matched).1 listed
      exact leads.has wf (Scope.inside_roots wf)
    · exact absurd (compile s meets.mem_walkAll) breaks.not_compiles
  · intro j visits
    obtain ⟨⟨siblings, k⟩, position⟩ := wf.exists_siblingPosition j
    exact ⟨wf.listedOnce (wf.visits_iff.1 visits), siblings, k, position,
      siblingPosition_spec position⟩

/-- A list whose first item stands in a wrapper, with a slot in front of the second. -/
def wrappedItems : List Element :=
  [.element "ul" [] [.element "template" [("v-if", "open")] [.element "li" [] []],
    .element "slot" [] [], .element "li" [] []]]

/-- Rules for the first item of a list. -/
def itemRules : List StyleRule :=
  [⟨"ul", [], [], [], [⟨"li:first-of-type", ["a"], [], [], []⟩]⟩]

theorem compiles_itemRules : ∀ r ∈ walkAll itemRules, r.Compiles := by
  have each : ∀ r ∈ walkAll itemRules, (Selector.compile r.selector).isOk = true := by
    decide +kernel
  intro r hr
  have ok := each r hr
  cases compiled : Selector.compile r.selector with
  | ok selector => exact .inr ⟨selector, compiled⟩
  | error missing =>
    rw [compiled] at ok
    cases ok

/-- Both items are children of the list, and the second one stands behind the first. -/
theorem ofElements_safe_wrappedItems :
    (∀ r ∈ walkAll itemRules, r.Compiles) ∧
      (∃ m, ofRules (.ofElements wrappedItems) .standard itemRules = .ok m) ∧
      (Template.ofElements wrappedItems).ListedOnce 2 ∧
      (Template.ofElements wrappedItems).forest.siblingPosition 2 = .ok ([1, 2], 1) := by
  obtain ⟨⟨m, matched, -⟩, visited⟩ :=
    ofElements_safe wrappedItems .standard itemRules compiles_itemRules
  have visits : (Template.ofElements wrappedItems).Visits 2 :=
    .down (.root (r := 0) (by decide)) (by decide)
  exact ⟨compiles_itemRules, ⟨m, matched⟩, (visited 2 visits).1, rfl⟩

end Matching

end NestedStyles
