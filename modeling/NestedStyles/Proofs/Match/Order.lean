import NestedStyles.Proofs.Match.Routes

/-!
# The order in which rules speak about an element

The classes and the declarations of an element are collected block by block, one block for each
route that leads to it. Rules are tried in the order of the rule tree, but below the rules that two
of them share one element is finished before the next one is begun. So of two rules the earlier one
speaks first unless the later one reaches the element past an earlier element
(`Matching.startsBefore_iff`).
-/

namespace NestedStyles

namespace Matching

variable {words : StyleRule → List String} {i j : NodeId} {ws : List String}
variable {found : List (NodeId × List String)}

theorem lookup_addWords_self :
    ((addWords i ws found).lookup i).getD [] = (found.lookup i).getD [] ++ ws := by
  induction found with
  | nil => simp [addWords]
  | cons e rest ih =>
    obtain ⟨j, old⟩ := e
    by_cases h : i = j
    · simp [addWords, h]
    · simp [addWords, List.lookup_cons, beq_false_of_ne h, ih]

theorem lookup_addWords_of_ne (h : j ≠ i) :
    (addWords i ws found).lookup j = found.lookup j := by
  induction found with
  | nil => simp [addWords, List.lookup_cons, beq_false_of_ne h]
  | cons e rest ih =>
    obtain ⟨k, old⟩ := e
    by_cases hk : i = k
    · subst hk
      simp [addWords, List.lookup_cons, beq_false_of_ne h]
    · by_cases hj : j = k
      · simp [addWords, hk, hj]
      · simp [addWords, hk, List.lookup_cons, beq_false_of_ne hj, ih]

/-- The hits on an element, in the order in which they happen. -/
def hitsOn (m : Matching) (i : NodeId) : List Hit :=
  m.hits.filter (·.element == i)

/-- An element's words are those of its hits, one block after the other. -/
theorem lookup_collect (words : StyleRule → List String) (hits : List Hit) (i : NodeId) :
    ((collect words hits).lookup i).getD [] =
      (hits.filter (·.element == i)).flatMap fun h => words h.rule := by
  suffices general : ∀ found, ((hits.foldl (fun found h =>
      if (words h.rule).isEmpty then found else addWords h.element (words h.rule) found)
      found).lookup i).getD [] = (found.lookup i).getD [] ++
        (hits.filter (·.element == i)).flatMap fun h => words h.rule from general []
  induction hits with
  | nil => simp
  | cons h hits ih =>
    intro found
    rw [List.foldl_cons, ih]
    by_cases silent : words h.rule = []
    · by_cases here : h.element = i <;> simp [silent, here]
    · by_cases here : h.element = i
      · subst here
        simp [silent, lookup_addWords_self]
      · simp [silent, here, lookup_addWords_of_ne (Ne.symm here)]

/-- The first block that the rule at `r` gives to an element comes before the first one of the rule
at `s`. -/
def StartsBefore (m : Matching) (i : NodeId) (r s : RulePath) : Prop :=
  ((m.hitsOn i).map Hit.path).idxOf r < ((m.hitsOn i).map Hit.path).idxOf s

instance (m : Matching) (i : NodeId) (r s : RulePath) : Decidable (m.StartsBefore i r s) :=
  inferInstanceAs (Decidable (_ < _))

end Matching

/-- In a list that is sorted by `R`, a key is met first where some entry with it comes before all
entries with the other key. -/
theorem idxOf_map_lt_iff {α β : Type} [BEq β] [LawfulBEq β] {R : α → α → Prop}
    (asymm : ∀ {a b}, R a b → ¬ R b a) {g : α → β} {x y : β} (ne : x ≠ y) {l : List α}
    (sorted : l.Pairwise R) (mem : ∃ a ∈ l, g a = x) :
    (l.map g).idxOf x < (l.map g).idxOf y ↔
      ∀ b ∈ l, g b = y → ∃ a ∈ l, g a = x ∧ R a b := by
  induction l with
  | nil => simp at mem
  | cons c l ih =>
    obtain ⟨first, sorted⟩ := List.pairwise_cons.1 sorted
    by_cases hx : g c = x
    · have hy : g c ≠ y := fun h => ne (hx.symm.trans h)
      rw [List.map_cons, List.idxOf_cons_eq _ hx, List.idxOf_cons_ne _ hy]
      refine ⟨fun _ b hb hb' => ⟨c, List.mem_cons_self, hx, ?_⟩, fun _ => Nat.succ_pos _⟩
      rcases List.mem_cons.1 hb with rfl | hb
      · exact (hy hb').elim
      · exact first b hb
    · have rest : ∃ a ∈ l, g a = x := by
        obtain ⟨a, ha, hax⟩ := mem
        rcases List.mem_cons.1 ha with rfl | ha
        · exact (hx hax).elim
        · exact ⟨a, ha, hax⟩
      by_cases hy : g c = y
      · rw [List.map_cons, List.idxOf_cons_eq _ hy]
        refine ⟨fun h => (Nat.not_lt_zero _ h).elim, fun h => ?_⟩
        obtain ⟨a, ha, hax, before⟩ := h c List.mem_cons_self hy
        rcases List.mem_cons.1 ha with rfl | ha
        · exact (hx hax).elim
        · exact (asymm before (first a ha)).elim
      · rw [List.map_cons, List.idxOf_cons_ne _ hx, List.idxOf_cons_ne _ hy, Nat.succ_lt_succ_iff,
          ih sorted rest]
        simp only [List.mem_cons, exists_eq_or_imp, forall_eq_or_imp, hx, hy, false_and, false_or,
          false_implies, true_and]

/-- The number of rules that two paths have in common at the top. -/
def RulePath.shared : RulePath → RulePath → Nat
  | i :: r, j :: s => if i = j then shared r s + 1 else 0
  | _, _ => 0

/-- Of two routes, the one to the earlier rule comes first unless the other one passes an earlier
element among those of the rules they share. -/
theorem Route.before_iff {ρ σ : Route} (order : List.Lex (· < ·) ρ.path σ.path) :
    ρ.Before σ ↔ ¬ List.Lex (· < ·) (σ.places.take (RulePath.shared ρ.path σ.path))
      (ρ.places.take (RulePath.shared ρ.path σ.path)) := by
  induction ρ generalizing σ with
  | nil =>
    cases σ with
    | nil => cases order
    | cons b σ =>
      refine ⟨fun _ h => ?_, fun _ => .nil⟩
      cases h
  | cons a ρ ih =>
    obtain ⟨k, p⟩ := a
    cases σ with
    | nil => cases order
    | cons b σ =>
      obtain ⟨l, q⟩ := b
      rw [path, path, List.map_cons, List.map_cons, List.cons_lex_cons_iff] at order
      rcases order with h | ⟨rfl, h⟩
      · have ne : k ≠ l := Nat.ne_of_lt h
        refine ⟨fun _ => ?_, fun _ => .rel (.inl h)⟩
        simp [path, RulePath.shared, ne]
      · have step : Before (⟨k, p⟩ :: ρ) (⟨k, q⟩ :: σ) ↔ p < q ∨ p = q ∧ Before ρ σ := by
          simp [Before, List.cons_lex_cons_iff, Turn.Before]
        rw [step, ih h]
        simp only [path, List.map_cons, RulePath.shared, if_true, places, List.take_succ_cons,
          List.cons_lex_cons_iff]
        rcases Nat.lt_trichotomy p q with h | rfl | h
        · simp [h, Nat.not_lt_of_lt h, Nat.ne_of_gt h]
        · simp
        · simp [h, Nat.not_lt_of_lt h, Nat.ne_of_gt h]

namespace Matching

variable {t : Template} {cfg : Config} {rules : List StyleRule} {m : Matching}
variable {r s : RulePath} {i : NodeId}

/-- The rule at `r` leads to the element along this route. -/
def ReachedAlong (t : Template) (cfg : Config) (rules : List StyleRule) (r : RulePath) (i : NodeId)
    (ρ : Route) : Prop :=
  ρ.path = r ∧ ∃ rule, Leads t.forest cfg ⟨t.roots, none⟩ rules ⟨ρ, rule, i⟩

/-- Of two rules the earlier one speaks first unless some route to the later one passes, among the
elements of the rules they share, an earlier element than all routes to the earlier one. -/
theorem startsBefore_iff (h : ofRules t cfg rules = .ok m) (order : List.Lex (· < ·) r s)
    (hr : ∃ ρ, ReachedAlong t cfg rules r i ρ) :
    m.StartsBefore i r s ↔ ∀ σ, ReachedAlong t cfg rules s i σ →
      ∃ ρ, ReachedAlong t cfg rules r i ρ ∧
        ¬ List.Lex (· < ·) (σ.places.take (r.shared s)) (ρ.places.take (r.shared s)) := by
  obtain ⟨arrivals, hits, sorted, mem⟩ := lists_ofRules h
  have ne : r ≠ s := by
    rintro rfl
    exact List.lex_asymm (fun h => Nat.not_lt_of_lt h) order order
  have paths : (m.hitsOn i).map Hit.path =
      (arrivals.filter (·.element == i)).map fun a => a.route.path := by
    rw [hitsOn, hits, List.filter_map, List.map_map]
    rfl
  have reached (k : RulePath) (ρ : Route) : ReachedAlong t cfg rules k i ρ ↔
      ∃ a ∈ arrivals.filter (·.element == i), a.route.path = k ∧ a.route = ρ := by
    constructor
    · rintro ⟨hρ, rule, leads⟩
      exact ⟨⟨ρ, rule, i⟩, List.mem_filter.2 ⟨(mem _).2 leads, beq_self_eq_true i⟩, hρ, rfl⟩
    · rintro ⟨a, ha, hρ, rfl⟩
      obtain ⟨listed, here⟩ := List.mem_filter.1 ha
      obtain rfl : a.element = i := beq_iff_eq.1 here
      exact ⟨hρ, a.rule, (mem a).1 listed⟩
  have speaks : ∃ a ∈ arrivals.filter (·.element == i), a.route.path = r := by
    obtain ⟨ρ, hρ⟩ := hr
    obtain ⟨a, ha, har, -⟩ := (reached r ρ).1 hρ
    exact ⟨a, ha, har⟩
  rw [StartsBefore, paths, idxOf_map_lt_iff Route.Before.asymm ne (sorted.filter _) speaks]
  constructor
  · intro first σ hσ
    obtain ⟨b, hb, hbs, rfl⟩ := (reached s σ).1 hσ
    obtain ⟨a, ha, har, before⟩ := first b hb hbs
    refine ⟨a.route, (reached r _).2 ⟨a, ha, har, rfl⟩, ?_⟩
    rw [Route.before_iff (by rwa [har, hbs]), har, hbs] at before
    exact before
  · intro first b hb hbs
    obtain ⟨ρ, hρ, before⟩ := first b.route ((reached s _).2 ⟨b, hb, hbs, rfl⟩)
    obtain ⟨a, ha, har, rfl⟩ := (reached r ρ).1 hρ
    refine ⟨a, ha, har, ?_⟩
    rw [Route.before_iff (by rwa [har, hbs]), har, hbs]
    exact before

/-- A rule speaks before all rules that stand below later ones at the top of the rule tree. -/
theorem startsBefore_of_head_lt {k l : Nat} (h : ofRules t cfg rules = .ok m) (order : k < l)
    (hr : ∃ ρ, ReachedAlong t cfg rules (k :: r) i ρ) : m.StartsBefore i (k :: r) (l :: s) := by
  rw [startsBefore_iff h (.rel order) hr]
  obtain ⟨ρ, hρ⟩ := hr
  intro σ _
  have shared : RulePath.shared (k :: r) (l :: s) = 0 := by
    rw [RulePath.shared, if_neg (Nat.ne_of_lt order)]
  exact ⟨ρ, hρ, by simp [shared]⟩

/-- The words of an element are collected block by block, and of two rules that stand one after the
other in the rule tree the earlier one begins just where no route to the later one passes an earlier
element than all routes to the earlier one do, among the elements of the rules they share. -/
theorem collected_in_order_iff (h : ofRules t cfg rules = .ok m) (order : List.Lex (· < ·) r s)
    (hr : ∃ ρ, ReachedAlong t cfg rules r i ρ) :
    (m.classes.lookup i).getD [] = (m.hitsOn i).flatMap (fun h => h.rule.classes) ∧
    (m.declarations.lookup i).getD [] = (m.hitsOn i).flatMap (fun h => h.rule.declarations) ∧
    (m.StartsBefore i r s ↔ ∀ σ, ReachedAlong t cfg rules s i σ →
      ∃ ρ, ReachedAlong t cfg rules r i ρ ∧
        ¬ List.Lex (· < ·) (σ.places.take (r.shared s)) (ρ.places.take (r.shared s))) :=
  ⟨lookup_collect _ _ _, lookup_collect _ _ _, startsBefore_iff h order hr⟩

/-- A box in a box. -/
def nestedBoxes : Template :=
  .ofTrees [.node { Label.blank with tag := "div" } [.node { Label.blank with tag := "div" } []]]

/-- A rule for boxes, with one for the boxes in them. -/
def boxRules : List StyleRule :=
  [⟨"div", ["a"], [], [], [⟨"div", ["b"], [], [], []⟩]⟩]

theorem isParentSelector_box : isParentSelector "div" = false := by decide +kernel

theorem compile_box :
    Selector.compile "div" = .ok ⟨[⟨.start .descendant [.type "div"], .free⟩], []⟩ := by
  with_unfolding_all rfl

theorem selectText_box (f : Forest) (scope : Scope) : selectText f .standard scope "div" =
    (Selector.select f .standard scope
      ⟨[⟨.start .descendant [.type "div"], .free⟩], []⟩).mapError .stray := by
  rw [selectText, isParentSelector_box, compile_box]
  rfl

/-- The inner box is given the nested rule's class while the outer box is at work, and the class of
the rule itself only then. -/
theorem collected_in_order_nestedBoxes :
    ∃ m, ofRules nestedBoxes .standard boxRules = .ok m ∧ List.Lex (· < ·) [0] [0, 0] ∧
      (∃ ρ, ReachedAlong nestedBoxes .standard boxRules [0] 1 ρ) ∧
      (∃ σ, ReachedAlong nestedBoxes .standard boxRules [0, 0] 1 σ) ∧
      m.classes.lookup 1 = some ["b", "a"] ∧ ¬ m.StartsBefore 1 [0] [0, 0] := by
  have run : ofRules nestedBoxes .standard boxRules = .ok ⟨[.applied "div",
      .hit ⟨[0], ⟨"div", ["a"], [], [], [⟨"div", ["b"], [], [], []⟩]⟩, 0⟩, .applied "div",
      .hit ⟨[0, 0], ⟨"div", ["b"], [], [], []⟩, 1⟩,
      .hit ⟨[0], ⟨"div", ["a"], [], [], [⟨"div", ["b"], [], [], []⟩]⟩, 1⟩, .applied "div"]⟩ := by
    simp only [ofRules, boxRules, matchRules, matchRule, selectText_box]
    rfl
  have outer : selectText nestedBoxes.forest .standard ⟨nestedBoxes.roots, none⟩ "div" =
      .ok [0, 1] := by
    rw [selectText_box]
    rfl
  have inner : selectText nestedBoxes.forest .standard ⟨[1], some [0]⟩ "div" = .ok [1] := by
    rw [selectText_box]
    rfl
  have late : ∃ ρ, ReachedAlong nestedBoxes .standard boxRules [0] 1 ρ :=
    ⟨[⟨0, 1⟩], rfl, _, .stop rfl outer rfl⟩
  have early : ReachedAlong nestedBoxes .standard boxRules [0, 0] 1 [⟨0, 0⟩, ⟨0, 0⟩] :=
    ⟨rfl, _, .enter (a := ⟨[⟨0, 0⟩], _, 1⟩) rfl outer rfl (.stop rfl inner rfl)⟩
  have order : List.Lex (· < ·) [0] [0, 0] := .cons .nil
  refine ⟨_, run, order, late, ⟨_, early⟩, rfl, fun first => ?_⟩
  obtain ⟨ρ, ⟨hρ, rule, leads⟩, passed⟩ :=
    (collected_in_order_iff run order late).2.2.1 first _ early
  apply passed
  -- The rule itself selects the inner box in its second place.
  obtain ⟨k, r, hr, selected, selects, q, j, place, same | ⟨b, below, same⟩⟩ := leads_iff.1 leads
  · cases same
    obtain rfl : k = 0 := by simpa [Route.path] using hρ
    cases hr
    obtain rfl : [0, 1] = selected := Except.ok.inj (outer.symm.trans selects)
    rcases q with _ | _ | q
    · cases place
    · exact .rel Nat.zero_lt_one
    · cases place
  · obtain rfl : ⟨k, q⟩ :: b.route = ρ := congrArg Arrival.route same
    have ended : k = 0 ∧ b.route = [] := by simpa [Route.path] using hρ
    exact absurd ended.2 below.route_ne_nil

end Matching

end NestedStyles
