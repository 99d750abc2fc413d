import NestedStyles.Proofs.Match.Flattening
import NestedStyles.Validate

/-!
# Rules that select nothing

The check for selectors without an element goes down the rule tree and enters a rule if it selected
some element or is a `&`. A nested rule is applied only to elements of the rule around it, so below
a rule that is not entered nothing is selected (`Matching.Finds.above`), and what the check leaves
out there is no loss: it reports the topmost rules with content that select nothing
(`Validate.unmatchedSelectors_complete`).
-/

namespace NestedStyles

/-! ## Rules with their paths -/

namespace StyleRule

mutual

/-- The rule at `path` and the rules nested in it, depth first, each with its path. -/
def numbered (path : RulePath) : StyleRule → List (RulePath × StyleRule)
  | r@⟨_, _, _, _, children⟩ => (path, r) :: numberedAll path 0 children

/-- The rules from the one with index `k` on below the rule at `path`, with the rules nested in them,
depth first, each with its path. -/
def numberedAll (path : RulePath) (k : Nat) : List StyleRule → List (RulePath × StyleRule)
  | [] => []
  | r :: rs => r.numbered (path ++ [k]) ++ numberedAll path (k + 1) rs

end

variable {path : RulePath} {k : Nat} {r : StyleRule} {rs : List StyleRule}
  {e : RulePath × StyleRule}

mutual

theorem map_snd_numbered (path : RulePath) (r : StyleRule) :
    (r.numbered path).map Prod.snd = r.walk := by
  obtain ⟨selector, classes, declarations, uses, children⟩ := r
  rw [numbered, walk, List.map_cons, map_snd_numberedAll]

/-- The rules with their paths are the rules depth first. -/
theorem map_snd_numberedAll (path : RulePath) (k : Nat) (rs : List StyleRule) :
    (numberedAll path k rs).map Prod.snd = walkAll rs := by
  cases rs with
  | nil => rfl
  | cons r rs => rw [numberedAll, walkAll, List.map_append, map_snd_numbered, map_snd_numberedAll]

end

mutual

theorem prefix_of_mem_numbered (path : RulePath) (r : StyleRule) (h : e ∈ r.numbered path) :
    path <+: e.1 := by
  obtain ⟨selector, classes, declarations, uses, children⟩ := r
  rw [numbered] at h
  obtain rfl | h := List.mem_cons.1 h
  · exact List.prefix_rfl
  · obtain ⟨j, -, inner⟩ := prefix_of_mem_numberedAll path 0 children h
    exact (List.prefix_append path [j]).trans inner

theorem prefix_of_mem_numberedAll (path : RulePath) (k : Nat) (rs : List StyleRule)
    (h : e ∈ numberedAll path k rs) : ∃ j, k ≤ j ∧ path ++ [j] <+: e.1 := by
  cases rs with
  | nil => cases h
  | cons r rs =>
    rw [numberedAll] at h
    obtain h | h := List.mem_append.1 h
    · exact ⟨k, Nat.le_refl k, prefix_of_mem_numbered (path ++ [k]) r h⟩
    · obtain ⟨j, le, inner⟩ := prefix_of_mem_numberedAll path (k + 1) rs h
      exact ⟨j, Nat.le_of_succ_le le, inner⟩

end

/-- A path goes through one rule at most of those side by side. -/
theorem eq_of_prefix {l : RulePath} {j : Nat} (h : path ++ [k] <+: l) (h' : path ++ [j] <+: l) :
    k = j := by
  have same := (List.prefix_of_prefix_length_le h h' (by simp)).eq_of_length (by simp)
  exact List.singleton_inj.1 (List.append_cancel_left same)

/-- No rule lies in one that stands beside it. -/
theorem not_prefix_beside {a b : RulePath × StyleRule} (ha : a ∈ r.numbered (path ++ [k]))
    (hb : b ∈ numberedAll path (k + 1) rs) : ¬ a.1 <+: b.1 ∧ ¬ b.1 <+: a.1 := by
  have first := prefix_of_mem_numbered (path ++ [k]) r ha
  obtain ⟨j, le, second⟩ := prefix_of_mem_numberedAll path (k + 1) rs hb
  constructor
  · intro inner
    have same := eq_of_prefix (first.trans inner) second
    omega
  · intro inner
    have same := eq_of_prefix first (second.trans inner)
    omega

theorem ne_of_mem_numberedAll (h : e ∈ numberedAll path k rs) : path <+: e.1 ∧ path ≠ e.1 := by
  obtain ⟨j, -, inner⟩ := prefix_of_mem_numberedAll path k rs h
  refine ⟨(List.prefix_append path [j]).trans inner, ?_⟩
  rintro rfl
  simpa using inner.length_le

mutual

theorem paths_nodup (path : RulePath) (r : StyleRule) :
    ((r.numbered path).map Prod.fst).Nodup := by
  obtain ⟨selector, classes, declarations, uses, children⟩ := r
  rw [numbered, List.map_cons, List.nodup_cons]
  refine ⟨fun mem => ?_, paths_nodup_all path 0 children⟩
  obtain ⟨e, he, same⟩ := List.mem_map.1 mem
  exact (ne_of_mem_numberedAll he).2 same.symm

/-- Each rule has a path of its own. -/
theorem paths_nodup_all (path : RulePath) (k : Nat) (rs : List StyleRule) :
    ((numberedAll path k rs).map Prod.fst).Nodup := by
  cases rs with
  | nil => exact .nil
  | cons r rs =>
    rw [numberedAll, List.map_append]
    refine List.Nodup.append (paths_nodup _ r) (paths_nodup_all path (k + 1) rs) ?_
    intro p first second
    obtain ⟨a, ha, rfl⟩ := List.mem_map.1 first
    obtain ⟨b, hb, same⟩ := List.mem_map.1 second
    exact (not_prefix_beside ha hb).1 (same ▸ List.prefix_rfl)

end

end StyleRule

open StyleRule

/-! ## What is reported -/

namespace Validate

variable {isMatched : RulePath → Bool} {all others : List (RulePath × StyleRule)}
  {found more : List StyleRule} {e : RulePath × StyleRule}

/-- The check goes into the rule. -/
def Enters (isMatched : RulePath → Bool) (e : RulePath × StyleRule) : Prop :=
  isMatched e.1 = true ∨ e.2.selector = "&"

/-- The rule has content and is not entered, but all rules around it are. -/
structure Loose (isMatched : RulePath → Bool) (all : List (RulePath × StyleRule))
    (e : RulePath × StyleRule) : Prop where
  content : e.2.hasContent = true
  left : ¬ Enters isMatched e
  around : ∀ a ∈ all, a.1 <+: e.1 → a.1 ≠ e.1 → Enters isMatched a

/-- The rules found are the loose ones of the list, in its order. -/
def Reports (isMatched : RulePath → Bool) (all : List (RulePath × StyleRule))
    (found : List StyleRule) : Prop :=
  ∃ reported : List (RulePath × StyleRule), found = reported.map Prod.snd ∧
    reported.Sublist all ∧ ∀ e ∈ all, e ∈ reported ↔ Loose isMatched all e

theorem loose_congr (same : ∀ a, a.1 <+: e.1 → (a ∈ all ↔ a ∈ others)) :
    Loose isMatched all e ↔ Loose isMatched others e := by
  constructor
  · rintro ⟨content, left, around⟩
    exact ⟨content, left, fun a ha above => around a ((same a above).2 ha) above⟩
  · rintro ⟨content, left, around⟩
    exact ⟨content, left, fun a ha above => around a ((same a above).1 ha) above⟩

theorem Reports.append (h : Reports isMatched all found) (h' : Reports isMatched others more)
    (apart : ∀ a ∈ all, ∀ b ∈ others, ¬ a.1 <+: b.1 ∧ ¬ b.1 <+: a.1) :
    Reports isMatched (all ++ others) (found ++ more) := by
  obtain ⟨reported, rfl, sub, mem⟩ := h
  obtain ⟨reported', rfl, sub', mem'⟩ := h'
  refine ⟨reported ++ reported', List.map_append.symm, sub.append sub', fun e he => ?_⟩
  rw [List.mem_append]
  obtain he | he := List.mem_append.1 he
  · have other : e ∉ reported' := fun h => (apart e he e (sub'.subset h)).1 List.prefix_rfl
    have alone : Loose isMatched (all ++ others) e ↔ Loose isMatched all e :=
      loose_congr fun a above => List.mem_append.trans
        (or_iff_left fun ha => (apart e he a ha).2 above)
    rw [alone, ← mem e he]
    exact or_iff_left other
  · have other : e ∉ reported := fun h => (apart e (sub.subset h) e he).1 List.prefix_rfl
    have alone : Loose isMatched (all ++ others) e ↔ Loose isMatched others e :=
      loose_congr fun a above => List.mem_append.trans
        (or_iff_right fun ha => (apart a ha e he).1 above)
    rw [alone, ← mem' e he]
    exact or_iff_right other

/-- Of a rule that is entered what is reported lies in it. -/
theorem Reports.enter {path : RulePath} {r : StyleRule} (h : Reports isMatched all found)
    (enters : Enters isMatched (path, r)) (inside : ∀ a ∈ all, path <+: a.1 ∧ path ≠ a.1) :
    Reports isMatched ((path, r) :: all) found := by
  obtain ⟨reported, rfl, sub, mem⟩ := h
  refine ⟨reported, rfl, sub.cons _, fun e he => ?_⟩
  obtain rfl | he := List.mem_cons.1 he
  · refine iff_of_false (fun h => ?_) fun loose => loose.left enters
    exact (inside _ (sub.subset h)).2 rfl
  · rw [mem e he]
    constructor
    · intro loose
      refine ⟨loose.content, loose.left, fun a ha above proper => ?_⟩
      obtain rfl | ha := List.mem_cons.1 ha
      · exact enters
      · exact loose.around a ha above proper
    · intro loose
      exact ⟨loose.content, loose.left, fun a ha => loose.around a (List.mem_cons_of_mem _ ha)⟩

/-- Of a rule that is not entered nothing inside is reported. -/
theorem Reports.leave {path : RulePath} {r : StyleRule} (left : ¬ Enters isMatched (path, r))
    (inside : ∀ a ∈ all, path <+: a.1 ∧ path ≠ a.1) :
    Reports isMatched ((path, r) :: all) (if r.hasContent then [r] else []) := by
  have top : Loose isMatched ((path, r) :: all) (path, r) ↔ r.hasContent = true := by
    refine ⟨Loose.content, fun content => ⟨content, left, fun a ha above proper => ?_⟩⟩
    obtain rfl | ha := List.mem_cons.1 ha
    · exact absurd rfl proper
    · exact absurd (above.eq_of_length_le (inside a ha).1.length_le) proper
  have below : ∀ e ∈ all, ¬ Loose isMatched ((path, r) :: all) e := fun e he loose =>
    left (loose.around _ List.mem_cons_self (inside e he).1 (inside e he).2)
  refine ⟨if r.hasContent then [(path, r)] else [], ?_, ?_, fun e he => ?_⟩
  · split <;> rfl
  · split
    · exact (List.nil_sublist all).cons_cons _
    · exact List.nil_sublist _
  · obtain rfl | he := List.mem_cons.1 he
    · rw [top]
      split <;> simp_all
    · refine iff_of_false (fun h => ?_) (below e he)
      split at h
      · obtain rfl := List.mem_singleton.1 h
        exact (inside _ he).2 rfl
      · cases h

mutual

theorem reports_unmatchedRule (isMatched : RulePath → Bool) (path : RulePath) (r : StyleRule) :
    Reports isMatched (r.numbered path) (unmatchedRule isMatched path r) := by
  obtain ⟨selector, classes, declarations, uses, children⟩ := r
  have inside : ∀ a ∈ numberedAll path 0 children, path <+: a.1 ∧ path ≠ a.1 :=
    fun a => ne_of_mem_numberedAll
  rw [unmatchedRule, numbered]
  split
  next enters =>
    have enters : Enters isMatched (path, ⟨selector, classes, declarations, uses, children⟩) := by
      simpa [Enters, or_comm] using enters
    exact (reports_unmatchedRules isMatched path 0 children).enter enters inside
  next left =>
    refine Reports.leave (fun enters => left ?_) inside
    simpa [Enters, or_comm] using enters

/-- The check reports the loose rules depth first. -/
theorem reports_unmatchedRules (isMatched : RulePath → Bool) (path : RulePath) (k : Nat)
    (rs : List StyleRule) :
    Reports isMatched (numberedAll path k rs) (unmatchedRules isMatched path k rs) := by
  cases rs with
  | nil => exact ⟨[], rfl, List.nil_sublist _, fun e he => by cases he⟩
  | cons r rs =>
    rw [unmatchedRules, numberedAll]
    exact (reports_unmatchedRule isMatched (path ++ [k]) r).append
      (reports_unmatchedRules isMatched path (k + 1) rs) fun a ha b hb => not_prefix_beside ha hb

end

end Validate

/-! ## What is matched -/

theorem Reached.above {t : Template} {cfg : Config} {scope : Scope} {rules : List StyleRule}
    {p q : RulePath} {s : StyleRule} {j : NodeId}
    (h : Reached t.forest cfg scope rules p s j) (above : q <+: p) (nonempty : q ≠ []) :
    ∃ r i, Reached t.forest cfg scope rules q r i := by
  induction q generalizing scope rules p with
  | nil => exact absurd rfl nonempty
  | cons k q ih =>
    obtain ⟨p', rfl⟩ := above
    obtain ⟨r, rule, l, selects, i, hi, ending⟩ := reached_cons_iff.1 h
    by_cases last : q = []
    · subst last
      exact ⟨r, i, reached_cons_iff.2 ⟨r, rule, l, selects, i, hi, .inl ⟨rfl, rfl, rfl⟩⟩⟩
    · obtain ⟨whole, -⟩ | inner := ending
      · exact absurd (List.append_eq_nil_iff.1 whole).1 last
      · obtain ⟨r', i', shorter⟩ := ih inner (List.prefix_append q p') last
        exact ⟨r', i', reached_cons_iff.2 ⟨r, rule, l, selects, i, hi, .inr shorter⟩⟩

namespace Matching

variable {t : Template} {cfg : Config} {rules : List StyleRule} {m : Matching} {p q : RulePath}

/-- The rule at a path selects some element, among the roots and what is below them or, if it is
nested, from some element that the rule around it selects. -/
def Finds (t : Template) (cfg : Config) (rules : List StyleRule) (p : RulePath) : Prop :=
  ∃ r i, Reached t.forest cfg ⟨t.roots, none⟩ rules p r i

theorem isMatched_iff (h : ofRules t cfg rules = .ok m) :
    m.isMatched p = true ↔ Finds t cfg rules p := by
  rw [isMatched, List.any_eq_true]
  constructor
  · rintro ⟨hit, mem, same⟩
    obtain rfl := beq_iff_eq.1 same
    exact ⟨hit.rule, hit.element, (mem_hits_iff h).1 mem⟩
  · rintro ⟨r, i, reached⟩
    exact ⟨⟨p, r, i⟩, (mem_hits_iff h).2 reached, beq_self_eq_true p⟩

/-- Below a rule that selects nothing no rule does. -/
theorem Finds.above (h : Finds t cfg rules p) (above : q <+: p) (nonempty : q ≠ []) :
    Finds t cfg rules q := by
  obtain ⟨r, i, reached⟩ := h
  exact reached.above above nonempty

end Matching

namespace Validate

open Matching

variable {t : Template} {cfg : Config} {rules : List StyleRule} {m : Matching}

/-- The rules reported after matching are, each once and depth first, those with content that are no
`&` and select nothing, while every rule around them selects something or is a `&`. No rule in one
that selects nothing selects anything, so that a rule with content that is no `&` is matched, or
reported, or lies in one that has put nothing on any element. -/
theorem unmatchedSelectors_complete (h : ofRules t cfg rules = .ok m) :
    ∃ reported : List (RulePath × StyleRule),
      unmatchedSelectors t rules m = (reported.map fun e => Finding.unmatchedSelector e.2.selector
        (t.elements.any fun i => (t.forest.label i).hasDynamicClass)) ∧
      reported.Sublist (numberedAll [] 0 rules) ∧ (reported.map Prod.fst).Nodup ∧
      (∀ e ∈ numberedAll [] 0 rules, e ∈ reported ↔
        e.2.hasContent = true ∧ e.2.selector ≠ "&" ∧ ¬ Finds t cfg rules e.1 ∧
          ∀ a ∈ numberedAll [] 0 rules, a.1 <+: e.1 → a.1 ≠ e.1 →
            Finds t cfg rules a.1 ∨ a.2.selector = "&") ∧
      (∀ a ∈ numberedAll [] 0 rules, ∀ e ∈ numberedAll [] 0 rules, a.1 <+: e.1 →
        ¬ Finds t cfg rules a.1 → ¬ Finds t cfg rules e.1) ∧
      ∀ e ∈ numberedAll [] 0 rules, e.2.hasContent = true → e.2.selector ≠ "&" →
        Finds t cfg rules e.1 ∨ e ∈ reported ∨ ∃ a ∈ numberedAll [] 0 rules,
          a.1 <+: e.1 ∧ a.1 ≠ e.1 ∧ ∀ hit ∈ m.hits, hit.path ≠ a.1 := by
  obtain ⟨reported, found, sub, mem⟩ := reports_unmatchedRules m.isMatched [] 0 rules
  have matched {e : RulePath × StyleRule} :
      Enters m.isMatched e ↔ Finds t cfg rules e.1 ∨ e.2.selector = "&" := by
    rw [Enters, isMatched_iff h]
  have loose : ∀ e ∈ numberedAll [] 0 rules, e ∈ reported ↔
      e.2.hasContent = true ∧ e.2.selector ≠ "&" ∧ ¬ Finds t cfg rules e.1 ∧
        ∀ a ∈ numberedAll [] 0 rules, a.1 <+: e.1 → a.1 ≠ e.1 →
          Finds t cfg rules a.1 ∨ a.2.selector = "&" := by
    intro e he
    rw [mem e he]
    constructor
    · rintro ⟨content, left, around⟩
      rw [matched, not_or] at left
      exact ⟨content, left.2, left.1, fun a ha above proper =>
        matched.1 (around a ha above proper)⟩
    · rintro ⟨content, other, nothing, around⟩
      exact ⟨content, fun enters => (matched.1 enters).elim nothing other,
        fun a ha above proper => matched.2 (around a ha above proper)⟩
  refine ⟨reported, ?_, sub, ?_, loose, ?_, ?_⟩
  · rw [unmatchedSelectors, found, List.map_map]
    rfl
  · exact (paths_nodup_all [] 0 rules).sublist (sub.map Prod.fst)
  · intro a ha e _ above nothing finds
    exact nothing (finds.above above fun top => (ne_of_mem_numberedAll ha).2 top.symm)
  · intro e he content other
    by_cases finds : Finds t cfg rules e.1
    · exact .inl finds
    by_cases told : e ∈ reported
    · exact .inr (.inl told)
    -- A rule that is not reported lies in one that is neither matched nor a `&`.
    rw [loose e he] at told
    push Not at told
    obtain ⟨a, ha, above, proper, nothing, -⟩ := told content other finds
    refine .inr (.inr ⟨a, ha, above, proper, fun hit listed same => nothing ?_⟩)
    exact (isMatched_iff h).1 (List.any_eq_true.2 ⟨hit, listed, beq_iff_eq.2 same⟩)

/-- Rules for paragraphs, alone and below `&`, and for boxes. -/
def paragraphRules : List StyleRule :=
  [⟨"p", ["a"], [], [], [⟨"div", ["b"], [], [], []⟩]⟩,
    ⟨"&", [], [], [], [⟨"p", ["c"], [], [], []⟩]⟩, ⟨"div", ["d"], [], [], []⟩]

theorem isParentSelector_paragraph : isParentSelector "p" = false := by decide +kernel

theorem isParentSelector_ampersand : isParentSelector "&" = true := by decide +kernel

theorem compile_paragraph :
    Selector.compile "p" = .ok ⟨[⟨.start .descendant [.type "p"], .free⟩], []⟩ := by
  with_unfolding_all rfl

/-- Where there is a box and no paragraph both rules for paragraphs are reported, and the one for a
box in a paragraph is not. -/
theorem unmatchedSelectors_complete_noParagraph :
    ∃ m, ofRules boxInSection .standard paragraphRules = .ok m ∧
      unmatchedSelectors boxInSection paragraphRules m =
        [.unmatchedSelector "p" false, .unmatchedSelector "p" false] ∧
      ∃ reported : List (RulePath × StyleRule), unmatchedSelectors boxInSection paragraphRules m =
          (reported.map fun e => Finding.unmatchedSelector e.2.selector false) ∧
        ∀ e ∈ numberedAll [] 0 paragraphRules, e ∈ reported ↔ e.1 = [0] ∨ e.1 = [1, 0] := by
  have paragraph (scope : Scope) : selectText boxInSection.forest .standard scope "p" =
      (Selector.select boxInSection.forest .standard scope
        ⟨[⟨.start .descendant [.type "p"], .free⟩], []⟩).mapError .stray := by
    rw [selectText, isParentSelector_paragraph, compile_paragraph]
    rfl
  have ampersand (scope : Scope) :
      selectText boxInSection.forest .standard scope "&" = .ok scope.anchors := by
    rw [selectText, isParentSelector_ampersand]
    rfl
  have run : ofRules boxInSection .standard paragraphRules = .ok ⟨[.applied "p", .applied "&",
      .hit ⟨[1], ⟨"&", [], [], [], [⟨"p", ["c"], [], [], []⟩]⟩, 0⟩, .applied "p",
      .applied "div", .hit ⟨[2], ⟨"div", ["d"], [], [], []⟩, 1⟩]⟩ := by
    simp only [ofRules, paragraphRules, matchRules, matchRule, selectText_box, paragraph, ampersand]
    rfl
  obtain ⟨reported, found, -, -, mem, -⟩ := unmatchedSelectors_complete run
  refine ⟨_, run, by decide, reported, found, fun e he => ?_⟩
  rw [mem e he]
  simp only [← isMatched_iff run]
  revert e
  decide +kernel

end Validate

end NestedStyles
