import Mathlib.Data.List.Lex
import NestedStyles.Match.RuleTree

/-!
# Ways through a rule tree

A nested rule is applied once for each element its enclosing rule has selected, so that one rule can
reach an element in several ways. A route writes down such a way: at each level the rule, and which
of its elements comes next. The trace of a matching lists the routes in lexicographic order
(`exists_routes_matchRules`), where a rule's own elements come before the rules below it.
-/

namespace NestedStyles

/-- One level of a route: a rule, by its index, and the place of an element among those it selects.
-/
structure Turn where
  rule : Nat
  place : Nat
  deriving DecidableEq, Repr

/-- The turns taken from the top of a rule tree. -/
abbrev Route := List Turn

/-- The turn comes earlier: the rule does, or the element does and the rule is the same. -/
def Turn.Before (a b : Turn) : Prop :=
  a.rule < b.rule ∨ a.rule = b.rule ∧ a.place < b.place

theorem Turn.Before.asymm {a b : Turn} (h : a.Before b) : ¬ b.Before a := by
  unfold Before at h ⊢
  omega

namespace Route

/-- The path of the rule a route ends at. -/
def path (ρ : Route) : RulePath :=
  ρ.map Turn.rule

/-- The places of the elements a route passes. -/
def places (ρ : Route) : List Nat :=
  ρ.map Turn.place

/-- The route comes earlier: it does at the first turn where the two differ, or it ends there. -/
def Before (ρ σ : Route) : Prop :=
  List.Lex Turn.Before ρ σ

theorem Before.asymm {ρ σ : Route} (h : ρ.Before σ) : ¬ σ.Before ρ :=
  List.lex_asymm Turn.Before.asymm h

end Route

/-- A route with the rule it ends at and the element that rule selects. -/
structure Arrival where
  route : Route
  rule : StyleRule
  element : NodeId

namespace Arrival

/-- What the arrival leaves in the trace below the rule at `path`. -/
def hit (path : RulePath) (a : Arrival) : Hit :=
  ⟨path ++ a.route.path, a.rule, a.element⟩

/-- The arrival with one more turn in front. -/
def after (turn : Turn) (a : Arrival) : Arrival :=
  { a with route := turn :: a.route }

theorem hit_after (path : RulePath) (turn : Turn) (a : Arrival) :
    (a.after turn).hit path = a.hit (path ++ [turn.rule]) := by
  simp [hit, after, Route.path]

end Arrival

/-- Rules that are matched in a scope lead to an element. -/
inductive Leads (f : Forest) (cfg : Config) : Scope → List StyleRule → Arrival → Prop
  /-- A rule selects an element. -/
  | stop {scope rules turn r selected i} (rule : rules[turn.rule]? = some r)
      (selects : selectText f cfg scope r.selector = .ok selected)
      (place : selected[turn.place]? = some i) : Leads f cfg scope rules ⟨[turn], r, i⟩
  /-- A rule selects an element, and the rules below it lead on from there. -/
  | enter {scope rules turn r selected i a} (rule : rules[turn.rule]? = some r)
      (selects : selectText f cfg scope r.selector = .ok selected)
      (place : selected[turn.place]? = some i)
      (inner : Leads f cfg ⟨f.children i, some [i]⟩ r.children a) :
      Leads f cfg scope rules (a.after turn)

/-! ## Traces that list arrivals -/

/-- The trace of rules below `path` lists the arrivals with a property, in the order of their
routes. -/
def Lists (path : RulePath) (trace : List MatchEvent) (P : Arrival → Prop) : Prop :=
  ∃ arrivals : List Arrival, Matching.hits ⟨trace⟩ = arrivals.map (Arrival.hit path) ∧
    arrivals.Pairwise (fun a b => a.route.Before b.route) ∧ ∀ a, a ∈ arrivals ↔ P a

namespace Lists

variable {path : RulePath} {trace more : List MatchEvent} {P Q : Arrival → Prop}

theorem congr (h : Lists path trace P) (same : ∀ a, P a ↔ Q a) : Lists path trace Q := by
  obtain ⟨arrivals, hits, sorted, mem⟩ := h
  exact ⟨arrivals, hits, sorted, fun a => (mem a).trans (same a)⟩

theorem nil (none : ∀ a, ¬ P a) : Lists path [] P :=
  ⟨[], rfl, .nil, fun a => by simp [none]⟩

theorem applied (selector : String) (h : Lists path trace P) :
    Lists path (.applied selector :: trace) P :=
  h

theorem append (h : Lists path trace P) (h' : Lists path more Q)
    (order : ∀ a b, P a → Q b → a.route.Before b.route) :
    Lists path (trace ++ more) (fun a => P a ∨ Q a) := by
  obtain ⟨arrivals, hits, sorted, mem⟩ := h
  obtain ⟨arrivals', hits', sorted', mem'⟩ := h'
  refine ⟨arrivals ++ arrivals', ?_, ?_, ?_⟩
  · rw [Matching.hits] at hits hits' ⊢
    rw [List.filterMap_append, hits, hits', List.map_append]
  · rw [List.pairwise_append]
    refine ⟨sorted, sorted', fun a ha b hb => ?_⟩
    exact order a b ((mem a).1 ha) ((mem' b).1 hb)
  · intro a
    rw [List.mem_append, mem, mem']

/-- A rule selects an element, and then the rules below it are matched. -/
theorem enter (turn : Turn) (r : StyleRule) (i : NodeId)
    (h : Lists (path ++ [turn.rule]) trace P) (proper : ∀ a, P a → a.route ≠ []) :
    Lists path (.hit ⟨path ++ [turn.rule], r, i⟩ :: trace)
      (fun a => a = ⟨[turn], r, i⟩ ∨ ∃ b, P b ∧ b.after turn = a) := by
  obtain ⟨arrivals, hits, sorted, mem⟩ := h
  refine ⟨⟨[turn], r, i⟩ :: arrivals.map (Arrival.after turn), ?_, ?_, ?_⟩
  · rw [List.map_cons, List.map_map]
    change _ :: Matching.hits ⟨trace⟩ = _
    rw [hits]
    congr 1
    exact List.map_congr_left fun a _ => (Arrival.hit_after path turn a).symm
  · rw [List.pairwise_cons]
    constructor
    · intro b hb
      obtain ⟨a, ha, rfl⟩ := List.mem_map.1 hb
      obtain ⟨t, ρ, hρ⟩ := List.exists_cons_of_ne_nil (proper a ((mem a).1 ha))
      change List.Lex _ [turn] (turn :: a.route)
      rw [hρ]
      exact .cons .nil
    · exact List.pairwise_map.2 (sorted.imp fun before => .cons before)
  · intro a
    simp only [List.mem_cons, List.mem_map, mem]

end Lists

/-! ## The trace of a matching -/

section

variable {f : Forest} {cfg : Config} {path : RulePath} {scope : Scope}

/-- The arrival is at `i`, which the rule selects at this turn, or below it. -/
def Arrival.Passes (f : Forest) (cfg : Config) (turn : Turn) (r : StyleRule) (i : NodeId)
    (a : Arrival) : Prop :=
  a = ⟨[turn], r, i⟩ ∨ ∃ b, Leads f cfg ⟨f.children i, some [i]⟩ r.children b ∧ b.after turn = a

/-- The arrival is due to the rule with index `k`. -/
def Arrival.Through (f : Forest) (cfg : Config) (scope : Scope) (k : Nat) (r : StyleRule)
    (a : Arrival) : Prop :=
  ∃ selected, selectText f cfg scope r.selector = .ok selected ∧
    ∃ q i, selected[q]? = some i ∧ a.Passes f cfg ⟨k, q⟩ r i

theorem Arrival.Passes.route_eq {turn : Turn} {r : StyleRule} {i : NodeId} {a : Arrival}
    (h : a.Passes f cfg turn r i) : ∃ ρ, a.route = turn :: ρ := by
  rcases h with rfl | ⟨b, -, rfl⟩
  · exact ⟨[], rfl⟩
  · exact ⟨b.route, rfl⟩

/-- Arrivals at different turns stand in the order of the turns. -/
theorem Arrival.Passes.before {t t' : Turn} {r r' : StyleRule} {i i' : NodeId} {a b : Arrival}
    (h : a.Passes f cfg t r i) (h' : b.Passes f cfg t' r' i') (order : t.Before t') :
    a.route.Before b.route := by
  obtain ⟨ρ, hρ⟩ := h.route_eq
  obtain ⟨σ, hσ⟩ := h'.route_eq
  rw [hρ, hσ]
  exact .rel order

theorem leads_iff {rules : List StyleRule} {a : Arrival} :
    Leads f cfg scope rules a ↔ ∃ k r, rules[k]? = some r ∧ a.Through f cfg scope k r := by
  constructor
  · intro h
    cases h with
    | stop rule selects place => exact ⟨_, _, rule, _, selects, _, _, place, .inl rfl⟩
    | enter rule selects place inner =>
      exact ⟨_, _, rule, _, selects, _, _, place, .inr ⟨_, inner, rfl⟩⟩
  · rintro ⟨k, r, rule, selected, selects, q, i, place, rfl | ⟨b, inner, rfl⟩⟩
    · exact .stop rule selects place
    · exact .enter rule selects place inner

theorem Leads.route_ne_nil {rules : List StyleRule} {a : Arrival} (h : Leads f cfg scope rules a) :
    a.route ≠ [] := by
  cases h with
  | stop => exact List.cons_ne_nil _ _
  | enter => exact List.cons_ne_nil _ _

/-- What holds of some place in a list holds of the first one or of some later one. -/
theorem exists_getElem?_cons {α : Type} {x : α} {l : List α} {P : Nat → α → Prop} :
    (∃ p y, (x :: l)[p]? = some y ∧ P p y) ↔ P 0 x ∨ ∃ p y, l[p]? = some y ∧ P (p + 1) y := by
  constructor
  · rintro ⟨p, y, hy, h⟩
    cases p with
    | zero =>
      obtain rfl : x = y := by simpa using hy
      exact .inl h
    | succ p => exact .inr ⟨p, y, by simpa using hy, h⟩
  · rintro (h | ⟨p, y, hy, h⟩)
    · exact ⟨0, x, by simp, h⟩
    · exact ⟨p + 1, y, by simpa using hy, h⟩

/-- A computation in two steps has a result if both steps have one. -/
theorem bind_eq_ok {ε α β : Type} {x : Except ε α} {g : α → Except ε β} {b : β} :
    (do let a ← x; g a) = .ok b ↔ ∃ a, x = .ok a ∧ g a = .ok b := by
  cases x with
  | error e => simp [bind, Except.bind]
  | ok a => simp [bind, Except.bind]

/-- The rules below `r` are matched in one selected element after the other. -/
theorem lists_selected {r : StyleRule} {k : Nat} (below : ∀ i inner,
    matchRules f cfg (path ++ [k]) 0 ⟨f.children i, some [i]⟩ r.children = .ok inner →
      Lists (path ++ [k]) inner (Leads f cfg ⟨f.children i, some [i]⟩ r.children)) :
    ∀ (l : List NodeId) (q : Nat) (found : List (List MatchEvent)),
      (l.mapM fun i => do
        let inner ← matchRules f cfg (path ++ [k]) 0 ⟨f.children i, some [i]⟩ r.children
        return MatchEvent.hit ⟨path ++ [k], r, i⟩ :: inner) = .ok found →
      Lists path found.flatten
        fun a => ∃ p i, l[p]? = some i ∧ a.Passes f cfg ⟨k, q + p⟩ r i := by
  intro l
  induction l with
  | nil =>
    intro q found h
    cases h
    exact .nil fun a => by simp
  | cons i l ih =>
    intro q found h
    rw [List.mapM_cons] at h
    obtain ⟨events, here, h⟩ := bind_eq_ok.1 h
    obtain ⟨inner, matched, here⟩ := bind_eq_ok.1 here
    obtain ⟨rest, others, h⟩ := bind_eq_ok.1 h
    cases here
    cases h
    have first := Lists.enter ⟨k, q⟩ r i (below i inner matched)
      fun a ha => ha.route_ne_nil
    rw [List.flatten_cons]
    refine (first.append (ih (q + 1) rest others) ?_).congr fun a => ?_
    · rintro a b ha ⟨p, j, -, hb⟩
      refine Arrival.Passes.before ha hb (.inr ⟨rfl, ?_⟩)
      dsimp only
      omega
    · rw [exists_getElem?_cons]
      simp only [Nat.add_assoc, Nat.add_comm 1]
      rfl

mutual

theorem lists_matchRule (r : StyleRule) {path : RulePath} {scope : Scope} {k : Nat}
    {trace : List MatchEvent} (h : matchRule f cfg (path ++ [k]) scope r = .ok trace) :
    Lists path trace (Arrival.Through f cfg scope k r) := by
  obtain ⟨selector, classes, declarations, uses, children⟩ := r
  rw [matchRule] at h
  obtain ⟨selected, selects, h⟩ := bind_eq_ok.1 h
  obtain ⟨found, visits, h⟩ := bind_eq_ok.1 h
  cases h
  have below : ∀ i inner,
      matchRules f cfg (path ++ [k]) 0 ⟨f.children i, some [i]⟩ children = .ok inner →
        Lists (path ++ [k]) inner (Leads f cfg ⟨f.children i, some [i]⟩ children) := by
    intro i inner matched
    refine (lists_matchRules children matched).congr fun a => ?_
    simp only [Nat.zero_add, leads_iff]
  refine ((lists_selected (r := ⟨selector, classes, declarations, uses, children⟩) below selected 0
    found visits).congr fun a => ?_).applied selector
  rw [Arrival.Through, selects]
  simp only [Nat.zero_add, Except.ok.injEq, exists_eq_left']
termination_by structural r

theorem lists_matchRules (rs : List StyleRule) {path : RulePath} {scope : Scope} {k : Nat}
    {trace : List MatchEvent} (h : matchRules f cfg path k scope rs = .ok trace) :
    Lists path trace fun a => ∃ p r, rs[p]? = some r ∧ a.Through f cfg scope (k + p) r := by
  cases rs with
  | nil =>
    cases h
    exact .nil fun a => by simp
  | cons r rs =>
    rw [matchRules] at h
    obtain ⟨first, here, h⟩ := bind_eq_ok.1 h
    obtain ⟨others, later, h⟩ := bind_eq_ok.1 h
    cases h
    refine ((lists_matchRule r here).append (lists_matchRules rs later) ?_).congr fun a => ?_
    · rintro a b ⟨_, _, _, _, _, ha⟩ ⟨p, _, _, _, _, _, _, _, hb⟩
      refine ha.before hb (.inl ?_)
      dsimp only
      omega
    · rw [exists_getElem?_cons]
      simp only [Nat.add_assoc, Nat.add_comm 1]
      rfl
termination_by structural rs

end

end

/-- The hits of a matching are the arrivals its rules lead to, in the order of the routes. -/
theorem Matching.lists_ofRules {t : Template} {cfg : Config} {rules : List StyleRule} {m : Matching}
    (h : Matching.ofRules t cfg rules = .ok m) :
    Lists [] m.trace (Leads t.forest cfg ⟨t.roots, none⟩ rules) := by
  rw [ofRules] at h
  cases matched : matchRules t.forest cfg [] 0 ⟨t.roots, none⟩ rules with
  | error e => simp [matched, Except.map] at h
  | ok trace =>
    obtain rfl : Matching.mk trace = m := by simpa [matched, Except.map] using h
    refine (lists_matchRules rules matched).congr fun a => ?_
    simp only [Nat.zero_add, leads_iff]

end NestedStyles
