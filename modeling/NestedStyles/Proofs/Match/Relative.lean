import Mathlib
import NestedStyles.Proofs.Match.Flat
import NestedStyles.Selector.Compile

/-!
# Relative selectors

A chain that starts with a combinator is followed from an element in three ways: as the selector of a
rule nested in one for that element, behind `&`, and in `:has()`. All three lead to the same elements
(`Chain.relative_agrees`), and `&` in front of the text of a chain is read as the chain behind a
compound without conditions (`Branch.ofTokens_behindNesting`).
-/

namespace NestedStyles

open Css Forest Linked

/-! ## Three ways of following a chain -/

namespace Chain

/-- The chain of `&` and this one behind it. -/
def behindNesting (c : Chain) : Chain :=
  (start .descendant []).followedBy c

variable {s : Scene} {roots : List NodeId} {e : NodeId}

/-- Several groups are gathered like one. -/
theorem gather_flatten {ls : List (List NodeId)} {test : NodeId → Linked Bool}
    (settled : ∀ l ∈ ls, ∀ j ∈ l, (test j).Settled) :
    gather (ls.map .ok) test = gather [.ok ls.flatten] test := by
  have single : ∀ l ∈ [ls.flatten], ∀ j ∈ l, (test j).Settled := by
    intro l only j mem
    rw [List.mem_singleton.1 only] at mem
    obtain ⟨l', inner, mem⟩ := List.mem_flatten.1 mem
    exact settled l' inner j mem
  rw [gather_eq settled]
  change _ = gather ([ls.flatten].map .ok) test
  rw [gather_eq single, List.flatten_singleton]

/-- Below an element a nested chain starts where its leading combinator leads to. -/
theorem gather_starts_within (wf : (Template.mk s.forest roots).WellFormed) (e : NodeId)
    (leading : Combinator) (compound : Compound) :
    gather ((Scope.within s.forest e).starts s.forest false leading)
        (fun j => Compound.holds s j compound) =
      gather ([e].map fun i => s.forest.after i leading) fun j => Compound.holds s j compound := by
  cases leading with
  | child | adjacent | sibling => rfl
  | descendant =>
    have settled : ∀ l ∈ (s.forest.children e).map s.forest.subtree, ∀ j ∈ l,
        (Compound.holds s j compound).Settled := by
      intro l inner j mem
      obtain ⟨k, child, rfl⟩ := List.mem_map.1 inner
      exact Compound.settled wf (wf.has_of_reach (reach_of_mem_subtreeTo mem) (wf.has_child child)) _
    have flat := gather_flatten settled
    rw [List.map_map, ← List.flatMap_def] at flat
    exact flat

/-- A nested chain is followed from the element of the enclosing rule. -/
theorem selectIn_within (wf : (Template.mk s.forest roots).WellFormed) (e : NodeId) (c : Chain) :
    c.selectIn s (.within s.forest e) false = c.select s [e] := by
  induction c using segments.induct with
  | case1 leading compound =>
    rw [selectIn, select]
    exact gather_starts_within wf e leading compound
  | case2 previous k compound ih => rw [selectIn, select, ih]

/-- A chain behind `&` is followed from the elements that `&` stands for. -/
theorem selectIn_behindNesting (s : Scene) (e : NodeId) (c : Chain) :
    c.behindNesting.selectIn s (.within s.forest e) true = c.select s [e] := by
  have here : (start .descendant []).selectIn s (.within s.forest e) true = .ok [e] := rfl
  induction c using segments.induct with
  | case1 leading compound =>
    rw [behindNesting, followedBy, selectIn, here, select]
    rfl
  | case2 previous k compound ih =>
    rw [behindNesting] at ih ⊢
    rw [followedBy, selectIn, ih, select]

/-- `:has()` asks whether the chain leads anywhere. -/
theorem holds_has_of_select {found : List NodeId} {c : Chain} (h : c.select s [e] = .ok found) :
    Simple.holds s e (.has [c]) = .ok !found.isEmpty := by
  rw [Simple.holds, anySelects, h]
  cases found <;> rfl

end Chain

/-! ## Reading a chain behind `&` -/

namespace Selector

variable {g : Chain → Chain} {ps rest : List Part} {k : Combinator} {ts : List Token}

/-- The reading of a chain, with a change of the chain. -/
def mapChain (g : Chain → Chain) (r : Reading Found) : Reading Found :=
  ⟨r.outcome.map fun found => ⟨found.chain.map g, found.pseudoElement⟩, r.rest⟩

/-- The steps of a chain are read alike whatever stands in front of them. -/
theorem readSteps_mapChain
    (onward : ∀ c k compound, g (.step c k compound) = .step (g c) k compound)
    (chain : Settled Chain) (ended : Bool) (ps : List Part) :
    readSteps ⟨chain.map g, ended⟩ ps = mapChain g (readSteps ⟨chain, ended⟩ ps) := by
  induction h : ps.length using Nat.strongRecOn generalizing chain ended ps with
  | ind n ih =>
    rw [readSteps, readSteps]
    cases ended with
    | true => rfl
    | false =>
      simp only [Bool.false_eq_true, if_false]
      split
      · rfl
      · next combinator rest next =>
        have shorter := length_readCombinator next
        have takes := (readCompound_takes rest).1
        cases (readCompound rest).outcome with
        | error why => rfl
        | ok read =>
          obtain ⟨compound, ended⟩ := read
          let longer : Settled Chain := do
            let compound ← compound
            return .step (← chain) combinator compound
          have same : (do
              let compound ← compound
              return Chain.step (← chain.map g) combinator compound : Settled Chain) =
              longer.map g := by
            cases compound <;> cases chain <;> first | rfl | exact congrArg Except.ok (onward ..).symm
          have steps := ih _ (by omega) longer ended (readCompound rest).rest rfl
          simp only [same]
          exact steps

/-- A chain that starts with this combinator, which is behind it. -/
def readFrom (k : Combinator) (ps : List Part) : Reading Found :=
  (readCompound ps).andThen fun (compound, ended) rest =>
    readSteps ⟨compound.map (.start k), ended⟩ rest

theorem readFrom_withLeading (k : Combinator) (ps : List Part) :
    readFrom k ps = mapChain (Chain.withLeading k) (readFrom .descendant ps) := by
  unfold readFrom Reading.andThen
  cases (readCompound ps).outcome with
  | error why => rfl
  | ok read =>
    obtain ⟨compound, ended⟩ := read
    have start : compound.map (.start k) =
        (compound.map (.start .descendant)).map (Chain.withLeading k) := by
      cases compound <;> rfl
    simp only [start]
    exact readSteps_mapChain (fun _ _ _ => rfl) _ _ _

theorem readFrom_of_compound {compound : Compound}
    (first : readCompound ps = ⟨.ok (.ok compound, false), rest⟩) :
    readFrom k ps = readSteps ⟨.ok (.start k compound), false⟩ rest := by
  rw [readFrom, first]
  rfl

theorem readCompound_skipSpace (ps : List Part) :
    readCompound (skipSpace ps) = readCompound ps := by
  rw [readCompound, readCompound, skipSpace, skipSpace, List.dropWhile_idempotent _]

theorem readFrom_skipSpace (k : Combinator) (ps : List Part) :
    readFrom k (skipSpace ps) = readFrom k ps := by
  rw [readFrom, readFrom, readCompound_skipSpace]

/-- Behind another chain a chain is read with its combinator. -/
theorem readSteps_of_combinator (c : Chain) (next : readCombinator ps = some (k, rest)) :
    readSteps ⟨.ok c, false⟩ ps = mapChain c.followedBy (readFrom k rest) := by
  rw [readSteps, if_neg Bool.false_ne_true]
  split
  · next none => cases none.symm.trans next
  · next k' rest' found =>
    cases found.symm.trans next
    dsimp only
    unfold readFrom Reading.andThen
    cases (readCompound rest).outcome with
    | error why => rfl
    | ok read =>
      obtain ⟨compound, ended⟩ := read
      have start : (do
          let compound ← compound
          return Chain.step (← (.ok c : Settled Chain)) k compound : Settled Chain) =
          (compound.map (.start k)).map c.followedBy := by
        cases compound <;> rfl
      simp only [start]
      exact readSteps_mapChain (fun _ _ _ => rfl) _ _ _

theorem token_ofToken (t : Token) : (Part.ofToken t).token = t := by
  cases t <;> rfl

theorem skipSpace_ofTokens (ts : List Token) :
    skipSpace (Part.ofTokens ts) = Part.ofTokens (significant ts) := by
  induction ts with
  | nil => rfl
  | cons t ts ih =>
    unfold skipSpace significant at ih ⊢
    rw [Part.ofTokens, List.dropWhile_cons, List.dropWhile_cons, token_ofToken]
    cases t.isWhitespace with
    | true => exact ih
    | false => rfl

theorem readChain_eq_readFrom (ts : List Token) :
    readChain false (Part.ofTokens ts) = readFrom .descendant (Part.ofTokens (significant ts)) := by
  rw [← skipSpace_ofTokens]
  rfl

end Selector

open Selector

/-- The tokens are one chain if it is read and nothing is left. -/
theorem Chain.ofTokens_eq_ok_iff {ts : List Token} {chain : Settled Chain} :
    Chain.ofTokens ts = .ok chain ↔
      ∃ ended, readFrom .descendant (Part.ofTokens (significant ts)) = ⟨.ok ⟨chain, ended⟩, []⟩ := by
  rw [Chain.ofTokens, ← readChain_eq_readFrom]
  rcases readChain false (Part.ofTokens ts) with ⟨_ | ⟨chain', ended⟩, _ | ⟨p, rest⟩⟩
  · simp [bind, Except.bind]
  · simp [bind, Except.bind]
  · simp [bind, Except.bind, pure, Except.pure]
  · simp [bind, Except.bind, throw, throwThe, MonadExceptOf.throw]

namespace Branch

theorem readFrom_comma (k : Combinator) (ps : List Part) :
    ∃ why rest, readFrom k (.plain (.literal ",") :: ps) = .reject why rest :=
  ⟨_, _, rfl⟩

theorem eq_literal_of_isLiteral {t : Token} {text : String} (h : t.isLiteral text = true) :
    t = .literal text := by
  cases t with
  | literal other => exact congrArg Token.literal (beq_iff_eq.1 h)
  | _ => cases h

theorem any_significant (ts : List Token) :
    (significant ts).any isNesting = ts.any isNesting := by
  induction ts with
  | nil => rfl
  | cons t ts ih =>
    unfold significant at ih ⊢
    rw [List.dropWhile_cons]
    cases t with
    | whitespace => exact ih
    | _ => rfl

theorem not_any_of_free {first : Token} {rest : List Token}
    (free : anchoringOf first rest = .free) : (first :: rest).any isNesting = false := by
  unfold anchoringOf at free
  split at free
  · cases free
  · next none =>
    split at free
    · cases free
    · next other => simp [List.any_cons, other, none]

/-- A branch is made of what was read if a chain was read. -/
theorem map_eq_free_iff {read : Except Failure (Settled Chain)} {g : Chain → Chain} {c : Chain}
    {anchoring : Anchoring} :
    read.map (fun chain => chain.map fun c => (⟨g c, anchoring⟩ : Branch)) =
        .ok (.ok ⟨c, .free⟩) ↔
      ∃ c', read = .ok (.ok c') ∧ g c' = c ∧ anchoring = .free := by
  rcases read with why | missing | c'
  · simp [Except.map]
  · simp [Except.map]
  · simp [Except.map]

/-- In the tokens of a branch without `&` a combinator leads to the first compound, after white
space at the latest. -/
theorem exists_readFrom {ts : List Token} {c : Chain} (w : String)
    (read : ofTokens ts = .ok (.ok ⟨c, .free⟩)) :
    ts.any isNesting = false ∧ ∃ k rest ended,
      readCombinator (.plain (.whitespace w) :: Part.ofTokens ts) = some (k, rest) ∧
      readFrom k rest = ⟨.ok ⟨.ok c, ended⟩, []⟩ := by
  unfold ofTokens at read
  cases found : significant ts with
  | nil =>
    rw [found] at read
    cases read
  | cons first rest =>
    rw [found] at read
    dsimp only at read
    have blank : significant (first :: rest) = first :: rest := by
      rw [← found, significant, significant, List.dropWhile_idempotent _]
    have spaced : skipSpace (.plain (.whitespace w) :: Part.ofTokens ts) =
        Part.ofToken first :: Part.ofTokens rest := by
      change skipSpace (Part.ofTokens ts) = _
      rw [skipSpace_ofTokens, found, Part.ofTokens]
    have without (free : anchoringOf first rest = .free) : ts.any isNesting = false := by
      rw [← any_significant, found]
      exact not_any_of_free free
    have shorter : (Part.ofToken first :: Part.ofTokens rest).length <
        (Part.plain (.whitespace w) :: Part.ofTokens ts).length := by
      rw [← spaced]
      exact Nat.lt_succ_of_le (length_skipSpace (Part.ofTokens ts))
    cases combinator : combinator? first with
    | none =>
      rw [combinator] at read
      obtain ⟨c', chain, rfl, free⟩ := map_eq_free_iff.1 read
      rw [chainTokens, free] at chain
      obtain ⟨ended, chain⟩ := Chain.ofTokens_eq_ok_iff.1 chain
      rw [blank, Part.ofTokens] at chain
      have other : first.isLiteral "," = false := by
        refine Bool.eq_false_iff.2 fun comma => ?_
        obtain ⟨why, rest', rejected⟩ := readFrom_comma .descendant (Part.ofTokens rest)
        rw [eq_literal_of_isLiteral comma] at chain
        cases rejected.symm.trans chain
      refine ⟨without free, .descendant, _, ended, ?_, chain⟩
      simp only [readCombinator, spaced, token_ofToken, other, combinator, Bool.false_eq_true,
        if_false, shorter, if_true]
    | some k =>
      rw [combinator] at read
      have other : first.isLiteral "," = false := by
        refine Bool.eq_false_iff.2 fun comma => ?_
        rw [eq_literal_of_isLiteral comma] at combinator
        cases combinator
      cases more : significant rest with
      | nil =>
        rw [more] at read
        cases read
      | cons second others =>
        rw [more] at read
        obtain ⟨c', chain, rfl, free⟩ := map_eq_free_iff.1 read
        rw [free, if_neg (by decide)] at chain
        obtain ⟨ended, chain⟩ := Chain.ofTokens_eq_ok_iff.1 chain
        have blank' : significant (second :: others) = significant rest := by
          rw [← more, significant, significant, List.dropWhile_idempotent _]
        rw [blank', ← skipSpace_ofTokens, readFrom_skipSpace] at chain
        refine ⟨without free, k, Part.ofTokens rest, ended, ?_, ?_⟩
        · simp only [readCombinator, spaced, token_ofToken, other, combinator, Bool.false_eq_true,
            if_false]
        · rw [readFrom_withLeading, chain]
          rfl

/-- Behind `&` the tokens of a branch without `&` are read as its chain behind a compound without
conditions. -/
theorem ofTokens_behindNesting {ts : List Token} {c : Chain} (w : String)
    (read : ofTokens ts = .ok (.ok ⟨c, .free⟩)) :
    ofTokens (.literal "&" :: .whitespace w :: ts) = .ok (.ok ⟨c.behindNesting, .anchored⟩) := by
  obtain ⟨without, k, rest, ended, next, chain⟩ := exists_readFrom w read
  have anchored : anchoringOf (.literal "&") (.whitespace w :: ts) = .anchored := by
    have none : (Token.whitespace w :: ts).any isNesting = false := without
    rw [anchoringOf, none]
    rfl
  have universal :
      readCompound (.plain (.literal "*") :: .plain (.whitespace w) :: Part.ofTokens ts) =
      ⟨.ok (.ok [], false), .plain (.whitespace w) :: Part.ofTokens ts⟩ := rfl
  have whole :
      Chain.ofTokens (.literal "*" :: .whitespace w :: ts) = .ok (.ok c.behindNesting) := by
    refine Chain.ofTokens_eq_ok_iff.2 ⟨ended, ?_⟩
    have steps := readFrom_of_compound (k := .descendant) universal
    rw [readSteps_of_combinator _ next, chain] at steps
    exact steps
  change (Chain.ofTokens (chainTokens (.literal "&") (.whitespace w :: ts))).map
    (fun chain =>
      chain.map fun c => (⟨c, anchoringOf (.literal "&") (.whitespace w :: ts)⟩ : Branch)) = _
  rw [chainTokens, anchored]
  dsimp only
  rw [whole]
  rfl

end Branch

/-! ## All three ways -/

namespace Chain

/-- From an element of a well-formed template a chain without `&` leads to the same elements, in the
same order, as a branch nested below the element and behind `&`, and the element has them in
`:has()` if there are any, whichever elements `&` stands for. Behind the text of `&` the tokens of
the chain are read as the chain behind a compound without conditions. -/
theorem relative_agrees {t : Template} (wf : t.WellFormed) (cfg : Config) {c : Chain}
    (without : c.mentionsNesting = false) :
    (∀ e nesting, ∃ found,
      Branch.select ⟨t.forest, cfg, [e]⟩ ⟨t.forest.children e, some [e]⟩ ⟨c, .free⟩ = .ok found ∧
      Branch.select ⟨t.forest, cfg, [e]⟩ ⟨t.forest.children e, some [e]⟩
        ⟨(Chain.start .descendant []).followedBy c, .anchored⟩ = .ok found ∧
      Simple.holds ⟨t.forest, cfg, nesting⟩ e (.has [c]) = .ok !found.isEmpty) ∧
    ∀ ts w, Branch.ofTokens ts = .ok (.ok ⟨c, .free⟩) →
      Branch.ofTokens (.literal "&" :: .whitespace w :: ts) =
        .ok (.ok ⟨(Chain.start .descendant []).followedBy c, .anchored⟩) := by
  refine ⟨fun e nesting => ?_, fun ts w => Branch.ofTokens_behindNesting w⟩
  obtain ⟨found, select⟩ := Chain.settled_select (s := ⟨t.forest, cfg, [e]⟩) wf [e] c
  refine ⟨found, ?_, ?_, ?_⟩
  · rw [← select]
    exact selectIn_within (s := ⟨t.forest, cfg, [e]⟩) wf e c
  · rw [← select]
    exact selectIn_behindNesting ⟨t.forest, cfg, [e]⟩ e c
  · rw [Chain.select_congr [e] nesting c without] at select
    exact holds_has_of_select select

/-- `+ p` from the first of two headings of which one is shown. -/
theorem relative_agrees_eitherHeading :
    Template.eitherHeading.WellFormed ∧
    (start .adjacent [.type "p"]).mentionsNesting = false ∧
    Branch.select ⟨Template.eitherHeading.forest, .standard, [1]⟩ ⟨[], some [1]⟩
      ⟨start .adjacent [.type "p"], .free⟩ = .ok [3] ∧
    Branch.select ⟨Template.eitherHeading.forest, .standard, [1]⟩ ⟨[], some [1]⟩
      ⟨.step (.start .descendant []) .adjacent [.type "p"], .anchored⟩ = .ok [3] ∧
    Simple.holds ⟨Template.eitherHeading.forest, .standard, []⟩ 1
      (.has [start .adjacent [.type "p"]]) = .ok true ∧
    Branch.ofTokens [.literal "+", .whitespace " ", .ident "p"] =
      .ok (.ok ⟨start .adjacent [.type "p"], .free⟩) ∧
    Branch.ofTokens [.literal "&", .whitespace " ", .literal "+", .whitespace " ", .ident "p"] =
      .ok (.ok ⟨.step (.start .descendant []) .adjacent [.type "p"], .anchored⟩) := by
  have wf : Template.eitherHeading.WellFormed := Template.wellFormed_ofTrees _
  have without : (start .adjacent [.type "p"]).mentionsNesting = false := rfl
  obtain ⟨matched, compiled⟩ := relative_agrees wf .standard without
  obtain ⟨found, nested, behind, has⟩ := matched 1 []
  have here : Branch.select ⟨Template.eitherHeading.forest, .standard, [1]⟩ ⟨[], some [1]⟩
      ⟨start .adjacent [.type "p"], .free⟩ = .ok [3] := by decide
  obtain rfl : found = [3] := Except.ok.inj (nested.symm.trans here)
  have read : Branch.ofTokens [.literal "+", .whitespace " ", .ident "p"] =
      .ok (.ok ⟨start .adjacent [.type "p"], .free⟩) := by cbv
  exact ⟨wf, without, nested, behind, has, read, compiled _ " " read⟩

end Chain

end NestedStyles
