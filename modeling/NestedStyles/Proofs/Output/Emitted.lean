import NestedStyles.Proofs.Output.Printed

/-!
# The emitted CSS is the rule tree

What is written for rules with declarations, and for rules taken out of the tree, is read back as
those rules, the branches without content left out (`css_readsAs`).

The writers say for each rule whether it has content and what its lines are. Here, content and
lines are described apart from them, and a writer that says the same writes just the tree that is
left (`rulesLines_eq`). That tree is printed without classes, and so it is read back.
-/

namespace NestedStyles

/-! ## What is left of a rule tree -/

namespace StyleRule

mutual

/-- The rule without the branches in which no rule satisfies `p`. -/
def pruned (p : StyleRule → Prop) [DecidablePred p] : StyleRule → StyleRule
  | ⟨selector, classes, declarations, uses, children⟩ =>
    ⟨selector, classes, declarations, uses, prunedAll p children⟩

/-- The rules without the branches in which no rule satisfies `p`. -/
def prunedAll (p : StyleRule → Prop) [DecidablePred p] : List StyleRule → List StyleRule
  | [] => []
  | r :: rs => if ∃ s ∈ r.walk, p s then r.pruned p :: prunedAll p rs else prunedAll p rs

end

mutual

/-- The rule with declarations made of the classes and the declarations in it and in each rule
nested in it, and nothing else. -/
def restated (say : List String → List String → List String) : StyleRule → StyleRule
  | ⟨selector, classes, declarations, _, children⟩ =>
    ⟨selector, [], say classes declarations, [], restatedAll say children⟩

/-- The rules with declarations made of their classes and declarations. -/
def restatedAll (say : List String → List String → List String) : List StyleRule → List StyleRule
  | [] => []
  | r :: rs => r.restated say :: restatedAll say rs

end

theorem restatedAll_eq_map (say : List String → List String → List String)
    (rs : List StyleRule) : restatedAll say rs = rs.map (restated say) := by
  induction rs with
  | nil => rfl
  | cons r rs ih => rw [restatedAll, ih, List.map_cons]

/-- The rule says something by itself. -/
def Declares (r : StyleRule) : Prop :=
  r.declarations ≠ []

instance : DecidablePred Declares :=
  fun r => inferInstanceAs (Decidable (r.declarations ≠ []))

/-- The rule says something by itself or applies classes. -/
def Speaks (r : StyleRule) : Prop :=
  r.classes ≠ [] ∨ r.declarations ≠ []

instance : DecidablePred Speaks :=
  fun r => inferInstanceAs (Decidable (r.classes ≠ [] ∨ r.declarations ≠ []))

/-- The rule in blocks with these selectors, the first outermost. -/
def wrap (path : List String) (r : StyleRule) : StyleRule :=
  path.foldr (fun selector inner => ⟨selector, [], [], [], [inner]⟩) r

end StyleRule

namespace Output

open Text Block StyleRule

variable {cfg : Config} {p : StyleRule → Prop}
  {say : List String → List String → List String} {w : Writer} {rs : List StyleRule}

/-- The declarations as they are. The classes are not mentioned. -/
def declaredOnly (_classes declarations : List String) : List String :=
  declarations

/-- The classes in one declaration, if there are any, and the declarations behind it. -/
def appliedFirst (classes declarations : List String) : List String :=
  if classes = [] then declarations
  else ("@apply " ++ " ".intercalate classes ++ ";") :: declarations

/-- The rules with classes erased and branches without a declaration pruned. Uses, of which none are
left when CSS is written, are gone as well. -/
def declaredTree (rules : List StyleRule) : List StyleRule :=
  (prunedAll Declares rules).map (restated declaredOnly)

/-- One rule for each extracted rule with content: the rule with its classes applied and branches
without content pruned, in the blocks of its path. -/
def appliedTree (items : List Extracted) : List StyleRule :=
  (items.filter fun item => ∃ r ∈ item.rule.walk, Speaks r).map fun item =>
    wrap item.path ((item.rule.pruned Speaks).restated appliedFirst)

/-! ## Writers write the tree that is left -/

/-- The writer takes the rules with `p` for those with content, and its lines are `say`. -/
structure Writes (w : Writer) (p : StyleRule → Prop)
    (say : List String → List String → List String) : Prop where
  own_iff (r : StyleRule) : w.own r = true ↔ p r
  lines_eq (r : StyleRule) : w.lines r = say r.classes r.declarations

theorem writes_scoped : Writes .scoped Declares declaredOnly where
  own_iff r := by simp [Writer.scoped, Declares]
  lines_eq _ := rfl

theorem writes_applied : Writes .applied Speaks appliedFirst where
  own_iff r := by
    simp only [Writer.applied, Speaks, Bool.not_eq_true', Bool.and_eq_false_iff,
      List.isEmpty_eq_false_iff]
  lines_eq r := by
    by_cases none : r.classes = []
    · simp [Writer.applied, appliedFirst, none]
    · simp [Writer.applied, appliedFirst, none]

mutual

theorem holds_iff (writes : Writes w p say) (r : StyleRule) :
    holds w.own r = true ↔ ∃ s ∈ r.walk, p s := by
  obtain ⟨selector, classes, declarations, uses, children⟩ := r
  rw [holds, Bool.or_eq_true, writes.own_iff, anyHolds_iff writes children, walk]
  simp

theorem anyHolds_iff (writes : Writes w p say) (rs : List StyleRule) :
    anyHolds w.own rs = true ↔ ∃ s ∈ walkAll rs, p s := by
  cases rs with
  | nil => simp [anyHolds, walkAll]
  | cons r rs =>
    rw [anyHolds, Bool.or_eq_true, holds_iff writes r, anyHolds_iff writes rs, walkAll]
    simp [or_and_right, exists_or]

end

variable [DecidablePred p]

mutual

/-- The lines of a rule that is kept are those of what is left of it. -/
theorem ruleLines_eq (writes : Writes w p say) (r : StyleRule) (depth : Nat) :
    ruleLines w depth r =
      if ∃ s ∈ r.walk, p s then treeLines depth ((r.pruned p).restated say) else [] := by
  obtain ⟨selector, classes, declarations, uses, children⟩ := r
  simp only [ruleLines, holds_iff writes]
  split
  · rw [pruned, restated, treeLines, writes.lines_eq, rulesLines_eq writes children]
  · rfl

/-- The lines of rules are those of what is left of them. -/
theorem rulesLines_eq (writes : Writes w p say) (rs : List StyleRule) (depth : Nat) :
    rulesLines w depth rs = forestLines depth (restatedAll say (prunedAll p rs)) := by
  cases rs with
  | nil => rfl
  | cons r rs =>
    rw [rulesLines, ruleLines_eq writes r, rulesLines_eq writes rs, prunedAll]
    split
    · rw [restatedAll, forestLines]
    · rfl

end

theorem scopedCss_eq (rules : List StyleRule) :
    scopedCss rules = joined (forestLines 0 (declaredTree rules)) := by
  rw [scopedCss, rulesLines_eq writes_scoped, restatedAll_eq_map, declaredTree]

theorem wrappedLines_eq {r : StyleRule} (speaks : ∃ s ∈ r.walk, Speaks s) (path : List String)
    (depth : Nat) :
    wrappedLines depth r path =
      treeLines depth (wrap path ((r.pruned Speaks).restated appliedFirst)) := by
  induction path generalizing depth with
  | nil => rw [wrappedLines, ruleLines_eq writes_applied, if_pos speaks, wrap, List.foldr_nil]
  | cons selector path ih =>
    have inner : forestLines (depth + 1)
        [wrap path ((r.pruned Speaks).restated appliedFirst)] =
          treeLines (depth + 1) (wrap path ((r.pruned Speaks).restated appliedFirst)) := by
      rw [forestLines, forestLines, List.append_nil]
    rw [wrappedLines, ih, ← inner]
    rfl

theorem applyCss_eq (items : List Extracted) :
    applyCss items = joined (forestLines 0 (appliedTree items)) := by
  unfold applyCss appliedTree
  congr 1
  induction items with
  | nil => rfl
  | cons item items ih =>
    rw [List.flatMap_cons, ih]
    by_cases speaks : ∃ r ∈ item.rule.walk, Speaks r
    · rw [if_pos ((holds_iff writes_applied _).2 speaks), wrappedLines_eq speaks,
        List.filter_cons, if_pos (decide_eq_true speaks), List.map_cons, forestLines]
    · rw [if_neg fun holds => speaks ((holds_iff writes_applied _).1 holds),
        List.filter_cons, if_neg (by simpa using speaks), List.nil_append]

/-! ## What is left can be printed -/

/-- A class that can be written. -/
structure IsClassWord (word : String) : Prop extends Unmarked word.toList where
  unspaced : ∀ c ∈ word.toList, isBlank c = false

instance (word : String) : Decidable (IsClassWord word) :=
  decidable_of_iff (Unmarked word.toList ∧ ∀ c ∈ word.toList, isBlank c = false)
    ⟨fun h => ⟨h.1, h.2⟩, fun h => ⟨h.1, h.2⟩⟩

/-- All that is in the rule's own block can be written. -/
structure Writable (r : StyleRule) : Prop where
  selector : IsSelectorLine r.selector
  classes : ∀ word ∈ r.classes, IsClassWord word
  declarations : ∀ d ∈ r.declarations, IsDeclarationLine d

instance (r : StyleRule) : Decidable (Writable r) :=
  decidable_of_iff (IsSelectorLine r.selector ∧ (∀ word ∈ r.classes, IsClassWord word) ∧
      ∀ d ∈ r.declarations, IsDeclarationLine d)
    ⟨fun h => ⟨h.1, h.2.1, h.2.2⟩, fun h => ⟨h.1, h.2, h.3⟩⟩

/-- All that is in the rule and in those nested in it can be written, and no selector in a block
would be taken for a class. -/
structure WritableTree (cfg : Config) (r : StyleRule) : Prop where
  writable : ∀ s ∈ r.walk, Writable s
  proper : ∀ s ∈ walkAll r.children, looksLikeSelector cfg s.selector.toList = true

instance (r : StyleRule) : Decidable (WritableTree cfg r) :=
  decidable_of_iff ((∀ s ∈ r.walk, Writable s) ∧
      ∀ s ∈ walkAll r.children, looksLikeSelector cfg s.selector.toList = true)
    ⟨fun h => ⟨h.1, h.2⟩, fun h => ⟨h.1, h.2⟩⟩

theorem unmarked_intercalate {classes : List String} (h : ∀ word ∈ classes, IsClassWord word) :
    Unmarked (" ".intercalate classes).toList ∧ '\n' ∉ (" ".intercalate classes).toList := by
  have inline : ∀ word, IsClassWord word → '\n' ∉ word.toList := by
    intro word isWord newline
    have unspaced := isWord.unspaced '\n' newline
    rw [isBlank_newline] at unspaced
    cases unspaced
  induction classes with
  | nil => exact ⟨⟨by simp, by simp⟩, by simp⟩
  | cons word classes ih =>
    obtain ⟨first, more⟩ := List.forall_mem_cons.1 h
    cases classes with
    | nil => simpa using ⟨first.toUnmarked, inline word first⟩
    | cons word' classes =>
      obtain ⟨rest, inline'⟩ := ih more
      have space : Unmarked [' '] := .of_plain (by decide)
      rw [String.intercalate_cons_of_ne_nil (List.cons_ne_nil _ _), String.toList_append,
        String.toList_append]
      refine ⟨(first.toUnmarked.append space (.of_head (by simp))).append rest (.of_last (by simp)),
        ?_⟩
      simp only [List.mem_append, not_or]
      exact ⟨⟨inline word first, by decide⟩, inline'⟩

/-- The line that applies classes is a declaration. -/
theorem isDeclarationLine_apply {words : String} (unmarked : Unmarked words.toList)
    (inline : '\n' ∉ words.toList) : IsDeclarationLine ("@apply " ++ words ++ ";") := by
  have keyword : Unmarked "@apply ".toList := .of_plain (by decide)
  have semicolon : Unmarked ";".toList := .of_plain (by decide)
  have line := (keyword.append unmarked (.of_last (by decide))).append semicolon
    (.of_head (by decide))
  have text : ("@apply " ++ words ++ ";").toList =
      '@' :: 'a' :: 'p' :: 'p' :: 'l' :: 'y' :: ' ' :: words.toList ++ [';'] := by
    simp
  constructor
  · constructor
    · simpa only [String.toList_append] using line
    · simp [inline]
    · rw [text, trim_eq_self_iff]
      exact ⟨startsSolid_cons (by decide),
        .of_append (List.cons_ne_nil _ _) (endsSolid_of_forall (by decide))⟩
  · rw [text, List.getLast?_concat]
  · rw [text]
    rfl
  · rw [text]
    rfl

theorem isDeclarationLine_appliedFirst {classes declarations : List String}
    (words : ∀ word ∈ classes, IsClassWord word)
    (lines : ∀ d ∈ declarations, IsDeclarationLine d) :
    ∀ d ∈ appliedFirst classes declarations, IsDeclarationLine d := by
  unfold appliedFirst
  split
  · exact lines
  · obtain ⟨unmarked, inline⟩ := unmarked_intercalate words
    exact List.forall_mem_cons.2 ⟨isDeclarationLine_apply unmarked inline, lines⟩

/-- What is made of classes and declarations that can be written are lines of declarations. -/
def GivesLines (say : List String → List String → List String) : Prop :=
  ∀ r : StyleRule, Writable r → ∀ d ∈ say r.classes r.declarations, IsDeclarationLine d

theorem printable_restated (gives : GivesLines say) {r : StyleRule} (h : Writable r) :
    Printable ((r.pruned p).restated say) := by
  have lines := gives r h
  obtain ⟨selector, classes, declarations, uses, children⟩ := r
  rw [pruned, restated]
  exact ⟨h.selector, rfl, lines, rfl⟩

theorem selector_restated (r : StyleRule) : ((r.pruned p).restated say).selector = r.selector := by
  cases r
  rfl

theorem children_restated (r : StyleRule) :
    ((r.pruned p).restated say).children = restatedAll say (prunedAll p r.children) := by
  cases r
  rfl

/-- What is left of rules that can be written inside of a block can be printed there. -/
theorem nestable_restated (gives : GivesLines say) (rs : List StyleRule)
    (h : ∀ s ∈ walkAll rs, Writable s ∧ looksLikeSelector cfg s.selector.toList = true) :
    Nestable cfg (restatedAll say (prunedAll p rs)) := by
  match rs with
  | [] => simp [Nestable, prunedAll, restatedAll, walkAll]
  | ⟨selector, classes, declarations, uses, children⟩ :: rs =>
    obtain ⟨own, others⟩ := List.forall_mem_append.1 h
    obtain ⟨⟨writable, proper⟩, inner⟩ := List.forall_mem_cons.1 own
    have later := nestable_restated gives rs others
    rw [prunedAll]
    split
    · rw [restatedAll, nestable_cons, children_restated, selector_restated]
      exact ⟨⟨printable_restated gives writable, proper⟩, nestable_restated gives children inner,
        later⟩
    · exact later

theorem gives_declaredOnly : GivesLines declaredOnly :=
  fun _ h => h.declarations

theorem gives_appliedFirst : GivesLines appliedFirst :=
  fun _ h => isDeclarationLine_appliedFirst h.classes h.declarations

theorem mem_walk_iff {r s : StyleRule} : s ∈ r.walk ↔ s = r ∨ s ∈ walkAll r.children := by
  cases r
  simp [walk]

theorem WritableTree.own {r : StyleRule} (h : WritableTree cfg r) : Writable r :=
  h.writable r (mem_walk_iff.2 (.inl rfl))

theorem WritableTree.nested {r : StyleRule} (h : WritableTree cfg r) :
    ∀ s ∈ walkAll r.children, Writable s ∧ looksLikeSelector cfg s.selector.toList = true :=
  fun s hs => ⟨h.writable s (mem_walk_iff.2 (.inr hs)), h.proper s hs⟩

theorem allPrintable_singleton {r : StyleRule} :
    AllPrintable cfg [r] ↔ Printable r ∧ Nestable cfg r.children :=
  List.forall_mem_singleton

/-- What is left of a rule that can be written can be printed. -/
theorem allPrintable_restated (gives : GivesLines say) {r : StyleRule} (h : WritableTree cfg r) :
    AllPrintable cfg [(r.pruned p).restated say] := by
  rw [allPrintable_singleton, children_restated]
  exact ⟨printable_restated gives h.own, nestable_restated gives r.children h.nested⟩

theorem allPrintable_declaredTree {rules : List StyleRule} (h : ∀ r ∈ rules, WritableTree cfg r) :
    AllPrintable cfg (declaredTree rules) := by
  unfold declaredTree
  induction rules with
  | nil => simp [AllPrintable, prunedAll]
  | cons r rules ih =>
    obtain ⟨first, more⟩ := List.forall_mem_cons.1 h
    rw [prunedAll]
    split
    · rw [List.map_cons]
      exact List.forall_mem_cons.2 ⟨allPrintable_singleton.1
        (allPrintable_restated gives_declaredOnly first), ih more⟩
    · exact ih more

/-- The wrapping of a rule inside of a block. -/
theorem nestable_wrap (gives : GivesLines say) {path : List String} {r : StyleRule}
    (h : ∀ s ∈ (wrap path r).walk, Writable s ∧ looksLikeSelector cfg s.selector.toList = true) :
    Nestable cfg [wrap path ((r.pruned p).restated say)] := by
  have none : Nestable cfg [] := by simp [Nestable, walkAll]
  induction path with
  | nil =>
    obtain ⟨writable, proper⟩ := h r (mem_walk_iff.2 (.inl rfl))
    rw [wrap, List.foldr_nil, nestable_cons, children_restated, selector_restated]
    refine ⟨⟨printable_restated gives writable, proper⟩, ?_, none⟩
    exact nestable_restated gives r.children fun s hs => h s (mem_walk_iff.2 (.inr hs))
  | cons selector path ih =>
    obtain ⟨writable, proper⟩ := h _ (mem_walk_iff.2 (.inl rfl))
    have inner := ih fun s hs => h s (mem_walk_iff.2 (.inr (by simpa [wrap, walkAll] using hs)))
    exact nestable_cons.2 ⟨⟨⟨writable.selector, rfl, by simp [wrap], rfl⟩, proper⟩, inner, none⟩

/-- What is left of an extracted rule that can be written can be printed in the blocks of its
path. -/
theorem allPrintable_wrap (gives : GivesLines say) {path : List String} {r : StyleRule}
    (h : WritableTree cfg (wrap path r)) :
    AllPrintable cfg [wrap path ((r.pruned p).restated say)] := by
  cases path with
  | nil => exact allPrintable_restated gives h
  | cons selector path =>
    have inner : Nestable cfg [wrap path ((r.pruned p).restated say)] :=
      nestable_wrap gives fun s hs => h.nested s (by simpa [wrap, walkAll] using hs)
    exact allPrintable_singleton.2 ⟨⟨h.own.selector, rfl, by simp [wrap], rfl⟩, inner⟩

theorem allPrintable_appliedTree {items : List Extracted}
    (h : ∀ item ∈ items, WritableTree cfg (wrap item.path item.rule)) :
    AllPrintable cfg (appliedTree items) := by
  intro s hs
  obtain ⟨item, kept, rfl⟩ := List.mem_map.1 hs
  have writable := h item (List.mem_of_mem_filter kept)
  exact allPrintable_singleton.1 (allPrintable_wrap gives_appliedFirst writable)

/-! ## What is written is read back -/

/-- The CSS for a rule tree and for extracted rules is read as what is left of them, and nothing is
reported. There is none just if nothing is left. -/
theorem css_readsAs (cfg : Config) {rules : List StyleRule} {items : List Extracted}
    (h : ∀ r ∈ rules, WritableTree cfg r)
    (h' : ∀ item ∈ items, WritableTree cfg (wrap item.path item.rule)) :
    ReadsAs cfg (declaredTree rules) (scopedCss rules) ∧
      ReadsAs cfg (appliedTree items) (applyCss items) := by
  rw [scopedCss_eq, applyCss_eq]
  exact ⟨joined_forestLines (allPrintable_declaredTree h),
    joined_forestLines (allPrintable_appliedTree h')⟩

/-- A card with a declaration two blocks deep and a list that only applies classes. -/
def cardRules : List StyleRule :=
  [⟨".card", ["p-4"], [], [],
    [⟨"ul", ["mt-2"], [], [], [⟨"li", [], [], [], []⟩]⟩,
      ⟨"&:hover", [], [], [], [⟨".icon\\:x", [], ["color: red;", "top: 0;"], [], []⟩]⟩]⟩]

/-- A badge taken out of a card, and a rule without content. -/
def cardItems : List Extracted :=
  [⟨⟨":slotted(.badge)", ["px-2", "w-1/2"], ["color: red;"], [], []⟩, [".card", "& > .head"]⟩,
    ⟨⟨":slotted(a)", [], [], [], []⟩, []⟩]

theorem css_readsAs_card :
    ReadsAs .standard (declaredTree cardRules) (scopedCss cardRules) ∧
      ReadsAs .standard (appliedTree cardItems) (applyCss cardItems) :=
  css_readsAs .standard (by decide +kernel) (by decide +kernel)

example : scopedCss cardRules = some (".card \x7b\n  &:hover \x7b\n    .icon\\:x \x7b\n" ++
    "      color: red;\n      top: 0;\n    \x7d\n  \x7d\n\x7d") := by
  decide +kernel

end Output

end NestedStyles
