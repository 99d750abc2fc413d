import Mathlib.Data.List.Infix
import NestedStyles.Output.Extract

/-!
# What extraction leaves and what it takes

Rules on slotted content are taken out of a rule tree, and rules on pseudo-elements out of what is
left. Nothing is lost or moved by that: the rules of the tree, depth first, each with the selectors
of the rules around it (`StyleRule.locatedAll`), are those of the tree that is left and those of the
rules taken, every list in its order (`extract_interleaves`).
-/

namespace NestedStyles

namespace Text

variable {part s : List Char}

theorem occursIn_iff : occursIn part s = true ↔ part <:+: s := by
  induction s with
  | nil =>
    rw [occursIn, indexOf?, List.infix_nil]
    split
    next none => simpa using none
    next some => simpa using some
  | cons c s ih =>
    rw [List.infix_cons_iff, ← ih, occursIn, indexOf?, occursIn]
    split
    next starts => simpa using .inl (List.isPrefixOf_iff_prefix.1 starts)
    next other =>
      rw [Option.isSome_map]
      exact (or_iff_right fun starts => other (List.isPrefixOf_iff_prefix.2 starts)).symm

end Text

/-! ## Rules with their places -/

namespace StyleRule

/-- The rule without the rules nested in it. -/
def alone (r : StyleRule) : StyleRule :=
  { r with children := [] }

mutual

/-- The rule and the rules nested in it, depth first. Each stands alone, with the selectors of the
rules around it from the top; `path` are those around the first. -/
def located (path : List String) : StyleRule → List (List String × StyleRule)
  | r@⟨selector, _, _, _, children⟩ =>
    (path, r.alone) :: locatedAll (path ++ [selector]) children

/-- The rules of a list with the rules nested in them, depth first, each with its place. -/
def locatedAll (path : List String) : List StyleRule → List (List String × StyleRule)
  | [] => []
  | r :: rs => r.located path ++ locatedAll path rs

end

mutual

theorem map_snd_located (path : List String) (r : StyleRule) :
    (r.located path).map Prod.snd = r.walk.map alone := by
  obtain ⟨selector, classes, declarations, uses, children⟩ := r
  rw [located, walk, List.map_cons, List.map_cons, map_snd_locatedAll]

/-- The rules with their places are the rules depth first. -/
theorem map_snd_locatedAll (path : List String) (rs : List StyleRule) :
    (locatedAll path rs).map Prod.snd = (walkAll rs).map alone := by
  cases rs with
  | nil => rfl
  | cons r rs =>
    rw [locatedAll, walkAll, List.map_append, List.map_append, map_snd_located,
      map_snd_locatedAll]

end

theorem locatedAll_append (path : List String) (rs ss : List StyleRule) :
    locatedAll path (rs ++ ss) = locatedAll path rs ++ locatedAll path ss := by
  induction rs with
  | nil => rfl
  | cons r rs ih => rw [List.cons_append, locatedAll, locatedAll, ih, List.append_assoc]

theorem walkAll_append (rs ss : List StyleRule) :
    walkAll (rs ++ ss) = walkAll rs ++ walkAll ss := by
  induction rs with
  | nil => rfl
  | cons r rs ih => rw [List.cons_append, walkAll, walkAll, ih, List.append_assoc]

end StyleRule

namespace Output

open Text StyleRule

/-- The rules of an extracted rule, itself first, each with its place. -/
def Extracted.located (e : Extracted) : List (List String × StyleRule) :=
  e.rule.located e.path

/-! ## Lists put together in order -/

/-- The last list consists of the three others, each in its order. -/
inductive Interleaved {α : Type} : List α → List α → List α → List α → Prop
  | nil : Interleaved [] [] [] []
  | first {x : α} {as bs cs xs : List α} (more : Interleaved as bs cs xs) :
      Interleaved (x :: as) bs cs (x :: xs)
  | second {x : α} {as bs cs xs : List α} (more : Interleaved as bs cs xs) :
      Interleaved as (x :: bs) cs (x :: xs)
  | third {x : α} {as bs cs xs : List α} (more : Interleaved as bs cs xs) :
      Interleaved as bs (x :: cs) (x :: xs)

namespace Interleaved

variable {α : Type} {as bs cs xs as' bs' cs' xs' : List α}

theorem append (h : Interleaved as bs cs xs) (h' : Interleaved as' bs' cs' xs') :
    Interleaved (as ++ as') (bs ++ bs') (cs ++ cs') (xs ++ xs') := by
  induction h with
  | nil => exact h'
  | first _ ih => exact .first ih
  | second _ ih => exact .second ih
  | third _ ih => exact .third ih

theorem second_alone (bs : List α) : Interleaved [] bs [] bs := by
  induction bs with
  | nil => exact .nil
  | cons b bs ih => exact .second ih

/-- What is left by a first pass is parted by a second one. -/
theorem then_third (h : Interleaved as bs [] xs) (h' : Interleaved as' cs [] as) :
    Interleaved as' bs cs xs := by
  generalize none : ([] : List α) = rest at h
  induction h generalizing as' cs with
  | nil =>
    cases h'
    exact .nil
  | first _ ih =>
    cases h' with
    | first more => exact .first (ih more none)
    | second more => exact .third (ih more none)
  | second _ ih => exact .second (ih h' none)
  | third => cases none

theorem mem_of_first {x : α} (h : Interleaved as bs cs xs) (mem : x ∈ as) : x ∈ xs := by
  induction h with
  | nil => exact mem
  | first _ ih =>
    obtain rfl | later := List.mem_cons.1 mem
    · exact List.mem_cons_self
    · exact List.mem_cons_of_mem _ (ih later)
  | second _ ih | third _ ih => exact List.mem_cons_of_mem _ (ih mem)

end Interleaved

/-! ## One pass -/

section

variable (p : String → Bool)

/-- No rule that is left satisfies `p`, and every rule that is taken does. -/
structure Partition.Parts (x : Partition) : Prop where
  kept : ∀ r ∈ walkAll x.kept, p r.selector = false
  extracted : ∀ e ∈ x.extracted, p e.rule.selector = true

mutual

theorem parts_extractRule (path : List String) (r : StyleRule) :
    (extractRule p path r).Parts p := by
  obtain ⟨selector, classes, declarations, uses, children⟩ := r
  rw [extractRule]
  split
  next taken => exact ⟨List.forall_mem_nil _, List.forall_mem_singleton.2 taken⟩
  next other =>
    obtain ⟨kept, extracted⟩ := parts_extractAll (path ++ [selector]) children
    refine ⟨?_, extracted⟩
    rw [walkAll, walkAll, List.append_nil, walk]
    exact List.forall_mem_cons.2 ⟨eq_false_of_ne_true other, kept⟩

theorem parts_extractAll (path : List String) (rs : List StyleRule) :
    (extractAll p path rs).Parts p := by
  cases rs with
  | nil => exact ⟨List.forall_mem_nil _, List.forall_mem_nil _⟩
  | cons r rs =>
    obtain ⟨kept, extracted⟩ := parts_extractRule path r
    obtain ⟨kept', extracted'⟩ := parts_extractAll path rs
    refine ⟨?_, List.forall_mem_append.2 ⟨extracted, extracted'⟩⟩
    rw [extractAll, walkAll_append]
    exact List.forall_mem_append.2 ⟨kept, kept'⟩

end

mutual

theorem interleaved_extractRule (path : List String) (r : StyleRule) :
    Interleaved (locatedAll path (extractRule p path r).kept)
      ((extractRule p path r).extracted.flatMap Extracted.located) [] (r.located path) := by
  obtain ⟨selector, classes, declarations, uses, children⟩ := r
  rw [extractRule]
  split
  next =>
    rw [List.flatMap_singleton]
    exact .second_alone _
  next =>
    rw [locatedAll, locatedAll, List.append_nil, located, located]
    exact .first (interleaved_extractAll (path ++ [selector]) children)

/-- Each rule is left or belongs to a rule that is taken, and all keep their order and their
places. -/
theorem interleaved_extractAll (path : List String) (rs : List StyleRule) :
    Interleaved (locatedAll path (extractAll p path rs).kept)
      ((extractAll p path rs).extracted.flatMap Extracted.located) [] (locatedAll path rs) := by
  cases rs with
  | nil => exact .nil
  | cons r rs =>
    rw [extractAll, locatedAll_append, List.flatMap_append, locatedAll]
    exact (interleaved_extractRule path r).append (interleaved_extractAll path rs)

end

/-- A rule that is left is, by itself, one of the rules before. -/
theorem exists_of_mem_kept {path : List String} {rs : List StyleRule} {r : StyleRule}
    (mem : r ∈ walkAll (extractAll p path rs).kept) : ∃ s ∈ walkAll rs, s.alone = r.alone := by
  have left : r.alone ∈ (locatedAll path (extractAll p path rs).kept).map Prod.snd := by
    rw [map_snd_locatedAll]
    exact List.mem_map_of_mem mem
  obtain ⟨entry, within, same⟩ := List.mem_map.1 left
  have before : r.alone ∈ (locatedAll path rs).map Prod.snd :=
    List.mem_map.2 ⟨entry, (interleaved_extractAll p path rs).mem_of_first within, same⟩
  rw [map_snd_locatedAll] at before
  exact List.mem_map.1 before

end

/-! ## Two passes -/

section

variable (p q : String → Bool)

theorem kept_append (path : List String) (rs ss : List StyleRule) :
    (extractAll p path (rs ++ ss)).kept =
      (extractAll p path rs).kept ++ (extractAll p path ss).kept := by
  induction rs with
  | nil => rfl
  | cons r rs ih => rw [List.cons_append, extractAll, extractAll, ih, List.append_assoc]

mutual

theorem kept_extractRule (path path' : List String) (r : StyleRule) :
    (extractAll q path' (extractRule p path r).kept).kept =
      (extractRule (fun s => p s || q s) path r).kept := by
  obtain ⟨selector, classes, declarations, uses, children⟩ := r
  rw [extractRule, extractRule]
  cases taken : p selector with
  | true => rfl
  | false =>
    have inner := kept_extractAll (path ++ [selector]) (path' ++ [selector]) children
    cases taken' : q selector with
    | true => simp [extractAll, extractRule, taken']
    | false => simp [extractAll, extractRule, taken', inner]

/-- Two passes leave what one pass leaves that takes the rules of both kinds. -/
theorem kept_extractAll (path path' : List String) (rs : List StyleRule) :
    (extractAll q path' (extractAll p path rs).kept).kept =
      (extractAll (fun s => p s || q s) path rs).kept := by
  cases rs with
  | nil => rfl
  | cons r rs =>
    rw [extractAll, extractAll, kept_append, kept_extractRule, kept_extractAll]

end

end

/-- Of a tree, extraction leaves no rule on slotted content and none on a pseudo-element. The rules
left and those taken out, depth first and each with the rules around it, are together the rules of
the tree in their order. What is left does not depend on which kind is taken out first. -/
theorem extract_interleaves (rules : List StyleRule) :
    let slotted := extract isSlotted rules
    let pseudo := extract isPseudoElement slotted.kept
    (∀ r ∈ walkAll pseudo.kept,
      ¬ ":slotted(".toList <:+: r.selector.toList ∧ ¬ "::".toList <:+: r.selector.toList) ∧
    (∀ e ∈ slotted.extracted, ":slotted(".toList <:+: e.rule.selector.toList) ∧
    (∀ e ∈ pseudo.extracted, "::".toList <:+: e.rule.selector.toList) ∧
    Interleaved (locatedAll [] pseudo.kept) (slotted.extracted.flatMap Extracted.located)
      (pseudo.extracted.flatMap Extracted.located) (locatedAll [] rules) ∧
    (extract isSlotted (extract isPseudoElement rules).kept).kept = pseudo.kept := by
  intro slotted pseudo
  have first : slotted.Parts isSlotted := parts_extractAll isSlotted [] rules
  have second : pseudo.Parts isPseudoElement := parts_extractAll isPseudoElement [] slotted.kept
  refine ⟨fun r left => ⟨fun occurs => ?_, fun occurs => ?_⟩,
    fun e taken => occursIn_iff.1 (first.extracted e taken),
    fun e taken => occursIn_iff.1 (second.extracted e taken),
    (interleaved_extractAll isSlotted [] rules).then_third
      (interleaved_extractAll isPseudoElement [] slotted.kept), ?_⟩
  · obtain ⟨s, before, same⟩ := exists_of_mem_kept isPseudoElement left
    have selector : s.alone.selector = r.alone.selector := congrArg StyleRule.selector same
    have other : isSlotted r.selector = false := selector ▸ first.kept s before
    exact absurd (occursIn_iff.2 occurs) (ne_true_of_eq_false other)
  · exact absurd (occursIn_iff.2 occurs) (ne_true_of_eq_false (second.kept r left))
  · have either : (fun s => isPseudoElement s || isSlotted s) =
        fun s => isSlotted s || isPseudoElement s := funext fun s => Bool.or_comm _ _
    rw [extract, extract, kept_extractAll, either, ← kept_extractAll]
    rfl

end Output

end NestedStyles
