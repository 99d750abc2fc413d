import NestedStyles.Proofs.Reuse.Exporting

/-!
# How a block advances

While a file is resolved its blocks change in two ways only: content without uses is added where a
use stands, and uses are taken away. So a block advances (`Body.Advances`): what stood in it still
stands in front, rule by rule (`Body.Kept`), it gets no new uses, and a block without uses stays as
it is.
-/

namespace NestedStyles

mutual

/-- The classes and declarations of a block come first in the other one, and so do its rules. -/
inductive Body.Kept : Body → Body → Prop
  | intro {b b' : Body} (classes : b.classes <+: b'.classes)
      (declarations : b.declarations <+: b'.declarations)
      (children : StyleRule.KeptAll b.children b'.children) : Body.Kept b b'

/-- Each rule is kept in its place, with its selector. More rules may follow. -/
inductive StyleRule.KeptAll : List StyleRule → List StyleRule → Prop
  | nil (more : List StyleRule) : StyleRule.KeptAll [] more
  | cons {r r' : StyleRule} {rs rs' : List StyleRule} (selector : r'.selector = r.selector)
      (first : Body.Kept r.body r'.body) (rest : StyleRule.KeptAll rs rs') :
      StyleRule.KeptAll (r :: rs) (r' :: rs')

end

mutual

theorem StyleRule.kept_body (r : StyleRule) : r.body.Kept r.body := by
  obtain ⟨_, _, _, _, children⟩ := r
  have below := StyleRule.keptAll_refl children
  exact .intro (List.prefix_refl _) (List.prefix_refl _) below
termination_by structural r

theorem StyleRule.keptAll_refl (rs : List StyleRule) : StyleRule.KeptAll rs rs := by
  cases rs with
  | nil => exact .nil []
  | cons r rs =>
    exact .cons rfl (StyleRule.kept_body r) (StyleRule.keptAll_refl rs)
termination_by structural rs

end

mutual

theorem Body.Kept.trans {a b c : Body} (h : a.Kept b) (h' : b.Kept c) : a.Kept c := by
  match h, h' with
  | .intro classes declarations children, .intro classes' declarations' children' =>
    exact .intro (classes.trans classes') (declarations.trans declarations')
      (StyleRule.KeptAll.trans children children')
termination_by structural h

theorem StyleRule.KeptAll.trans {rs ss ts : List StyleRule} (h : StyleRule.KeptAll rs ss)
    (h' : StyleRule.KeptAll ss ts) : StyleRule.KeptAll rs ts := by
  match h, h' with
  | .nil _, _ => exact .nil ts
  | .cons selector first rest, .cons selector' first' rest' =>
    exact .cons (selector'.trans selector) (Body.Kept.trans first first')
      (StyleRule.KeptAll.trans rest rest')
termination_by structural h

end

/-- Rules without uses. -/
theorem StyleRule.usesIn_eq_nil {rs : List StyleRule}
    (free : ∀ (i : Nat) (r : StyleRule), rs[i]? = some r → r.body.allUses = []) :
    StyleRule.usesIn rs = [] := by
  refine List.eq_nil_iff_forall_not_mem.2 fun u used => ?_
  obtain ⟨i, r, found, path, here⟩ := StyleRule.exists_inside_all rs used
  have mem := Body.mem_allUses_of_inside path here
  rw [free i r found] at mem
  exact List.not_mem_nil mem

namespace StyleRule.KeptAll

/-- Rules are kept where others are added behind them. -/
theorem append (rs more : List StyleRule) : KeptAll rs (rs ++ more) := by
  induction rs with
  | nil => exact .nil more
  | cons r rs ih => exact .cons rfl r.kept_body ih

/-- A change of one rule that keeps it keeps all. -/
theorem modify {f : StyleRule → StyleRule}
    (keeps : ∀ r, (f r).selector = r.selector ∧ r.body.Kept (f r).body) (rs : List StyleRule)
    (i : Nat) : KeptAll rs (rs.modify i f) := by
  induction rs generalizing i with
  | nil => exact .nil _
  | cons r rs ih =>
    cases i with
    | zero => exact .cons (keeps r).1 (keeps r).2 (keptAll_refl rs)
    | succ i => exact .cons rfl r.kept_body (ih i)

end StyleRule.KeptAll

namespace Body

variable {a b c more : Body} {path : List Nat}

theorem Kept.refl (b : Body) : b.Kept b :=
  .intro (List.prefix_refl _) (List.prefix_refl _) (StyleRule.keptAll_refl _)

theorem Kept.append (b more : Body) : b.Kept (b ++ more) :=
  .intro (List.prefix_append _ _) (List.prefix_append _ _) (.append _ _)

/-- A change that keeps each block keeps the blocks around the one that is changed. -/
theorem kept_modifyAt {change : Body → Body} (keeps : ∀ b, Kept b (change b)) (path : List Nat)
    (b : Body) : b.Kept (b.modifyAt change path) := by
  induction path generalizing b with
  | nil => exact keeps b
  | cons i path ih =>
    refine .intro (List.prefix_refl _) (List.prefix_refl _) (.modify (fun r => ?_) b.children i)
    exact ⟨rfl, ih r.body⟩

/-- A block has come from `b` to `b'` while it was resolved. -/
structure Advances (b b' : Body) : Prop where
  kept : b.Kept b'
  uses : b'.allUses ⊆ b.allUses
  still : b.allUses = [] → b' = b

theorem Advances.refl (b : Body) : b.Advances b :=
  ⟨.refl b, List.Subset.refl _, fun _ => rfl⟩

theorem Advances.trans (h : a.Advances b) (h' : b.Advances c) : a.Advances c := by
  refine ⟨h.kept.trans h'.kept, List.Subset.trans h'.uses h.uses, fun free => ?_⟩
  have same := h.still free
  rw [h'.still (same ▸ free), same]

/-- Content without uses is added to a block with uses. -/
theorem Advances.append (used : b.allUses ≠ []) (free : more.allUses = []) (path : List Nat) :
    b.Advances (modifyAt (· ++ more) path b) := by
  refine ⟨kept_modifyAt (Kept.append · more) path b, Reuse.allUses_subset fun place => ?_,
    fun none => absurd none used⟩
  rw [uses_inside_modifyAt_append free]
  exact List.Subset.refl _

/-- The uses at a place are taken away. -/
theorem Advances.clear (b : Body) (path : List Nat) :
    b.Advances (modifyAt (fun b => { b with uses := [] }) path b) := by
  refine ⟨kept_modifyAt (fun b => ?_) path b, Reuse.allUses_subset fun place => ?_,
    fun free => modifyAt_clear free path⟩
  · exact .intro (List.prefix_refl _) (List.prefix_refl _) (StyleRule.keptAll_refl _)
  · rw [uses_inside_modifyAt_clear]
    split
    · exact List.nil_subset _
    · exact List.Subset.refl _

end Body

end NestedStyles
