import NestedStyles.Proofs.Reuse.Expansion

/-!
# Working at a place in a block

`Focus path around` says that what stands at `path` in the block `around b` is `b`, and that a
change there is a change of `b`. A focus is carried from a block to the rules in it
(`Focus.child`), whatever their siblings have become. Taking uses away changes nothing where there
are none (`Body.modifyAt_clear`).
-/

namespace NestedStyles

/-- A change of one entry depends only on what it makes of that entry. -/
theorem modify_congr {α : Type} {l : List α} {k : Nat} {f g : α → α}
    (same : ∀ a, l[k]? = some a → f a = g a) : l.modify k f = l.modify k g := by
  apply List.ext_getElem?
  intro j
  rw [List.getElem?_modify, List.getElem?_modify]
  by_cases h : k = j
  · subst h
    cases hk : l[k]? with
    | none => rfl
    | some a => simp [same a hk]
  · simp [h]

/-- Changing an entry into itself leaves a list as it is. -/
theorem modify_eq_self_of_fixed {α : Type} {l : List α} {k : Nat} {f : α → α}
    (fixed : ∀ a, l[k]? = some a → f a = a) : l.modify k f = l := by
  rw [modify_congr (g := id) fixed, List.modify_id]

namespace Body

variable {b : Body} {path : List Nat}

theorem inside_empty (path : List Nat) : inside path empty = empty := by
  cases path with
  | nil => rfl
  | cons => rfl

theorem inside_append (path more : List Nat) (b : Body) :
    inside (path ++ more) b = inside more (inside path b) := by
  induction path generalizing b with
  | nil => rfl
  | cons i path ih =>
    rw [List.cons_append, inside, inside]
    cases b.children[i]? with
    | none => rw [inside_empty]
    | some r => exact ih r.body

theorem modifyAt_append (change : Body → Body) (path more : List Nat) (b : Body) :
    modifyAt change (path ++ more) b = modifyAt (modifyAt change more) path b := by
  induction path generalizing b with
  | nil => rfl
  | cons i path ih =>
    rw [List.cons_append, modifyAt, modifyAt]
    simp only [ih]

/-- Two changes at one place are one. -/
theorem modifyAt_modifyAt (first second : Body → Body) (place : List Nat) (b : Body) :
    modifyAt second place (modifyAt first place b) = modifyAt (second ∘ first) place b := by
  induction place generalizing b with
  | nil => rfl
  | cons k place ih =>
    rw [modifyAt, modifyAt, modifyAt, List.modify_modify_eq]
    have each : ((fun r : StyleRule => (modifyAt second place r.body).toRule r.selector) ∘
        fun r : StyleRule => (modifyAt first place r.body).toRule r.selector) =
          fun r : StyleRule => (modifyAt (second ∘ first) place r.body).toRule r.selector :=
      funext fun r => congrArg (toRule · r.selector) (ih r.body)
    rw [each]

/-- A change that changes nothing changes nothing at a place. -/
theorem modifyAt_id (place : List Nat) (b : Body) : modifyAt id place b = b := by
  induction place generalizing b with
  | nil => rfl
  | cons k place ih =>
    have same : b.children.modify k (fun r => (modifyAt id place r.body).toRule r.selector) =
        b.children := by
      refine modify_eq_self_of_fixed fun r _ => ?_
      rw [ih, StyleRule.toRule_body]
    rw [modifyAt, same]

/-- A block without uses at any depth holds only rules without uses. -/
theorem free_of_children {r : StyleRule} {i : Nat} (free : b.allUses = [])
    (h : b.children[i]? = some r) : r.body.allUses = [] := by
  have below := (List.append_eq_nil_iff.1 free).2
  generalize b.children = rs at below h
  induction rs generalizing i with
  | nil => cases h
  | cons first rest ih =>
    rw [StyleRule.usesIn_cons] at below
    obtain ⟨here, below⟩ := List.append_eq_nil_iff.1 below
    cases i with
    | zero =>
      cases h
      exact here
    | succ i => exact ih below h

theorem uses_inside_of_free (free : b.allUses = []) (path : List Nat) :
    (inside path b).uses = [] := by
  induction path generalizing b with
  | nil => exact (List.append_eq_nil_iff.1 free).1
  | cons i path ih =>
    rw [inside]
    cases h : b.children[i]? with
    | none => rfl
    | some r => exact ih (free_of_children free h)

/-- Where nothing is used, taking uses away changes nothing. -/
theorem modifyAt_clear (free : b.allUses = []) (path : List Nat) :
    modifyAt (fun b => { b with uses := [] }) path b = b := by
  induction path generalizing b with
  | nil =>
    obtain ⟨classes, declarations, uses, children⟩ := b
    obtain rfl : uses = [] := (List.append_eq_nil_iff.1 free).1
    rfl
  | cons i path ih =>
    have same : b.children.modify i (fun r =>
        (modifyAt (fun b => { b with uses := [] }) path r.body).toRule r.selector) = b.children := by
      refine modify_eq_self_of_fixed fun r hr => ?_
      rw [ih (free_of_children free hr), StyleRule.toRule_body]
    rw [modifyAt, same]

end Body

namespace Reuse

/-- What stands at `path` in the block `around b` is `b`, and a change there is one of `b`. -/
structure Focus (path : List Nat) (around : Body → Body) : Prop where
  inside : ∀ b, Body.inside path (around b) = b
  modifyAt : ∀ change b, Body.modifyAt change path (around b) = around (change b)

namespace Focus

/-- A block as a whole. -/
theorem root : Focus [] id :=
  ⟨fun _ => rfl, fun _ _ => rfl⟩

/-- A rule in the block in focus, between other rules. -/
theorem child {path : List Nat} {around : Body → Body} (h : Focus path around)
    (classes declarations : List String) (uses : List UseDirective) (selector : String)
    (before after : List StyleRule) :
    Focus (path ++ [before.length]) fun b =>
      around ⟨classes, declarations, uses, before ++ b.toRule selector :: after⟩ := by
  constructor
  · intro b
    rw [Body.inside_append, h.inside]
    simp [Body.inside]
  · intro change b
    have here : (before ++ b.toRule selector :: after).modify before.length
        (fun r => (change r.body).toRule r.selector) =
          before ++ (change b).toRule selector :: after := by
      rw [List.modify_eq_take_drop, List.take_left, List.drop_left]
      rfl
    rw [Body.modifyAt_append, h.modifyAt]
    simp only [Body.modifyAt, here]

end Focus

end Reuse

end NestedStyles
