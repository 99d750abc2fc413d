import NestedStyles.Proofs.Template.Origins

/-!
# Chains of branches

A chain is a `v-if` with the `v-else-if` and `v-else` behind it (`InChain`). The tags of the nodes
follow the chains of each list with its slots left out, and each chain has a number of its own
(`number_inj`). A node has the tag of the innermost chain that it stands in with nothing but
wrappers around it (`tagAt_eq_some_iff`).
-/

namespace NestedStyles.Element

/-! ## Chains -/

/-- Neither an element nor a placeholder for one. -/
def isRemark : Element → Bool
  | remark => true
  | element .. => false

/-- An element that stands for content given from outside. -/
def isSlot : Element → Bool
  | remark => false
  | element tag _ _ => tag == slotTag

/-- The element is the first one of a chain. -/
def startsChain (e : Element) : Bool :=
  hasAttribute e.attributes "v-if"

/-- A chain goes on behind the element. -/
def keepsChain : Element → Bool
  | remark => true
  | element _ attributes _ => !hasAttribute attributes "v-if" &&
      (hasAttribute attributes "v-else-if" || hasAttribute attributes "v-else")

/-- A chain that starts at `s` is open in front of `k`. -/
structure OpenChain (es : List Element) (s k : Nat) : Prop where
  lt : s < k
  starts : ∃ e, es[s]? = some e ∧ e.startsChain = true
  keeps : ∀ n e, s < n → n < k → es[n]? = some e → e.keepsChain = true

/-- The `k`-th element belongs to the chain that starts at `s`. -/
structure InChain (es : List Element) (s k : Nat) : Prop extends OpenChain es s (k + 1) where
  member : ∃ e, es[k]? = some e ∧ e.isRemark = false

/-- A slot is nothing but a remark to the elements around it. -/
def hidden (e : Element) : Element :=
  if e.isSlot then remark else e

/-- The list with its slots left out. -/
def hideSlots (es : List Element) : List Element :=
  es.map hidden

variable {es : List Element} {e : Element} {s k l : Nat} {p q r : Address}
  {before : Option Conditional} {next : Nat}

theorem openChain_zero : ¬ OpenChain es s 0 :=
  fun h => Nat.not_lt_zero s h.lt

theorem openChain_succ (here : es[k]? = some e) :
    OpenChain es s (k + 1) ↔
      s = k ∧ e.startsChain = true ∨ OpenChain es s k ∧ e.keepsChain = true := by
  constructor
  · intro h
    obtain rfl | lt := Nat.eq_or_lt_of_le (Nat.le_of_lt_succ h.lt)
    · obtain ⟨e', here', starts⟩ := h.starts
      obtain rfl : e = e' := Option.some.inj (here.symm.trans here')
      exact .inl ⟨rfl, starts⟩
    · right
      exact ⟨⟨lt, h.starts, fun n e' before behind => h.keeps n e' before (by omega)⟩,
        h.keeps k e lt (Nat.lt_succ_self k) here⟩
  · rintro (⟨rfl, starts⟩ | ⟨h, keeps⟩)
    · exact ⟨Nat.lt_succ_self s, ⟨e, here, starts⟩, fun n _ before behind => by omega⟩
    · refine ⟨Nat.lt_succ_of_lt h.lt, h.starts, fun n e' before behind here' => ?_⟩
      obtain rfl | lt := Nat.eq_or_lt_of_le (Nat.le_of_lt_succ behind)
      · exact Option.some.inj (here.symm.trans here') ▸ keeps
      · exact h.keeps n e' before lt here'

theorem keepsChain_ne_starts (starts : e.startsChain = true) : e.keepsChain = false := by
  cases e with
  | remark => simp [startsChain, attributes, hasAttribute] at starts
  | element tag attributes children =>
    rw [startsChain, Element.attributes] at starts
    simp [keepsChain, starts]

/-- Of the elements in front of which a chain is open the chain's first one is the nearest. -/
theorem OpenChain.unique {s' : Nat} (h : OpenChain es s k) (h' : OpenChain es s' k) : s = s' := by
  by_contra apart
  obtain ⟨e, here, starts⟩ := h.starts
  obtain ⟨e', here', starts'⟩ := h'.starts
  obtain lt | lt := Nat.lt_or_gt_of_ne apart
  · have keeps := h.keeps s' e' lt h'.lt here'
    rw [keepsChain_ne_starts starts'] at keeps
    cases keeps
  · have keeps := h'.keeps s e lt h.lt here
    rw [keepsChain_ne_starts starts] at keeps
    cases keeps

theorem inChain_self (here : es[s]? = some e) (starts : e.startsChain = true) :
    InChain es s s := by
  refine ⟨(openChain_succ here).2 (.inl ⟨rfl, starts⟩), e, here, ?_⟩
  cases e with
  | remark => cases starts
  | element => rfl

theorem InChain.further (h : InChain es s k) (here : es[k + 1]? = some e)
    (keeps : e.keepsChain = true) (visible : e.isRemark = false) : InChain es s (k + 1) :=
  ⟨(openChain_succ here).2 (.inr ⟨h.toOpenChain, keeps⟩), e, here, visible⟩

/-! ## Tags follow the chains -/

theorem buildAll_append (es us : List Element) :
    buildAll before next (es ++ us) =
      let first := buildAll before next es
      let others := buildAll first.tag first.next us
      ⟨first.trees ++ others.trees, others.tag, others.next⟩ := by
  induction es generalizing before next with
  | nil => rfl
  | cons e es ih => simp only [List.cons_append, buildAll, ih, List.append_assoc]

theorem take_succ_of_getElem? (here : es[k]? = some e) : es.take (k + 1) = es.take k ++ [e] := by
  rw [List.take_add_one, here, Option.toList_some]

/-- The state in front of the element behind another one. -/
theorem buildAll_take_succ (here : es[k]? = some e) :
    (buildAll before next (es.take (k + 1))).tag =
        (build (buildAll before next (es.take k)).tag
          (buildAll before next (es.take k)).next e).tag ∧
      (buildAll before next (es.take (k + 1))).next =
        (build (buildAll before next (es.take k)).tag
          (buildAll before next (es.take k)).next e).next := by
  rw [take_succ_of_getElem? here, buildAll_append]
  exact ⟨rfl, rfl⟩

/-- What the builder carries from an element to the next one. -/
inductive Carries (before : Option Conditional) (next : Nat) (e : Element) :
    Option Conditional → Prop
  | skip (nothing : e = remark) : Carries before next e before
  | start (starts : e.startsChain = true) : Carries before next e (some ⟨next, 0⟩)
  | keep (keeps : e.keepsChain = true) (visible : e.isRemark = false) :
    Carries before next e (before.map fun t => { t with branch := t.branch + 1 })
  | stop (starts : e.startsChain = false) (keeps : e.keepsChain = false) :
    Carries before next e none

theorem carries_build (before : Option Conditional) (next : Nat) (e : Element) :
    Carries before next e.hidden (build before next e).tag := by
  cases e with
  | remark => exact .skip rfl
  | element tag attributes children =>
    cases visible : tag == slotTag with
    | true =>
      rw [build_slot visible]
      exact .skip (by simp [hidden, isSlot, visible])
    | false =>
      have same : (element tag attributes children).hidden = element tag attributes children := by
        simp [hidden, isSlot, visible]
      rw [tag_build visible, same, chainTag]
      cases starts : hasAttribute attributes "v-if" with
      | true => exact .start starts
      | false =>
        cases keeps : hasAttribute attributes "v-else-if" || hasAttribute attributes "v-else" with
        | true => exact .keep (by simp [keepsChain, starts, keeps]) rfl
        | false => exact .stop starts (by simp [keepsChain, starts, keeps])

/-- The branch of a chain from `s` on that is reached in front of `k`. -/
def branch (es : List Element) (s k : Nat) : Nat :=
  ((es.take k).drop (s + 1)).countP fun e => !e.isRemark

theorem branch_start (es : List Element) (s : Nat) : branch es s (s + 1) = 0 := by
  rw [branch, List.drop_eq_nil_of_le (List.length_take_le _ _), List.countP_nil]

theorem branch_succ (here : es[k]? = some e) (lt : s < k) :
    branch es s (k + 1) = branch es s k + if e.isRemark then 0 else 1 := by
  have room : s + 1 ≤ (es.take k).length := by
    have within := (List.getElem?_eq_some_iff.1 here).1
    rw [List.length_take]
    omega
  rw [branch, branch, take_succ_of_getElem? here, List.drop_append_of_le_length room,
    List.countP_append, List.countP_singleton]
  cases e.isRemark <;> rfl

/-- The tag that is carried to an element is that of the chain that is open in front of it, in the
list without its slots. -/
theorem tag_eq_some_iff {t : Conditional} (within : k ≤ es.length) :
    (buildAll none next (es.take k)).tag = some t ↔
      ∃ s, OpenChain (hideSlots es) s k ∧
        t = ⟨(buildAll none next (es.take s)).next, branch (hideSlots es) s k⟩ := by
  induction k generalizing t with
  | zero =>
    constructor
    · intro h
      cases h
    · rintro ⟨s, h, -⟩
      exact absurd h openChain_zero
  | succ k ih =>
    obtain ⟨e, here⟩ : ∃ e, es[k]? = some e := ⟨_, List.getElem?_eq_getElem (by omega)⟩
    have shown : (hideSlots es)[k]? = some e.hidden := by
      rw [hideSlots, List.getElem?_map, here, Option.map_some]
    have ih := fun t => @ih t (by omega)
    have carries := carries_build (buildAll none next (es.take k)).tag
      (buildAll none next (es.take k)).next e
    rw [(buildAll_take_succ here).1]
    simp only [openChain_succ shown]
    generalize (build _ _ e).tag = tag at carries ⊢
    cases carries with
    | skip nothing =>
      have starts : e.hidden.startsChain = false := by
        rw [nothing]
        rfl
      have keeps : e.hidden.keepsChain = true := by
        rw [nothing]
        rfl
      simp only [ih, starts, keeps, Bool.false_eq_true, and_false, false_or, and_true]
      refine exists_congr fun s => and_congr_right fun h => ?_
      rw [branch_succ shown h.lt, nothing]
      rfl
    | start starts =>
      simp only [starts, keepsChain_ne_starts starts, Bool.false_eq_true, and_false, or_false,
        and_true, exists_eq_left, branch_start, Option.some.injEq]
      exact eq_comm
    | keep keeps visible =>
      have starts : e.hidden.startsChain = false := by
        by_contra starts
        rw [keepsChain_ne_starts (Bool.of_not_eq_false starts)] at keeps
        cases keeps
      simp only [Option.map_eq_some_iff, ih, starts, keeps, Bool.false_eq_true, and_false, false_or,
        and_true]
      constructor
      · rintro ⟨_, ⟨s, h, rfl⟩, rfl⟩
        refine ⟨s, h, ?_⟩
        rw [branch_succ shown h.lt, visible]
        rfl
      · rintro ⟨s, h, rfl⟩
        refine ⟨_, ⟨s, h, rfl⟩, ?_⟩
        rw [branch_succ shown h.lt, visible]
        rfl
    | stop starts keeps =>
      simp only [starts, keeps, Bool.false_eq_true, and_false, or_false, false_and, exists_false,
        reduceCtorEq]

theorem hideSlots_getElem? (es : List Element) (k : Nat) :
    (hideSlots es)[k]? = es[k]?.map hidden :=
  List.getElem?_map ..

/-- The tag of an element that is not left out is that of its chain. -/
theorem own_tag_iff {t : Conditional} (here : es[k]? = some e)
    (visible : e.hidden.isRemark = false) :
    (buildAll none next (es.take (k + 1))).tag = some t ↔
      ∃ s, InChain (hideSlots es) s k ∧
        t = ⟨(buildAll none next (es.take s)).next, branch (hideSlots es) s (k + 1)⟩ := by
  have within := (List.getElem?_eq_some_iff.1 here).1
  have shown : (hideSlots es)[k]? = some e.hidden := by
    rw [hideSlots_getElem?, here, Option.map_some]
  rw [tag_eq_some_iff within]
  exact exists_congr fun s =>
    and_congr_left fun _ => ⟨fun h => ⟨h, e.hidden, shown, visible⟩, InChain.toOpenChain⟩

theorem le_branch (es : List Element) (s : Nat) (le : k ≤ l) : branch es s k ≤ branch es s l := by
  obtain ⟨n, rfl⟩ := Nat.exists_eq_add_of_le le
  rw [branch, branch]
  apply List.Sublist.countP_le
  exact (List.take_prefix_take_left (by omega) (l := es)).sublist.drop _

/-- The elements of a chain are its branches, all of them different. -/
theorem InChain.branch_inj (h : InChain es s k) (h' : InChain es s l)
    (same : branch es s (k + 1) = branch es s (l + 1)) : k = l := by
  have further : ∀ {k l}, InChain es s k → InChain es s l → k < l →
      branch es s (k + 1) < branch es s (l + 1) := by
    intro k l h h' lt
    obtain ⟨e, here, visible⟩ := h'.member
    have first := h.lt
    rw [branch_succ here (by omega), visible]
    exact Nat.lt_succ_of_le (le_branch es s lt)
  by_contra apart
  obtain lt | lt := Nat.lt_or_gt_of_ne apart
  · exact absurd same (Nat.ne_of_lt (further h h' lt))
  · exact absurd same (Nat.ne_of_gt (further h' h lt))

/-! ## Numbers of chains -/

/-- Each chain takes one number. -/
theorem next_chainTag (attributes : List (String × String)) (before : Option Conditional)
    (next : Nat) : (chainTag attributes before next).2 =
      if hasAttribute attributes "v-if" then next + 1 else next := by
  rw [chainTag]
  split
  · rfl
  · split <;> rfl

theorem next_le_chainTag (attributes : List (String × String)) (before : Option Conditional)
    (next : Nat) : next ≤ (chainTag attributes before next).2 := by
  rw [next_chainTag]
  split <;> omega

/-- An element takes its own number before those of its content. -/
theorem chainTag_le_build {tag : String} {attributes : List (String × String)}
    {children : List Element} (visible : (tag == slotTag) = false)
    (inner : ∀ n, n ≤ (buildAll none n children).next) :
    (chainTag attributes before next).2 ≤
      (build before next (element tag attributes children)).next := by
  by_cases wrapper : tag ∈ transparentTags
  · rw [build_wrapper visible wrapper]
    exact inner _
  cases closed : hasAttribute attributes "v-html" with
  | true =>
    exact Nat.le_of_eq (congrArg Built.next (build_closed visible wrapper closed)).symm
  | false =>
    rw [build_kept visible wrapper closed]
    exact inner _

mutual

theorem next_le_build (before : Option Conditional) (next : Nat) (e : Element) :
    next ≤ (build before next e).next := by
  cases e with
  | remark => exact Nat.le_refl next
  | element tag attributes children =>
    cases visible : tag == slotTag with
    | true =>
      exact Nat.le_of_eq (congrArg Built.next (build_slot visible)).symm
    | false =>
      exact Nat.le_trans (next_le_chainTag attributes before next)
        (chainTag_le_build visible fun n => next_le_buildAll none n children)

theorem next_le_buildAll (before : Option Conditional) (next : Nat) (es : List Element) :
    next ≤ (buildAll before next es).next := by
  cases es with
  | nil => exact Nat.le_refl next
  | cons e es => exact Nat.le_trans (next_le_build before next e) (next_le_buildAll _ _ es)

end

theorem next_take_le (before : Option Conditional) (next : Nat) (es : List Element) (le : k ≤ l) :
    (buildAll before next (es.take k)).next ≤ (buildAll before next (es.take l)).next := by
  obtain ⟨n, rfl⟩ := Nat.exists_eq_add_of_le le
  rw [List.take_add, buildAll_append]
  exact next_le_buildAll _ _ _

theorem next_take_le_all (before : Option Conditional) (next : Nat) (es : List Element) (k : Nat) :
    (buildAll before next (es.take k)).next ≤ (buildAll before next es).next := by
  conv_rhs => rw [← List.take_append_drop k es, buildAll_append]
  exact next_le_buildAll _ _ _

/-- The builder goes into the element. -/
def isOpen : Element → Bool
  | remark => false
  | element tag attributes _ =>
    tag != slotTag && (tag ∈ transparentTags || !hasAttribute attributes "v-html")

theorem isOpen_element {tag : String} {attributes : List (String × String)}
    {children : List Element} : isOpen (element tag attributes children) = true ↔
      (tag == slotTag) = false ∧
        (tag ∈ transparentTags ∨ hasAttribute attributes "v-html" = false) := by
  simp [isOpen]

theorem next_build_of_isOpen (h : e.isOpen = true) :
    (build before next e).next =
      (buildAll none (chainTag e.attributes before next).2 e.content).next := by
  cases e with
  | remark => cases h
  | element tag attributes children =>
    obtain ⟨visible, entered⟩ := isOpen_element.1 h
    by_cases wrapper : tag ∈ transparentTags
    · rw [build_wrapper visible wrapper]
      rfl
    · rw [build_kept visible wrapper (entered.resolve_left wrapper)]
      rfl

theorem originsOf_of_isOpen (h : e.isOpen = true) :
    originsOf e = if e.isTransparent then origins e.content else [] :: origins e.content := by
  cases e with
  | remark => cases h
  | element tag attributes children =>
    obtain ⟨visible, entered⟩ := isOpen_element.1 h
    by_cases wrapper : tag ∈ transparentTags
    · rw [originsOf_wrapper visible wrapper]
      simp [isTransparent, wrapper, content]
    · rw [originsOf_kept visible wrapper (entered.resolve_left wrapper)]
      simp [isTransparent, wrapper, content]

/-- The builder comes to the element at this address. -/
def Visited : List Element → Address → Prop
  | _, [] => False
  | es, [k] => ∃ e, es[k]? = some e ∧ e.hidden.isRemark = false
  | es, k :: l :: q => (∃ e, es[k]? = some e ∧ e.isOpen = true) ∧ Visited (contentAt es k) (l :: q)

theorem visited_cons (nonempty : q ≠ []) : Visited es (k :: q) ↔
    (∃ e, es[k]? = some e ∧ e.isOpen = true) ∧ Visited (contentAt es k) q := by
  obtain ⟨l, q, rfl⟩ := List.exists_cons_of_ne_nil nonempty
  rfl

/-- The number of a chain that starts at an address. -/
def number (next : Nat) : List Element → Address → Nat
  | _, [] => next
  | es, [k] => (buildAll none next (es.take k)).next
  | es, k :: l :: q => number (nextInside none next es k) (contentAt es k) (l :: q)

theorem nextInside_of_getElem? (here : es[k]? = some e) :
    nextInside before next es k =
      (buildAll before next (es.take k)).next + if e.startsChain then 1 else 0 := by
  rw [nextInside, here, Option.map_some, Option.getD_some, next_chainTag, startsChain]
  split <;> rfl

theorem le_number (next : Nat) (es : List Element) (k : Nat) (q : Address) :
    (buildAll none next (es.take k)).next ≤ number next es (k :: q) := by
  induction q generalizing next es k with
  | nil => exact Nat.le_refl _
  | cons l q ih =>
    calc (buildAll none next (es.take k)).next
        ≤ nextInside none next es k := next_le_chainTag _ _ _
      _ ≤ (buildAll none (nextInside none next es k) ((contentAt es k).take l)).next :=
          next_le_buildAll _ _ _
      _ ≤ number next es (k :: l :: q) := ih _ _ l

/-- A chain has its number before the builder is through with the element. -/
theorem number_lt (visited : Visited es (k :: q))
    (starts : ∃ e, elementAt es (k :: q) = some e ∧ e.startsChain = true) :
    number next es (k :: q) < (buildAll none next (es.take (k + 1))).next := by
  induction q generalizing next es k with
  | nil =>
    obtain ⟨e, here, visible⟩ := visited
    obtain ⟨e', here', starts⟩ := starts
    obtain rfl : e = e' := Option.some.inj (here.symm.trans here')
    rw [(buildAll_take_succ here).2]
    cases e with
    | remark => cases visible
    | element tag attributes children =>
      have shown : (tag == slotTag) = false := by
        by_contra slot
        simp [hidden, isSlot, Bool.of_not_eq_false slot, isRemark] at visible
      have starts : hasAttribute attributes "v-if" = true := starts
      apply Nat.lt_of_lt_of_le _ (chainTag_le_build shown fun n => next_le_buildAll none n children)
      rw [next_chainTag, if_pos starts]
      exact Nat.lt_succ_self _
  | cons l q ih =>
    obtain ⟨⟨e, here, entered⟩, visited⟩ := visited
    have within : contentAt es k = e.content := contentAt_of_getElem? here
    have first : nextInside none next es k = (chainTag e.attributes
        (buildAll none next (es.take k)).tag (buildAll none next (es.take k)).next).2 := by
      rw [nextInside, here, Option.map_some, Option.getD_some]
    calc number next es (k :: l :: q)
        < (buildAll none (nextInside none next es k) ((contentAt es k).take (l + 1))).next :=
          ih visited starts
      _ ≤ (buildAll none (nextInside none next es k) (contentAt es k)).next :=
          next_take_le_all _ _ _ _
      _ = (buildAll none next (es.take (k + 1))).next := by
          rw [(buildAll_take_succ here).2, next_build_of_isOpen entered, within, first]

/-- A chain has its number before those in the content of its first element. -/
theorem number_lt_inside (starts : ∃ e, es[k]? = some e ∧ e.startsChain = true) :
    number next es [k] < number next es (k :: l :: q) := by
  obtain ⟨e, here, starts⟩ := starts
  calc number next es [k]
      < nextInside none next es k := by
        rw [nextInside_of_getElem? here, if_pos starts]
        exact Nat.lt_succ_self _
    _ ≤ (buildAll none (nextInside none next es k) ((contentAt es k).take l)).next :=
        next_le_buildAll _ _ _
    _ ≤ number next es (k :: l :: q) := le_number _ _ l q

/-- No two chains have the same number. -/
theorem number_inj {p' : Address} (visited : Visited es p) (visited' : Visited es p')
    (starts : ∃ e, elementAt es p = some e ∧ e.startsChain = true)
    (starts' : ∃ e, elementAt es p' = some e ∧ e.startsChain = true)
    (same : number next es p = number next es p') : p = p' := by
  induction p generalizing next es p' with
  | nil => exact absurd visited id
  | cons k q ih =>
    cases p' with
    | nil => exact absurd visited' id
    | cons k' q' =>
    have apart : ∀ {k k' q q'}, Visited es (k :: q) →
        (∃ e, elementAt es (k :: q) = some e ∧ e.startsChain = true) → k < k' →
          number next es (k :: q) < number next es (k' :: q') := fun visited starts lt =>
      calc number next es (_ :: _)
          < (buildAll none next (es.take (_ + 1))).next := number_lt visited starts
        _ ≤ (buildAll none next (es.take _)).next := next_take_le _ _ _ lt
        _ ≤ number next es (_ :: _) := le_number _ _ _ _
    obtain lt | rfl | lt := Nat.lt_trichotomy k k'
    · exact absurd same (Nat.ne_of_lt (apart visited starts lt))
    · cases q with
      | nil => cases q' with
        | nil => rfl
        | cons l' q' => exact absurd same (Nat.ne_of_lt (number_lt_inside starts))
      | cons l q => cases q' with
        | nil => exact absurd same (Nat.ne_of_gt (number_lt_inside starts'))
        | cons l' q' => exact congrArg (k :: ·) (ih visited.2 visited'.2 starts starts' same)
    · exact absurd same (Nat.ne_of_gt (apart visited' starts' lt))

/-! ## The tag of a node -/

/-- No element on the way to an address belongs to a chain. -/
def Bare (es : List Element) (q : Address) : Prop :=
  ∀ r k q', q = r ++ k :: q' → ∀ s, ¬ InChain (hideSlots (inside es r)) s k

/-- The element at `p` comes, through wrappers only, out of the `k`-th element of the list at `r`,
which belongs to the chain that starts at `s`, and there is no other chain on the way. -/
structure Tagged (es : List Element) (p r : Address) (k : Nat) (q : Address) (s : Nat) : Prop where
  split : p = r ++ k :: q
  wrapped : wraps (inside es r) (k :: q) = true
  chain : InChain (hideSlots (inside es r)) s k
  bare : Bare (inside es (r ++ [k])) q

theorem bare_cons : Bare es (k :: q) ↔
    (∀ s, ¬ InChain (hideSlots es) s k) ∧ Bare (contentAt es k) q := by
  constructor
  · intro bare
    exact ⟨bare [] k q rfl, fun r l q' split => bare (k :: r) l q' (by rw [split]; rfl)⟩
  · rintro ⟨own, inner⟩ r l q' split
    cases r with
    | nil =>
      obtain ⟨rfl, rfl⟩ := List.cons_eq_cons.1 split
      exact own
    | cons m r =>
      obtain ⟨rfl, rest⟩ := List.cons_eq_cons.1 split
      exact inner r l q' rest

theorem bare_nil : Bare es [] := by
  intro r k q' split
  simp at split

/-- An address is tagged by its first element or further inside. -/
theorem tagged_cons {m : Nat} : Tagged es (m :: p) r k q s ↔
    r = [] ∧ k = m ∧ q = p ∧ wraps es (m :: p) = true ∧ InChain (hideSlots es) s m ∧
        Bare (contentAt es m) p ∨
      ∃ r', r = m :: r' ∧ Tagged (contentAt es m) p r' k q s := by
  constructor
  · rintro ⟨split, wrapped, chain, bare⟩
    cases r with
    | nil =>
      obtain ⟨rfl, rfl⟩ := List.cons_eq_cons.1 split
      exact .inl ⟨rfl, rfl, rfl, wrapped, chain, bare⟩
    | cons m' r =>
      obtain ⟨rfl, rest⟩ := List.cons_eq_cons.1 split
      exact .inr ⟨r, rfl, rest, wrapped, chain, bare⟩
  · rintro (⟨rfl, rfl, rfl, wrapped, chain, bare⟩ | ⟨r', rfl, split, wrapped, chain, bare⟩)
    · exact ⟨rfl, wrapped, chain, bare⟩
    · exact ⟨by rw [split]; rfl, wrapped, chain, bare⟩

theorem wraps_cons_cons : wraps es (k :: l :: q) = true ↔
    (∃ e, es[k]? = some e ∧ e.isTransparent = true) ∧ wraps (contentAt es k) (l :: q) = true := by
  rw [wraps, Bool.and_eq_true, Option.any_eq_true]

theorem number_cons (nonempty : r ≠ []) :
    number next es (k :: r) = number (nextInside none next es k) (contentAt es k) r := by
  obtain ⟨l, r, rfl⟩ := List.exists_cons_of_ne_nil nonempty
  rfl

theorem visible_of_isOpen (h : e.isOpen = true) : e.hidden.isRemark = false := by
  cases e with
  | remark => cases h
  | element tag attributes children =>
    simp only [isOpen, Bool.and_eq_true, bne_iff_ne] at h
    simp [hidden, isSlot, h.1, isRemark]

theorem own_tag_none_iff (here : es[k]? = some e) (visible : e.hidden.isRemark = false) :
    (buildAll none next (es.take (k + 1))).tag = none ↔
      ∀ s, ¬ InChain (hideSlots es) s k := by
  rw [Option.eq_none_iff_forall_ne_some]
  constructor
  · intro none s chain
    exact none _ ((own_tag_iff here visible).2 ⟨s, chain, rfl⟩)
  · intro none t tag
    obtain ⟨s, chain, -⟩ := (own_tag_iff here visible).1 tag
    exact none s chain

/-- A node in wrappers has no tag just if there is no chain on the way to it. -/
theorem tagAt_eq_none_iff (visited : Visited es p) (wrapped : wraps es p = true) :
    tagAt none next es p = none ↔ Bare es p := by
  induction p generalizing next es with
  | nil => exact absurd visited id
  | cons k q ih =>
    rw [bare_cons]
    cases q with
    | nil =>
      obtain ⟨e, here, visible⟩ := visited
      rw [tagAt, own_tag_none_iff here visible]
      exact (and_iff_left bare_nil).symm
    | cons l q =>
      obtain ⟨⟨e, here, entered⟩, visited⟩ := visited
      have inner := (wraps_cons_cons.1 wrapped).2
      rw [tagAt, if_pos wrapped, Option.or_eq_none_iff, ih visited inner,
        own_tag_none_iff here (visible_of_isOpen entered), and_comm]

/-- A tag is one from further inside, or that of the element itself if there is none and only
wrappers stand between. -/
theorem tagAt_cons_eq_some_iff {t : Conditional} :
    tagAt none next es (k :: l :: q) = some t ↔
      tagAt none (nextInside none next es k) (contentAt es k) (l :: q) = some t ∨
        tagAt none (nextInside none next es k) (contentAt es k) (l :: q) = none ∧
          wraps es (k :: l :: q) = true ∧ (buildAll none next (es.take (k + 1))).tag = some t := by
  rw [tagAt]
  split
  next wrapped => rw [Option.or_eq_some_iff, and_iff_right wrapped]
  next other => simp [other]

/-- The tag of a node is that of the innermost chain that it stands in with only wrappers around
it. -/
theorem tagAt_eq_some_iff {t : Conditional} (visited : Visited es p) :
    tagAt none next es p = some t ↔ ∃ r k q s, Tagged es p r k q s ∧
      t = ⟨number next es (r ++ [s]), branch (hideSlots (inside es r)) s (k + 1)⟩ := by
  induction p generalizing next es t with
  | nil => exact absurd visited id
  | cons k q ih =>
    simp only [tagged_cons]
    cases q with
    | nil =>
      obtain ⟨e, here, visible⟩ := visited
      rw [tagAt, own_tag_iff here visible]
      constructor
      · rintro ⟨s, chain, rfl⟩
        exact ⟨[], k, [], s, .inl ⟨rfl, rfl, rfl, rfl, chain, bare_nil⟩, rfl⟩
      · rintro ⟨_, _, _, s, ⟨rfl, rfl, rfl, -, chain, -⟩ | ⟨r, rfl, tagged⟩, rfl⟩
        · exact ⟨s, chain, rfl⟩
        · have split := tagged.split
          simp at split
    | cons l q =>
      obtain ⟨⟨e, here, entered⟩, visited⟩ := visited
      have own := fun t => @own_tag_iff es e k next t here (visible_of_isOpen entered)
      rw [tagAt_cons_eq_some_iff, ih visited, own]
      constructor
      · rintro (⟨r, k', q', s, tagged, rfl⟩ | ⟨untagged, wrapped, s, chain, rfl⟩)
        · refine ⟨k :: r, k', q', s, .inr ⟨r, rfl, tagged⟩, ?_⟩
          rw [List.cons_append, number_cons (append_cons_ne_nil r s [])]
          rfl
        · have bare := (tagAt_eq_none_iff visited (wraps_cons_cons.1 wrapped).2).1 untagged
          exact ⟨[], k, l :: q, s, .inl ⟨rfl, rfl, rfl, wrapped, chain, bare⟩, rfl⟩
      · rintro ⟨_, m, _, s, ⟨rfl, rfl, rfl, wrapped, chain, bare⟩ | ⟨r, rfl, tagged⟩, rfl⟩
        · have inner := (wraps_cons_cons.1 wrapped).2
          exact .inr ⟨(tagAt_eq_none_iff visited inner).2 bare, wrapped, s, chain, rfl⟩
        · rw [List.cons_append, number_cons (append_cons_ne_nil r s [])]
          exact .inl ⟨r, m, _, s, tagged, rfl⟩

end NestedStyles.Element
