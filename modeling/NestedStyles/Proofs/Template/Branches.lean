import NestedStyles.Proofs.Match.Siblings
import NestedStyles.Proofs.Template.Chains

/-!
# Nodes in different branches

Two nodes are told to be alternatives just if they come, each with nothing but wrappers and no other
chain on the way, out of different elements of one chain of a list without its slots
(`areAlternatives_iff`).

So a chain further inside hides the one around it (`areAlternatives_iff_of_siblings`), and a slot
neither ends a chain nor starts one (`inOneChain_iff_of_areAlternatives`).
-/

namespace NestedStyles

namespace Element

variable {es : List Element} {e : Element} {i j : NodeId} {k l s : Nat} {p p' q q' r : Address}

/-! ## Nodes are visited -/

theorem visited_head (e : Element) (es : List Element) (q : Address) :
    Visited (e :: es) (0 :: q) ↔ Visited [e] (0 :: q) := by
  cases q <;> rfl

theorem visited_later (e : Element) (es : List Element) (p : Address) :
    Visited (e :: es) (later p) ↔ Visited es p := by
  match p with
  | [] | [_] | _ :: _ :: _ => rfl

mutual

theorem visited_of_mem_originsOf (e : Element) : ∀ q ∈ originsOf e, Visited [e] (0 :: q) := by
  cases e with
  | remark =>
    intro q mem
    cases mem
  | element tag attributes children =>
    have inner := visited_of_mem_origins children
    intro q mem
    cases visible : tag == slotTag with
    | true =>
      rw [originsOf_slot visible] at mem
      cases mem
    | false =>
    have self : Visited [element tag attributes children] [0] :=
      ⟨_, rfl, by simp [hidden, isSlot, visible, isRemark]⟩
    have deeper : isOpen (element tag attributes children) = true → q ∈ origins children →
        Visited [element tag attributes children] (0 :: q) := by
      intro entered mem
      exact (visited_cons (origins_ne_nil mem)).2 ⟨⟨_, rfl, entered⟩, inner q mem⟩
    have shown : tag ≠ slotTag := by simpa using visible
    by_cases wrapper : tag ∈ transparentTags
    · rw [originsOf_wrapper visible wrapper] at mem
      exact deeper (by simp [isOpen, shown, wrapper]) mem
    cases closed : hasAttribute attributes "v-html" with
    | true =>
      rw [originsOf_closed visible wrapper closed, List.mem_singleton] at mem
      exact mem ▸ self
    | false =>
      rw [originsOf_kept visible wrapper closed] at mem
      obtain rfl | mem := List.mem_cons.1 mem
      · exact self
      · exact deeper (by simp [isOpen, shown, closed]) mem

theorem visited_of_mem_origins (es : List Element) : ∀ p ∈ origins es, Visited es p := by
  cases es with
  | nil =>
    intro p mem
    cases mem
  | cons e es =>
    intro p mem
    rw [origins, List.mem_append, List.mem_map, List.mem_map] at mem
    obtain ⟨q, mem, rfl⟩ | ⟨p, mem, rfl⟩ := mem
    · exact (visited_head e es q).2 (visited_of_mem_originsOf e q mem)
    · exact (visited_later e es p).2 (visited_of_mem_origins es p mem)

end

theorem visited_of_origin (h : (origins es)[i]? = some p) : Visited es p :=
  visited_of_mem_origins es p (List.mem_of_getElem? h)

/-- If the builder comes to a list it comes to each element there that is not left out. -/
theorem Visited.along (h : Visited es (r ++ k :: q)) (here : (inside es r)[l]? = some e)
    (visible : e.hidden.isRemark = false) : Visited es (r ++ [l]) := by
  induction r generalizing es with
  | nil => exact ⟨e, here, visible⟩
  | cons m r ih =>
    rw [List.cons_append, visited_cons (append_cons_ne_nil r k q)] at h
    rw [List.cons_append, visited_cons (append_cons_ne_nil r l [])]
    exact ⟨h.1, ih h.2 here⟩

theorem hidden_of_starts (h : e.hidden.startsChain = true) :
    e.hidden = e ∧ e.hidden.isRemark = false := by
  cases e with
  | remark => cases h
  | element tag attributes children =>
    rw [hidden] at h ⊢
    split at h
    next => cases h
    next shown => simp [shown, isRemark]

/-- The first element of the chain that a node is tagged with. -/
theorem Tagged.starts (visited : Visited es p) (h : Tagged es p r k q s) :
    Visited es (r ++ [s]) ∧ ∃ e, elementAt es (r ++ [s]) = some e ∧ e.startsChain = true := by
  obtain ⟨e', here', starts⟩ := h.chain.starts
  rw [hideSlots_getElem?] at here'
  obtain ⟨e, here, rfl⟩ := Option.map_eq_some_iff.1 here'
  obtain ⟨same, visible⟩ := hidden_of_starts starts
  rw [h.split] at visited
  refine ⟨visited.along here visible, e, ?_, same ▸ starts⟩
  rw [elementAt_append, here]

/-! ## Alternatives -/

theorem excludes_iff {a b : Option Conditional} : Conditional.excludes a b = true ↔
    ∃ t t', a = some t ∧ b = some t' ∧ t.chain = t'.chain ∧ t.branch ≠ t'.branch := by
  cases a with
  | none => simp [Conditional.excludes]
  | some t => cases b with
    | none => simp [Conditional.excludes]
    | some t' => simp [Conditional.excludes]

/-- Two nodes are told to be alternatives just if they are tagged by different elements of one
chain. -/
theorem areAlternatives_iff (hi : (origins es)[i]? = some p) (hj : (origins es)[j]? = some p') :
    (Template.ofElements es).forest.areAlternatives i j = true ↔
      ∃ r k l q q' s, k ≠ l ∧ Tagged es p r k q s ∧ Tagged es p' r l q' s := by
  have visited := visited_of_origin hi
  have visited' := visited_of_origin hj
  rw [Forest.areAlternatives, label_origin hi, label_origin hj, conditional_labelAt,
    conditional_labelAt, excludes_iff]
  constructor
  · rintro ⟨t, t', tag, tag', chain, branch⟩
    obtain ⟨r, k, q, s, tagged, rfl⟩ := (tagAt_eq_some_iff visited).1 tag
    obtain ⟨r', l, q', s', tagged', rfl⟩ := (tagAt_eq_some_iff visited').1 tag'
    obtain ⟨first, starts⟩ := tagged.starts visited
    obtain ⟨first', starts'⟩ := tagged'.starts visited'
    have same := number_inj first first' starts starts' (Int.ofNat.inj chain)
    obtain ⟨rfl, last⟩ := List.append_inj' same rfl
    obtain rfl : s = s' := List.singleton_inj.1 last
    refine ⟨r, k, l, q, q', s, ?_, tagged, tagged'⟩
    rintro rfl
    exact branch rfl
  · rintro ⟨r, k, l, q, q', s, other, tagged, tagged'⟩
    refine ⟨_, _, (tagAt_eq_some_iff visited).2 ⟨r, k, q, s, tagged, rfl⟩,
      (tagAt_eq_some_iff visited').2 ⟨r, l, q', s, tagged', rfl⟩, rfl, fun same => other ?_⟩
    exact tagged.chain.branch_inj tagged'.chain (Int.ofNat.inj same)

/-! ## Siblings -/

theorem length_origins_append (es us : List Element) :
    (origins (es ++ us)).length = (origins es).length + (origins us).length := by
  induction es with
  | nil => simp [origins]
  | cons e es ih => simp [origins, ih, Nat.add_assoc]

theorem length_origins_take_succ (here : es[k]? = some e) :
    (origins (es.take (k + 1))).length = (origins (es.take k)).length + (originsOf e).length := by
  rw [take_succ_of_getElem? here, length_origins_append]
  simp [origins]

theorem length_origins_take_le (es : List Element) (le : k ≤ l) :
    (origins (es.take k)).length ≤ (origins (es.take l)).length := by
  obtain ⟨n, rfl⟩ := Nat.exists_eq_add_of_le le
  rw [List.take_add, length_origins_append]
  exact Nat.le_add_right _ _

theorem length_origins_take_le_all (es : List Element) (k : Nat) :
    (origins (es.take k)).length ≤ (origins es).length := by
  conv_rhs => rw [← List.take_append_drop k es, length_origins_append]
  exact Nat.le_add_right _ _

theorem length_originsOf_of_isOpen (h : e.isOpen = true) :
    (originsOf e).length = (origins e.content).length + if e.isTransparent then 0 else 1 := by
  rw [originsOf_of_isOpen h]
  split
  · rfl
  · exact List.length_cons

/-- The parent of a node is the one around the list, or it is a node of the same element of the
list. In the first case there are only wrappers on the way. -/
theorem parentAt_cases (parent : Option Nat) (id : Nat) (visited : Visited es (k :: q)) :
    parentAt parent id es (k :: q) = parent ∧ wraps es (k :: q) = true ∨
      ∃ m : Nat, parentAt parent id es (k :: q) = some m ∧ id + (origins (es.take k)).length ≤ m ∧
        m < id + (origins (es.take (k + 1))).length := by
  induction q generalizing parent id es k with
  | nil => exact .inl ⟨rfl, rfl⟩
  | cons l q ih =>
    obtain ⟨⟨e, here, entered⟩, visited⟩ := visited
    have within : contentAt es k = e.content := contentAt_of_getElem? here
    have size := length_originsOf_of_isOpen entered
    have most := length_origins_take_le_all (contentAt es k) (l + 1)
    have inner := fun parent id => @ih (contentAt es k) l parent id visited
    rw [length_origins_take_succ here, size, ← within, parentAt, here, Option.any_some]
    cases wrapper : e.isTransparent with
    | true =>
      obtain ⟨same, wrapped⟩ | ⟨m, found, least, lt⟩ :=
        inner parent (id + (origins (es.take k)).length)
      · exact .inl ⟨same, wraps_cons_cons.2 ⟨⟨e, here, wrapper⟩, wrapped⟩⟩
      · exact .inr ⟨m, found, by omega, by rw [if_pos rfl]; omega⟩
    | false =>
      obtain ⟨same, -⟩ | ⟨m, found, least, lt⟩ := inner
        (some (id + (origins (es.take k)).length)) (id + (origins (es.take k)).length + 1)
      · exact .inr ⟨_, same, Nat.le_refl _, by rw [if_neg Bool.false_ne_true]; omega⟩
      · exact .inr ⟨m, found, by omega, by rw [if_neg Bool.false_ne_true]; omega⟩

/-- Between nodes with the same parent and the list in which they part there are only wrappers. -/
theorem wraps_of_parentAt {parent : Option Nat} {id : Nat} (other : k ≠ l)
    (visited : Visited es (r ++ k :: q)) (visited' : Visited es (r ++ l :: q'))
    (above : ∀ m ∈ parent, m < id)
    (siblings : parentAt parent id es (r ++ k :: q) = parentAt parent id es (r ++ l :: q')) :
    wraps (inside es r) (k :: q) = true := by
  induction r generalizing es parent id with
  | nil =>
    obtain ⟨-, wrapped⟩ | ⟨m, found, least, lt⟩ := parentAt_cases parent id visited
    · exact wrapped
    exfalso
    rw [List.nil_append, List.nil_append, found] at siblings
    obtain ⟨same, -⟩ | ⟨m', found', least', lt'⟩ :=
      parentAt_cases parent id visited'
    · have before := above m (siblings.trans same).symm
      omega
    · obtain rfl : m = m' := Option.some.inj (siblings.trans found')
      obtain earlier | earlier := Nat.lt_or_gt_of_ne other
      · have apart : (origins (es.take (k + 1))).length ≤ (origins (es.take l)).length :=
          length_origins_take_le es earlier
        omega
      · have apart : (origins (es.take (l + 1))).length ≤ (origins (es.take k)).length :=
          length_origins_take_le es earlier
        omega
  | cons m r ih =>
    have first := append_cons_ne_nil r k q
    have second := append_cons_ne_nil r l q'
    rw [List.cons_append, visited_cons first] at visited
    rw [List.cons_append, visited_cons second] at visited'
    rw [List.cons_append, List.cons_append, parentAt_cons first, parentAt_cons second] at siblings
    dsimp only at siblings
    split at siblings
    · exact ih visited.2 visited'.2 (fun m mem => Nat.lt_add_right _ (above m mem)) siblings
    · refine ih visited.2 visited'.2 ?_ siblings
      rintro m ⟨⟩
      exact Nat.lt_succ_self _

theorem visible_of_visited (h : Visited es (r ++ k :: q)) :
    ∃ e, (inside es r)[k]? = some e ∧ e.hidden.isRemark = false := by
  induction r generalizing es with
  | nil =>
    cases q with
    | nil => exact h
    | cons l q =>
      obtain ⟨⟨e, here, entered⟩, -⟩ := h
      exact ⟨e, here, visible_of_isOpen entered⟩
  | cons m r ih =>
    rw [List.cons_append, visited_cons (append_cons_ne_nil r k q)] at h
    exact ih h.2

/-- Two addresses part in one place. -/
theorem parting_unique {r' t t' : Address} {k' l' : Nat} (other : k ≠ l) (other' : k' ≠ l')
    (first : r ++ k :: q = r' ++ k' :: t) (second : r ++ l :: q' = r' ++ l' :: t') :
    r = r' ∧ k = k' ∧ l = l' ∧ q = t ∧ q' = t' := by
  induction r generalizing r' with
  | nil => cases r' with
    | nil =>
      obtain ⟨rfl, rfl⟩ := List.cons_eq_cons.1 first
      obtain ⟨rfl, rfl⟩ := List.cons_eq_cons.1 second
      exact ⟨rfl, rfl, rfl, rfl, rfl⟩
    | cons m r' =>
      have same : k = m := (List.cons_eq_cons.1 first).1
      have same' : l = m := (List.cons_eq_cons.1 second).1
      exact absurd (same.trans same'.symm) other
  | cons m r ih => cases r' with
    | nil =>
      have same : m = k' := (List.cons_eq_cons.1 first).1
      have same' : m = l' := (List.cons_eq_cons.1 second).1
      exact absurd (same.symm.trans same') other'
    | cons m' r' =>
      obtain ⟨rfl, rest⟩ := List.cons_eq_cons.1 first
      obtain ⟨rfl, same⟩ := ih rest (List.cons_eq_cons.1 second).2
      exact ⟨rfl, same⟩

/-! ## Chains and slots -/

theorem keepsChain_hidden (h : e.keepsChain = true) : e.hidden.keepsChain = true := by
  rw [hidden]
  split
  · rfl
  · exact h

theorem hidden_of_not_slot (h : e.isSlot = false) : e.hidden = e := by
  rw [hidden, h]
  rfl

theorem not_slot_of_visible (h : e.hidden.isRemark = false) : e.isSlot = false := by
  by_contra slot
  rw [hidden, if_pos (Bool.of_not_eq_false slot)] at h
  cases h

/-- The first element of a chain among the elements that are left is that of the list itself. -/
theorem OpenChain.shown (h : OpenChain (hideSlots es) s k) :
    ∃ e, es[s]? = some e ∧ e.isSlot = false ∧ e.startsChain = true := by
  obtain ⟨e', here', starts⟩ := h.starts
  rw [hideSlots_getElem?] at here'
  obtain ⟨e, here, rfl⟩ := Option.map_eq_some_iff.1 here'
  obtain ⟨same, visible⟩ := hidden_of_starts starts
  exact ⟨e, here, not_slot_of_visible visible, same ▸ starts⟩

/-- Where a chain of the list has two elements and the builder sees the one in a chain it sees the
other one there. -/
theorem InChain.along {s' : Nat} (hk : InChain es s k) (hl : InChain es s l)
    (seen : InChain (hideSlots es) s' k)
    (visible : ∃ e, es[l]? = some e ∧ e.hidden.isRemark = false) :
    InChain (hideSlots es) s' l := by
  obtain ⟨e, here, visible⟩ := visible
  have first : s' ≤ s := by
    by_contra later
    obtain ⟨e', here', -, starts⟩ := seen.shown
    have keeps := hk.keeps s' e' (by omega) seen.lt here'
    rw [keepsChain_ne_starts starts] at keeps
    cases keeps
  have within := hl.lt
  refine ⟨⟨by omega, seen.starts, fun n e' before behind here' => ?_⟩, e.hidden, ?_, visible⟩
  · obtain inside | beyond := Nat.lt_or_ge n (k + 1)
    · exact seen.keeps n e' before inside here'
    · rw [hideSlots_getElem?] at here'
      obtain ⟨e', at', rfl⟩ := Option.map_eq_some_iff.1 here'
      have start := hk.lt
      exact keepsChain_hidden (hl.keeps n e' (by omega) behind at')
  · rw [hideSlots_getElem?, here, Option.map_some]

/-- The markup at two addresses is, or stands in, different elements of one chain. -/
def InOneChain (es : List Element) (p p' : Address) : Prop :=
  ∃ r k l q q' s, k ≠ l ∧ p = r ++ k :: q ∧ p' = r ++ l :: q' ∧
    InChain (inside es r) s k ∧ InChain (inside es r) s l

/-- Of the chain that is seen to start at `s`, or to start again at a slot with `v-if` in front of
both elements, no slot ends the rest. -/
def Unsevered (es : List Element) (s k l : Nat) : Prop :=
  ∃ s', (s' = s ∨ s < s' ∧ s' < min k l ∧
      ∃ e, es[s']? = some e ∧ e.isSlot = true ∧ e.startsChain = true) ∧
    ∀ n e, s' < n → n < max k l → es[n]? = some e → e.isSlot = true → e.keepsChain = true

/-- A chain that is seen is one of the list if no slot ends it. -/
theorem InChain.of_slots {s' : Nat} (h : InChain (hideSlots es) s k) (le : s ≤ s') (le' : s' ≤ k)
    (starts : ∃ e, es[s']? = some e ∧ e.startsChain = true)
    (slots : ∀ n e, s' < n → n < k → es[n]? = some e → e.isSlot = true → e.keepsChain = true) :
    InChain es s' k := by
  obtain ⟨e', here', visible⟩ := h.member
  rw [hideSlots_getElem?] at here'
  obtain ⟨e, here, rfl⟩ := Option.map_eq_some_iff.1 here'
  have own := not_slot_of_visible visible
  refine ⟨⟨Nat.lt_succ_of_le le', starts, fun n e' before behind at' => ?_⟩, e, here, ?_⟩
  · cases slot : e'.isSlot with
    | true =>
      obtain rfl | lt := Nat.eq_or_lt_of_le (Nat.le_of_lt_succ behind)
      · obtain rfl : e = e' := Option.some.inj (here.symm.trans at')
        rw [own] at slot
        cases slot
      · exact slots n e' before lt at' slot
    | false =>
      have keeps := h.keeps n e'.hidden (by omega) behind (by
        rw [hideSlots_getElem?, at', Option.map_some])
      rwa [hidden_of_not_slot slot] at keeps
  · rwa [hidden_of_not_slot own] at visible

/-- Where a chain of the list starts that has an element of a chain that is seen. -/
theorem InChain.start_cases {s' : Nat} (seen : InChain (hideSlots es) s k) (h : InChain es s' k) :
    s' = s ∨ s < s' ∧ s' < k ∧
      ∃ e, es[s']? = some e ∧ e.isSlot = true ∧ e.startsChain = true := by
  obtain ⟨e, here, -, starts⟩ := seen.shown
  obtain ⟨e', here', starts'⟩ := h.starts
  have within := seen.lt
  have within' := h.lt
  obtain earlier | rfl | later := Nat.lt_trichotomy s' s
  · have keeps := h.keeps s e earlier within here
    rw [keepsChain_ne_starts starts] at keeps
    cases keeps
  · exact .inl rfl
  · right
    have shown : (hideSlots es)[s']? = some e'.hidden := by
      rw [hideSlots_getElem?, here', Option.map_some]
    have keeps := seen.keeps s' e'.hidden later within' shown
    have slot : e'.isSlot = true := by
      by_contra visible
      rw [hidden_of_not_slot (eq_false_of_ne_true visible), keepsChain_ne_starts starts'] at keeps
      cases keeps
    refine ⟨later, ?_, e', here', slot, starts'⟩
    obtain rfl | lt := Nat.eq_or_lt_of_le (Nat.le_of_lt_succ within')
    · obtain ⟨m, member, visible⟩ := seen.member
      obtain rfl : e'.hidden = m := Option.some.inj (shown.symm.trans member)
      rw [not_slot_of_visible visible] at slot
      cases slot
    · exact lt

/-- The elements of a chain that is seen are in one chain of the list just if no slot severs it. -/
theorem exists_inChain_iff (hk : InChain (hideSlots es) s k)
    (hl : InChain (hideSlots es) s l) :
    (∃ s', InChain es s' k ∧ InChain es s' l) ↔ Unsevered es s k l := by
  have first := hk.lt
  have first' := hl.lt
  constructor
  · rintro ⟨s', hk', hl'⟩
    refine ⟨s', ?_, fun n e before behind here _ => ?_⟩
    · obtain rfl | ⟨later, lt, slot⟩ := hk.start_cases hk'
      · exact .inl rfl
      · obtain rfl | ⟨-, lt', -⟩ := hl.start_cases hl'
        · exact .inl rfl
        · exact .inr ⟨later, by omega, slot⟩
    · obtain lt | lt : n < k ∨ n < l := by omega
      · exact hk'.keeps n e before (Nat.lt_succ_of_lt lt) here
      · exact hl'.keeps n e before (Nat.lt_succ_of_lt lt) here
  · rintro ⟨s', start, slots⟩
    have bounds : s ≤ s' ∧ s' ≤ k ∧ s' ≤ l := by
      obtain rfl | ⟨later, lt, -⟩ := start
      · omega
      · omega
    have starts : ∃ e, es[s']? = some e ∧ e.startsChain = true := by
      obtain rfl | ⟨-, -, e, here, -, starts⟩ := start
      · obtain ⟨e, here, -, starts⟩ := hk.shown
        exact ⟨e, here, starts⟩
      · exact ⟨e, here, starts⟩
    exact ⟨s', hk.of_slots bounds.1 bounds.2.1 starts fun n e before behind =>
        slots n e before (by omega),
      hl.of_slots bounds.1 bounds.2.2 starts fun n e before behind =>
        slots n e before (by omega)⟩

/-! ## Alternatives and chains of the markup -/

/-- The runtime siblings of a node, seen from another node with the same parent. -/
theorem notMem_runtimeSiblings_iff {t : Template} {i j : NodeId} (wf : t.WellFormed) (other : i ≠ j)
    (siblings : t.forest.parent i = t.forest.parent j) :
    j ∉ t.forest.runtimeSiblings i ↔
      t.forest.parent i = none ∨ t.forest.areAlternatives i j = true := by
  rw [Forest.runtimeSiblings]
  cases above : t.forest.parent i with
  | none => simp [other.symm]
  | some m =>
    have child : j ∈ t.forest.children m := wf.child_of_parent (siblings.symm.trans above)
    simp [List.mem_filter, child]

/-- Two nodes told to be alternatives come out of different elements of a chain of a list without
its slots. They come out of one chain of the markup just if no slot severs it. -/
theorem inOneChain_iff_of_areAlternatives (es : List Element) {i j : NodeId} {p p' : Address}
    (hi : (origins es)[i]? = some p) (hj : (origins es)[j]? = some p')
    (alternatives : (Template.ofElements es).forest.areAlternatives i j = true) :
    ∃ r k l q q' s, k ≠ l ∧ p = r ++ k :: q ∧ p' = r ++ l :: q' ∧
      InChain (hideSlots (inside es r)) s k ∧ InChain (hideSlots (inside es r)) s l ∧
      (InOneChain es p p' ↔ Unsevered (inside es r) s k l) := by
  obtain ⟨r, k, l, q, q', s, other, tagged, tagged'⟩ := (areAlternatives_iff hi hj).1 alternatives
  refine ⟨r, k, l, q, q', s, other, tagged.split, tagged'.split, tagged.chain, tagged'.chain, ?_⟩
  rw [← exists_inChain_iff tagged.chain tagged'.chain]
  constructor
  · rintro ⟨r', k', l', t, t', s', other', split, split', hk, hl⟩
    obtain ⟨rfl, rfl, rfl, -⟩ := parting_unique other other'
      (tagged.split.symm.trans split) (tagged'.split.symm.trans split')
    exact ⟨s', hk, hl⟩
  · rintro ⟨s', hk, hl⟩
    exact ⟨r, k, l, q, q', s', other, tagged.split, tagged'.split, hk, hl⟩

/-- A heading and a paragraph in different branches, with a slot between them. -/
def severed : List Element :=
  [.element "div" [] [.element "h2" [("v-if", "x")] [], .element "slot" [] [],
    .element "p" [("v-else", "")] []]]

theorem inOneChain_iff_of_areAlternatives_severed :
    (origins severed)[1]? = some [0, 0] ∧ (origins severed)[2]? = some [0, 2] ∧
      (Template.ofElements severed).forest.areAlternatives 1 2 = true ∧
      ¬ InOneChain severed [0, 0] [0, 2] := by
  have first : (origins severed)[1]? = some [0, 0] := by decide +kernel
  have second : (origins severed)[2]? = some [0, 2] := by decide +kernel
  have alternatives : (Template.ofElements severed).forest.areAlternatives 1 2 = true := by
    decide +kernel
  refine ⟨first, second, alternatives, ?_⟩
  obtain ⟨r, k, l, q, q', s, other, split, split', hk, hl, chain⟩ :=
    inOneChain_iff_of_areAlternatives severed first second alternatives
  have parted : [0] = r ∧ 0 = k ∧ 2 = l ∧ [] = q ∧ [] = q' :=
    parting_unique (by decide) other split split'
  obtain ⟨rfl, rfl, rfl, rfl, rfl⟩ := parted
  obtain rfl : s = 0 := Nat.lt_one_iff.1 hk.lt
  rw [chain]
  rintro ⟨s', start, slots⟩
  obtain rfl : s' = 0 := by omega
  exact absurd (slots 1 _ (by decide) (by decide) rfl rfl) (by decide)

/-- Siblings that come out of different elements of a chain are told to be alternatives just if
those elements are seen in a chain and no chain further inside hides it, and each is missing from
the runtime siblings of the other just if they are, or if both are roots. -/
theorem areAlternatives_iff_of_siblings (es : List Element) {i j : NodeId} {r q q' : Address}
    {k l s : Nat} (hi : (origins es)[i]? = some (r ++ k :: q))
    (hj : (origins es)[j]? = some (r ++ l :: q'))
    (siblings : (Template.ofElements es).forest.parent i =
      (Template.ofElements es).forest.parent j)
    (other : k ≠ l) (hk : InChain (inside es r) s k) (hl : InChain (inside es r) s l) :
    ((Template.ofElements es).forest.areAlternatives i j = true ↔
      (∃ s', InChain (hideSlots (inside es r)) s' k) ∧
        Bare (inside es (r ++ [k])) q ∧ Bare (inside es (r ++ [l])) q') ∧
    (j ∉ (Template.ofElements es).forest.runtimeSiblings i ↔
      (Template.ofElements es).forest.parent i = none ∨
        (Template.ofElements es).forest.areAlternatives i j = true) ∧
    (i ∉ (Template.ofElements es).forest.runtimeSiblings j ↔
      (Template.ofElements es).forest.parent i = none ∨
        (Template.ofElements es).forest.areAlternatives i j = true) := by
  have visited := visited_of_origin hi
  have visited' := visited_of_origin hj
  have apart : i ≠ j := by
    rintro rfl
    exact other (List.cons_eq_cons.1 (List.append_cancel_left
      (Option.some.inj (hi.symm.trans hj)))).1
  have wf : (Template.ofElements es).WellFormed := Template.wellFormed_ofTrees (toTrees es)
  refine ⟨?_, notMem_runtimeSiblings_iff wf apart siblings, ?_⟩
  · rw [areAlternatives_iff hi hj]
    constructor
    · rintro ⟨r', k', l', t, t', s', other', tagged, tagged'⟩
      obtain ⟨rfl, rfl, rfl, rfl, rfl⟩ := parting_unique other other' tagged.split tagged'.split
      exact ⟨⟨s', tagged.chain⟩, tagged.bare, tagged'.bare⟩
    · rintro ⟨⟨s', chain⟩, bare, bare'⟩
      have same : parentAt none 0 es (r ++ k :: q) = parentAt none 0 es (r ++ l :: q') := by
        rw [← parent_origin hi, ← parent_origin hj, siblings]
      have above : ∀ m ∈ (none : Option Nat), m < 0 := fun m mem => by cases mem
      exact ⟨r, k, l, q, q', s', other,
        ⟨rfl, wraps_of_parentAt other visited visited' above same, chain, bare⟩,
        ⟨rfl, wraps_of_parentAt other.symm visited' visited above same.symm,
          hk.along hl chain (visible_of_visited visited'), bare'⟩⟩
  · rw [notMem_runtimeSiblings_iff wf apart.symm siblings.symm, ← siblings,
      Forest.areAlternatives_comm _ j i]

/-- An element in a branch of its own inside of a wrapper, and a paragraph in the branch behind the
wrapper. -/
def nestedBranch : List Element :=
  [.element "div" [] [.element "template" [("v-if", "x")] [.element "a" [("v-if", "y")] []],
    .element "p" [("v-else", "")] []]]

theorem areAlternatives_iff_of_siblings_nestedBranch :
    (origins nestedBranch)[1]? = some ([0] ++ 0 :: [0]) ∧
      (origins nestedBranch)[2]? = some ([0] ++ 1 :: []) ∧
      (Template.ofElements nestedBranch).forest.parent 1 =
        (Template.ofElements nestedBranch).forest.parent 2 ∧
      InChain (inside nestedBranch [0]) 0 0 ∧ InChain (inside nestedBranch [0]) 0 1 ∧
      (Template.ofElements nestedBranch).forest.areAlternatives 1 2 = false ∧
      2 ∈ (Template.ofElements nestedBranch).forest.runtimeSiblings 1 := by
  have first : (origins nestedBranch)[1]? = some ([0] ++ 0 :: [0]) := by decide +kernel
  have second : (origins nestedBranch)[2]? = some ([0] ++ 1 :: []) := by decide +kernel
  have siblings : (Template.ofElements nestedBranch).forest.parent 1 =
      (Template.ofElements nestedBranch).forest.parent 2 := by
    decide +kernel
  have outer : InChain (inside nestedBranch [0]) 0 0 := inChain_self rfl (by decide)
  have outer' : InChain (inside nestedBranch [0]) 0 1 := outer.further rfl (by decide) rfl
  have inner : InChain (hideSlots (inside nestedBranch [0, 0])) 0 0 :=
    inChain_self rfl (by decide)
  obtain ⟨told, missing, -⟩ :=
    areAlternatives_iff_of_siblings nestedBranch first second siblings (by decide) outer outer'
  have apart : (Template.ofElements nestedBranch).forest.areAlternatives 1 2 = false := by
    by_contra alternatives
    exact (told.1 (Bool.of_not_eq_false alternatives)).2.1 [] 0 [] rfl 0 inner
  refine ⟨first, second, siblings, outer, outer', apart, ?_⟩
  by_contra absent
  obtain root | alternatives := missing.1 absent
  · exact absurd root (by decide +kernel)
  · rw [apart] at alternatives
    cases alternatives

end Element

end NestedStyles
