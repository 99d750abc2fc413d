/-!
# Tables in order of arrival

A table is a list of keys with values in which each key stands once. A key that is given a new value
keeps its place. `List.lookup` reads a table, and the lemmas say what it finds after each change.
-/

namespace NestedStyles.Table

variable {α β : Type} [BEq α]

/-- Gives a key a value. A new key comes last. -/
def put (k : α) (v : β) : List (α × β) → List (α × β)
  | [] => [(k, v)]
  | (j, w) :: rest => if k == j then (j, v) :: rest else (j, w) :: put k v rest

/-- Takes a key out. -/
def erase (k : α) (t : List (α × β)) : List (α × β) :=
  t.filter fun e => !(k == e.1)

/-- Changes the value of a key. -/
def modify (k : α) (f : β → β) (t : List (α × β)) : List (α × β) :=
  t.map fun e => if k == e.1 then (e.1, f e.2) else e

/-- The table of a list of entries, of which a later one wins over an earlier one. -/
def ofList (es : List (α × β)) : List (α × β) :=
  es.foldl (fun t e => put e.1 e.2 t) []

theorem lookup_put_self [LawfulBEq α] (k : α) (v : β) (t : List (α × β)) :
    (put k v t).lookup k = some v := by
  induction t with
  | nil => simp [put]
  | cons e rest ih =>
    obtain ⟨j, w⟩ := e
    by_cases h : k = j
    · simp [put, h]
    · simp [put, List.lookup_cons, beq_false_of_ne h, ih]

theorem lookup_put_of_ne [LawfulBEq α] {k i : α} (h : i ≠ k) (v : β) (t : List (α × β)) :
    (put k v t).lookup i = t.lookup i := by
  induction t with
  | nil => simp [put, List.lookup_cons, beq_false_of_ne h]
  | cons e rest ih =>
    obtain ⟨j, w⟩ := e
    by_cases hk : k = j
    · subst hk
      simp [put, List.lookup_cons, beq_false_of_ne h]
    · by_cases hi : i = j
      · simp [put, hk, hi]
      · simp [put, hk, List.lookup_cons, beq_false_of_ne hi, ih]

theorem lookup_erase_self [LawfulBEq α] (k : α) (t : List (α × β)) :
    (erase k t).lookup k = none := by
  simp [erase, List.lookup_eq_none_iff]

theorem lookup_erase_of_ne [LawfulBEq α] {k i : α} (h : i ≠ k) (t : List (α × β)) :
    (erase k t).lookup i = t.lookup i := by
  induction t with
  | nil => rfl
  | cons e rest ih =>
    obtain ⟨j, w⟩ := e
    by_cases hk : k = j
    · subst hk
      simpa [erase, List.lookup_cons, beq_false_of_ne h] using ih
    · by_cases hi : i = j
      · simp [erase, hk, hi]
      · simpa [erase, hk, List.lookup_cons, beq_false_of_ne hi] using ih

theorem lookup_modify_self [LawfulBEq α] (k : α) (f : β → β) (t : List (α × β)) :
    (modify k f t).lookup k = (t.lookup k).map f := by
  induction t with
  | nil => rfl
  | cons e rest ih =>
    obtain ⟨j, w⟩ := e
    by_cases h : k = j
    · simp [modify, h]
    · simpa [modify, h, List.lookup_cons, beq_false_of_ne h] using ih

theorem lookup_modify_of_ne [LawfulBEq α] {k i : α} (h : i ≠ k) (f : β → β) (t : List (α × β)) :
    (modify k f t).lookup i = t.lookup i := by
  induction t with
  | nil => rfl
  | cons e rest ih =>
    obtain ⟨j, w⟩ := e
    by_cases hk : k = j
    · subst hk
      simpa [modify, List.lookup_cons, beq_false_of_ne h] using ih
    · by_cases hi : i = j
      · simp [modify, hk, hi]
      · simpa [modify, hk, List.lookup_cons, beq_false_of_ne hi] using ih

/-- A change that the value of the key does not notice changes nothing. -/
theorem modify_eq_self [LawfulBEq α] {k : α} {f : β → β} {t : List (α × β)}
    (keys : (t.map Prod.fst).Nodup) (fixed : ∀ v, t.lookup k = some v → f v = v) :
    modify k f t = t := by
  induction t with
  | nil => rfl
  | cons e rest ih =>
    obtain ⟨j, w⟩ := e
    obtain ⟨fresh, distinct⟩ := List.nodup_cons.1 keys
    by_cases h : k = j
    · subst h
      have others : modify k f rest = rest := by
        refine ih distinct fun v hv => ?_
        obtain ⟨before, after, rfl, -⟩ := List.lookup_eq_some_iff.1 hv
        simp at fresh
      have here : f w = w := fixed w (by simp)
      rw [modify] at others ⊢
      simp [here, others]
    · have others : modify k f rest = rest :=
        ih distinct fun v hv => fixed v (by simpa [List.lookup_cons, beq_false_of_ne h] using hv)
      rw [modify] at others ⊢
      simp [h, others]

theorem mem_of_lookup [LawfulBEq α] {k : α} {v : β} {t : List (α × β)}
    (h : t.lookup k = some v) : (k, v) ∈ t := by
  obtain ⟨before, after, rfl, -⟩ := List.lookup_eq_some_iff.1 h
  exact List.mem_append_right before List.mem_cons_self

/-- A table holds the entry that was put in and those that were there. -/
theorem mem_of_mem_put [LawfulBEq α] {k : α} {v : β} {t : List (α × β)} {e : α × β}
    (h : e ∈ put k v t) : e = (k, v) ∨ e ∈ t := by
  induction t with
  | nil => exact .inl (List.mem_singleton.1 h)
  | cons first rest ih =>
    obtain ⟨j, w⟩ := first
    by_cases hk : k = j
    · rw [put, if_pos (beq_iff_eq.2 hk)] at h
      rcases List.mem_cons.1 h with rfl | h
      · exact .inl (by rw [hk])
      · exact .inr (List.mem_cons_of_mem _ h)
    · rw [put, if_neg (by simpa using hk)] at h
      rcases List.mem_cons.1 h with rfl | h
      · exact .inr List.mem_cons_self
      · exact (ih h).imp_right (List.mem_cons_of_mem _)

/-- What is found after entries were put in is one of them or was found before. -/
theorem lookup_foldl_put [LawfulBEq α] {k : α} {v : β} (es t : List (α × β))
    (h : (es.foldl (fun t e => put e.1 e.2 t) t).lookup k = some v) :
    (k, v) ∈ es ∨ t.lookup k = some v := by
  induction es generalizing t with
  | nil => exact .inr h
  | cons e es ih =>
    rcases ih (put e.1 e.2 t) h with h | h
    · exact .inl (List.mem_cons_of_mem e h)
    · by_cases same : k = e.1
      · rw [same, lookup_put_self] at h
        rw [same, ← Option.some.inj h]
        exact .inl List.mem_cons_self
      · rw [lookup_put_of_ne same] at h
        exact .inr h

/-- After entries were put in, there is something for each of their keys and for those before. -/
theorem lookup_foldl_put_isSome [LawfulBEq α] {k : α} (es t : List (α × β))
    (h : (∃ e ∈ es, e.1 = k) ∨ (t.lookup k).isSome) :
    ((es.foldl (fun t e => put e.1 e.2 t) t).lookup k).isSome := by
  induction es generalizing t with
  | nil => exact h.resolve_left (by rintro ⟨_, ⟨⟩, _⟩)
  | cons e es ih =>
    refine ih (put e.1 e.2 t) ?_
    by_cases same : k = e.1
    · right
      rw [same, lookup_put_self, Option.isSome_some]
    · rw [lookup_put_of_ne same]
      refine h.imp_left ?_
      rintro ⟨e', mem, rfl⟩
      rcases List.mem_cons.1 mem with rfl | mem
      · exact absurd rfl same
      · exact ⟨e', mem, rfl⟩

/-- What is found in a table of entries is one of them. -/
theorem mem_of_lookup_ofList [LawfulBEq α] {k : α} {v : β} {es : List (α × β)}
    (h : (ofList es).lookup k = some v) : (k, v) ∈ es :=
  (lookup_foldl_put es [] h).resolve_right (by simp)

/-- What is not found in a table of entries is the key of none of them. -/
theorem ne_of_lookup_ofList [LawfulBEq α] {k : α} {es : List (α × β)}
    (h : (ofList es).lookup k = none) : ∀ e ∈ es, e.1 ≠ k := by
  intro e he same
  have found := lookup_foldl_put_isSome es [] (.inl ⟨e, he, same⟩)
  rw [ofList] at h
  simp [h] at found

end NestedStyles.Table
