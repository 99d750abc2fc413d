import NestedStyles.Proofs.Reuse.Focus

/-!
# The uses in a block, place by place

A block has the uses of its places (`Body.mem_allUses_iff`). Content without uses that is added
somewhere brings none (`Body.uses_inside_modifyAt_append`), and taking the uses away at a place
leaves those at the others (`Body.uses_inside_modifyAt_clear`). So a block from which they are taken
away at all its places has none (`Reuse.ClearedAt.free`).
-/

namespace NestedStyles

namespace Body

variable {b more : Body} {path : List Nat} {u : UseDirective}

theorem inside_cons (i : Nat) (path : List Nat) (b : Body) :
    inside (i :: path) b = (b.children[i]?.map fun r => inside path r.body).getD empty := by
  rw [inside]
  cases b.children[i]? <;> rfl

/-- The uses of the rule with index `i` are uses of the block. -/
theorem mem_allUses_of_child {r : StyleRule} {i : Nat} (h : b.children[i]? = some r)
    (used : u ∈ r.body.allUses) : u ∈ b.allUses :=
  List.mem_append_right _ (StyleRule.mem_usesIn (List.mem_of_getElem? h) used)

theorem mem_allUses_of_inside (path : List Nat) (h : u ∈ (inside path b).uses) :
    u ∈ b.allUses := by
  induction path generalizing b with
  | nil => exact List.mem_append_left _ h
  | cons i path ih =>
    rw [inside_cons] at h
    cases found : b.children[i]? with
    | none =>
      rw [found] at h
      exact absurd h List.not_mem_nil
    | some r =>
      rw [found] at h
      exact mem_allUses_of_child found (ih h)

end Body

mutual

/-- A use in a rule stands at some place in it. -/
theorem StyleRule.exists_inside (r : StyleRule) {u : UseDirective} (h : u ∈ r.body.allUses) :
    ∃ path, u ∈ (r.body.inside path).uses := by
  obtain ⟨selector, classes, declarations, uses, children⟩ := r
  rcases List.mem_append.1 h with h | h
  · exact ⟨[], h⟩
  · obtain ⟨i, r, found, path, h⟩ := StyleRule.exists_inside_all children h
    have here : Body.children ⟨classes, declarations, uses, children⟩ = children := rfl
    refine ⟨i :: path, ?_⟩
    show u ∈ (Body.inside (i :: path) ⟨classes, declarations, uses, children⟩).uses
    rw [Body.inside_cons, here, found]
    exact h
termination_by structural r

theorem StyleRule.exists_inside_all (rs : List StyleRule) {u : UseDirective}
    (h : u ∈ StyleRule.usesIn rs) :
    ∃ (i : Nat) (r : StyleRule), rs[i]? = some r ∧ ∃ path, u ∈ (r.body.inside path).uses := by
  cases rs with
  | nil => exact absurd h List.not_mem_nil
  | cons r rs =>
    rw [StyleRule.usesIn_cons] at h
    rcases List.mem_append.1 h with h | h
    · exact ⟨0, r, rfl, StyleRule.exists_inside r h⟩
    · obtain ⟨i, s, found, inside⟩ := StyleRule.exists_inside_all rs h
      exact ⟨i + 1, s, found, inside⟩
termination_by structural rs

end

mutual

/-- Where a rule has uses is one of its places. -/
theorem StyleRule.mem_placesFrom (r : StyleRule) (here path : List Nat)
    (h : (r.body.inside path).uses ≠ []) : here ++ path ∈ r.placesFrom here := by
  obtain ⟨selector, classes, declarations, uses, children⟩ := r
  cases path with
  | nil => simp [StyleRule.placesFrom]
  | cons i path =>
    refine List.mem_cons_of_mem _ ?_
    have below := StyleRule.mem_placesFromAll children here path 0 i
    rw [Nat.zero_add] at below
    refine below ?_
    have same : (Body.inside (i :: path) ⟨classes, declarations, uses, children⟩).uses ≠ [] := h
    rwa [Body.inside_cons] at same
termination_by structural r

theorem StyleRule.mem_placesFromAll (rs : List StyleRule) (above path : List Nat) (k i : Nat)
    (h : ((rs[i]?.map fun r : StyleRule => r.body.inside path).getD Body.empty).uses ≠ []) :
    above ++ (k + i) :: path ∈ StyleRule.placesFromAll above k rs := by
  cases rs with
  | nil => exact absurd rfl h
  | cons r rs =>
    rw [StyleRule.placesFromAll, List.mem_append]
    cases i with
    | zero =>
      left
      have here := StyleRule.mem_placesFrom r (above ++ [k]) path h
      rwa [List.append_assoc, List.singleton_append] at here
    | succ i =>
      right
      have later := StyleRule.mem_placesFromAll rs above path (k + 1) i h
      rwa [Nat.add_right_comm] at later
termination_by structural rs

end

mutual

/-- The places of a rule are found from wherever it stands. -/
theorem StyleRule.placesFrom_eq_map (here : List Nat) (r : StyleRule) :
    r.placesFrom here = (r.placesFrom []).map (here ++ ·) := by
  obtain ⟨selector, classes, declarations, uses, children⟩ := r
  rw [StyleRule.placesFrom, StyleRule.placesFrom, List.map_cons, List.append_nil,
    StyleRule.placesFromAll_eq_map here]
termination_by structural r

theorem StyleRule.placesFromAll_eq_map (above : List Nat) (k : Nat) (rs : List StyleRule) :
    StyleRule.placesFromAll above k rs =
      (StyleRule.placesFromAll [] k rs).map (above ++ ·) := by
  cases rs with
  | nil => rfl
  | cons r rs =>
    rw [StyleRule.placesFromAll, StyleRule.placesFromAll, List.map_append, List.nil_append,
      StyleRule.placesFrom_eq_map (above ++ [k]), StyleRule.placesFrom_eq_map [k],
      StyleRule.placesFromAll_eq_map above, List.map_map]
    simp only [Function.comp_def, List.append_assoc]
termination_by structural rs

end

namespace Body

variable {b more : Body} {path : List Nat} {u : UseDirective}

/-- A place below the top is one of a rule in the block. -/
theorem exists_of_mem_places {i : Nat} (h : i :: path ∈ b.places) :
    ∃ r, b.children[i]? = some r ∧ path ∈ r.body.places := by
  have general (rs : List StyleRule) (k : Nat) (mem : i :: path ∈ StyleRule.placesFromAll [] k rs) :
      ∃ j r, i = k + j ∧ rs[j]? = some r ∧ path ∈ r.body.places := by
    induction rs generalizing k with
    | nil => exact absurd mem List.not_mem_nil
    | cons r rs ih =>
      rw [StyleRule.placesFromAll, List.mem_append] at mem
      rcases mem with mem | mem
      · rw [StyleRule.placesFrom_eq_map] at mem
        obtain ⟨inner, there, same⟩ := List.mem_map.1 mem
        cases same
        exact ⟨0, r, rfl, rfl, by cases r; exact there⟩
      · obtain ⟨j, s, index, found, there⟩ := ih (k + 1) mem
        exact ⟨j + 1, s, by omega, found, there⟩
  rcases List.mem_cons.1 h with impossible | mem
  · cases impossible
  · obtain ⟨j, r, index, found, there⟩ := general b.children 0 mem
    rw [Nat.zero_add] at index
    exact ⟨r, index ▸ found, there⟩

/-- The uses of a block are those at its places. -/
theorem mem_allUses_iff : u ∈ b.allUses ↔ ∃ path, u ∈ (inside path b).uses := by
  constructor
  · intro h
    have asRule : u ∈ (b.toRule "").body.allUses := h
    exact StyleRule.exists_inside (b.toRule "") asRule
  · rintro ⟨path, h⟩
    exact mem_allUses_of_inside path h

/-- A block without uses at all places has none. -/
theorem allUses_eq_nil (h : ∀ path, (inside path b).uses = []) : b.allUses = [] := by
  refine List.eq_nil_iff_forall_not_mem.2 fun u used => ?_
  obtain ⟨path, at_path⟩ := mem_allUses_iff.1 used
  rw [h path] at at_path
  exact List.not_mem_nil at_path

/-- Where a block has uses is one of its places. -/
theorem mem_places (h : (inside path b).uses ≠ []) : path ∈ b.places := by
  have asRule := StyleRule.mem_placesFrom (b.toRule "") [] path h
  rwa [List.nil_append] at asRule

/-- Content without uses adds none anywhere. -/
theorem uses_inside_modifyAt_append (free : more.allUses = []) (place path : List Nat) (b : Body) :
    (inside path (modifyAt (· ++ more) place b)).uses = (inside path b).uses := by
  induction place generalizing path b with
  | nil =>
    cases path with
    | nil =>
      have none : more.uses = [] := uses_inside_of_free free []
      simp [modifyAt, inside, none]
    | cons i path =>
      rw [modifyAt, inside_cons, inside_cons, children_append]
      by_cases old : i < b.children.length
      · rw [List.getElem?_append_left old]
      · have added := uses_inside_of_free free ((i - b.children.length) :: path)
        rw [inside_cons] at added
        have absent : b.children[i]? = none := List.getElem?_eq_none (Nat.not_lt.1 old)
        rw [List.getElem?_append_right (Nat.not_lt.1 old), added, absent]
        rfl
  | cons k place ih =>
    cases path with
    | nil => rfl
    | cons i path =>
      rw [modifyAt, inside_cons, inside_cons, List.getElem?_modify]
      by_cases here : k = i
      · cases found : b.children[i]? with
        | none => simp [here]
        | some r => simpa [here] using ih path r.body
      · simp [here]

/-- Taking the uses away at a place leaves those at the others. -/
theorem uses_inside_modifyAt_clear (place path : List Nat) (b : Body) :
    (inside path (modifyAt (fun b => { b with uses := [] }) place b)).uses =
      if path = place then [] else (inside path b).uses := by
  induction place generalizing path b with
  | nil =>
    cases path with
    | nil => rfl
    | cons i path => rfl
  | cons k place ih =>
    cases path with
    | nil => rfl
    | cons i path =>
      rw [modifyAt, inside_cons, inside_cons, List.getElem?_modify]
      by_cases here : k = i
      · cases found : b.children[i]? with
        | none => simp [here, empty]
        | some r => simpa [here] using ih path r.body
      · simp [here, Ne.symm here]

end Body

/-! ## Taking uses away -/

namespace Reuse

/-- The uses in a block are as they were, except at these places, where there are none. -/
def ClearedAt (places : List (List Nat)) (b b' : Body) : Prop :=
  ∀ path, (b'.inside path).uses = if path ∈ places then [] else (b.inside path).uses

namespace ClearedAt

variable {places more : List (List Nat)} {b b' b'' t : Body}

theorem refl (b : Body) : ClearedAt [] b b :=
  fun _ => (if_neg List.not_mem_nil).symm

theorem trans (h : ClearedAt places b b') (h' : ClearedAt more b' b'') :
    ClearedAt (places ++ more) b b'' := by
  intro path
  rw [h' path, h path]
  by_cases first : path ∈ places
  · simp [first]
  · simp [first]

theorem append (free : t.allUses = []) (path : List Nat) (b : Body) :
    ClearedAt [] b (Body.modifyAt (· ++ t) path b) := by
  intro place
  rw [Body.uses_inside_modifyAt_append free, if_neg List.not_mem_nil]

theorem clear (path : List Nat) (b : Body) :
    ClearedAt [path] b (Body.modifyAt (fun b => { b with uses := [] }) path b) := by
  intro place
  rw [Body.uses_inside_modifyAt_clear]
  simp only [List.mem_singleton]

/-- No place has more uses than before. -/
theorem fewer (h : ClearedAt places b b') (path : List Nat) :
    (b'.inside path).uses ⊆ (b.inside path).uses := by
  rw [h path]
  split
  · exact List.nil_subset _
  · exact List.Subset.refl _

/-- At all its places, that is everywhere. -/
theorem free (h : ClearedAt b.places b b') : b'.allUses = [] := by
  refine Body.allUses_eq_nil fun path => ?_
  rw [h path]
  split
  case isTrue => rfl
  case isFalse outside =>
    exact Classical.byContradiction fun uses => outside (Body.mem_places uses)

end ClearedAt

end Reuse

end NestedStyles
