import Mathlib.Data.List.Count
import NestedStyles.Proofs.Reuse.Underway

/-!
# The occurrences of uses in a file

A use occurs at a place: in an export or a rule, or in a rule nested there. Each place of a file is
listed once (`Stylesheet.nodup_places`), so a use occurs in the list as often as it stands at its
place (`Stylesheet.count_occurrences`), and what occurs are just the uses of the file, in order
(`Stylesheet.map_use_occurrences`).
-/

namespace NestedStyles

/-! ## The places of a block -/

namespace StyleRule

theorem usesIn_eq_flatMap (rs : List StyleRule) :
    usesIn rs = rs.flatMap fun r => r.body.allUses := by
  induction rs with
  | nil => rfl
  | cons r rs ih => rw [usesIn_cons, ih, List.flatMap_cons]

/-- The places of rules side by side start with an index from `k` on. -/
theorem exists_of_mem_placesFromAll {above path : List Nat} {k : Nat} {rs : List StyleRule}
    (h : path ∈ placesFromAll above k rs) : ∃ i more, k ≤ i ∧ path = above ++ i :: more := by
  induction rs generalizing k with
  | nil => exact absurd h List.not_mem_nil
  | cons r rs ih =>
    rw [placesFromAll, placesFrom_eq_map] at h
    obtain here | later := List.mem_append.1 h
    · obtain ⟨more, -, rfl⟩ := List.mem_map.1 here
      exact ⟨k, more, Nat.le_refl k, by simp⟩
    · obtain ⟨i, more, from', rfl⟩ := ih later
      exact ⟨i, more, by omega, rfl⟩

mutual

/-- No place in a rule is listed twice. -/
theorem nodup_placesFrom (r : StyleRule) (here : List Nat) : (r.placesFrom here).Nodup := by
  obtain ⟨selector, classes, declarations, uses, children⟩ := r
  rw [placesFrom, List.nodup_cons]
  refine ⟨fun again => ?_, nodup_placesFromAll children here 0⟩
  obtain ⟨i, more, -, same⟩ := exists_of_mem_placesFromAll again
  have length := congrArg List.length same
  simp at length
termination_by structural r

/-- No place in rules side by side is listed twice. -/
theorem nodup_placesFromAll (rs : List StyleRule) (above : List Nat) (k : Nat) :
    (placesFromAll above k rs).Nodup := by
  cases rs with
  | nil => exact List.nodup_nil
  | cons r rs =>
    rw [placesFromAll]
    refine (nodup_placesFrom r _).append (nodup_placesFromAll rs above (k + 1)) ?_
    intro path first later
    obtain ⟨i, more, behind, same⟩ := exists_of_mem_placesFromAll later
    rw [placesFrom_eq_map] at first
    obtain ⟨inner, -, rfl⟩ := List.mem_map.1 first
    rw [List.append_assoc, List.append_cancel_left_eq] at same
    obtain rfl : k = i := (List.cons.inj same).1
    omega
termination_by structural rs

end

mutual

/-- What stands at the places of a rule, in order, are its uses. -/
theorem flatMap_placesFrom (r : StyleRule) :
    (r.placesFrom []).flatMap (fun path => (r.body.inside path).uses) = r.body.allUses := by
  obtain ⟨selector, classes, declarations, uses, children⟩ := r
  rw [placesFrom, List.flatMap_cons]
  exact congrArg (uses ++ ·)
    (flatMap_placesFromAll children ⟨classes, declarations, uses, children⟩ [] rfl)
termination_by structural r

/-- What stands at the places of the last rules of a block, in order, are the uses in them. -/
theorem flatMap_placesFromAll (rs : List StyleRule) (b : Body) (before : List StyleRule)
    (split : b.children = before ++ rs) :
    (placesFromAll [] before.length rs).flatMap (fun path => (b.inside path).uses) =
      usesIn rs := by
  cases rs with
  | nil => rfl
  | cons r rs =>
    have here : b.children[before.length]? = some r := by
      rw [split, List.getElem?_append_right (Nat.le_refl _), Nat.sub_self]
      rfl
    have inside (path : List Nat) : b.inside ([before.length] ++ path) = r.body.inside path := by
      rw [List.singleton_append, Body.inside_cons, here]
      rfl
    have later := flatMap_placesFromAll rs b (before ++ [r]) (by simp [split])
    rw [List.length_append, List.length_singleton] at later
    rw [placesFromAll, List.nil_append, placesFrom_eq_map, List.flatMap_append, List.flatMap_map,
      later, usesIn_cons, ← flatMap_placesFrom r]
    simp only [inside]
termination_by structural rs

end

end StyleRule

namespace Body

theorem nodup_places (b : Body) : b.places.Nodup :=
  StyleRule.nodup_placesFrom (b.toRule "") []

/-- What stands at the places of a block, in order, are its uses. -/
theorem flatMap_places (b : Body) :
    b.places.flatMap (fun path => (b.inside path).uses) = b.allUses :=
  StyleRule.flatMap_placesFrom (b.toRule "")

end Body

/-! ## The places of a file -/

/-- The entries of a list by their index. -/
theorem flatMap_range_getElem? {α β : Type} (l : List α) (f : Option α → List β) :
    (List.range l.length).flatMap (fun i => f l[i]?) = l.flatMap fun a => f (some a) := by
  have entries : (List.range l.length).map (l[·]?) = l.map some := by
    apply List.ext_getElem
    · simp
    · simp
  have mapped := congrArg (List.flatMap f) entries
  rwa [List.flatMap_map, List.flatMap_map] at mapped

namespace Reuse

/-- A use and the place it stands at. -/
structure Occurrence where
  place : Place
  use : UseDirective
  deriving DecidableEq, Repr

end Reuse

open Reuse

namespace Stylesheet

variable {sheet : Stylesheet}

/-- The blocks of a file. -/
def blocks (sheet : Stylesheet) : List BlockRef :=
  (List.range sheet.exports.length).map .own ++ (List.range sheet.rules.length).map .rule

/-- The places in the blocks of a file. -/
def places (sheet : Stylesheet) : List Place :=
  sheet.blocks.flatMap fun ref => (sheet.block ref).places.map (⟨ref, ·⟩)

/-- The uses at a place. -/
def usesAt (sheet : Stylesheet) (place : Place) : List UseDirective :=
  ((sheet.block place.block).inside place.path).uses

/-- The uses in the blocks of a file, each with the place it stands at. -/
def occurrences (sheet : Stylesheet) : List Occurrence :=
  sheet.places.flatMap fun place => (sheet.usesAt place).map (⟨place, ·⟩)

theorem mem_blocks {ref : BlockRef} : ref ∈ sheet.blocks ↔ Holds sheet ref := by
  cases ref <;> simp [blocks, Holds]

theorem nodup_blocks (sheet : Stylesheet) : sheet.blocks.Nodup := by
  refine (List.nodup_range.map fun _ _ => BlockRef.own.inj).append
    (List.nodup_range.map fun _ _ => BlockRef.rule.inj) ?_
  intro ref own rule
  obtain ⟨i, -, rfl⟩ := List.mem_map.1 own
  obtain ⟨j, -, impossible⟩ := List.mem_map.1 rule
  cases impossible

/-- No place in a file is listed twice. -/
theorem nodup_places (sheet : Stylesheet) : sheet.places.Nodup := by
  refine List.nodup_flatMap.2 ⟨fun ref _ => ?_, ?_⟩
  · exact (Body.nodup_places _).map fun _ _ same => (Place.mk.inj same).2
  · refine sheet.nodup_blocks.imp fun ne place first later => ?_
    obtain ⟨_, -, rfl⟩ := List.mem_map.1 first
    obtain ⟨_, -, same⟩ := List.mem_map.1 later
    exact ne (Place.mk.inj same).1.symm

theorem mem_places {place : Place} (h : Holds sheet place.block) (used : sheet.usesAt place ≠ []) :
    place ∈ sheet.places :=
  List.mem_flatMap.2 ⟨place.block, mem_blocks.2 h,
    List.mem_map.2 ⟨place.path, Body.mem_places used, rfl⟩⟩

theorem holds_of_mem_places {place : Place} (h : place ∈ sheet.places) :
    Holds sheet place.block := by
  obtain ⟨ref, mem, here⟩ := List.mem_flatMap.1 h
  obtain ⟨_, -, rfl⟩ := List.mem_map.1 here
  exact mem_blocks.1 mem

theorem holds_of_mem_occurrences {o : Occurrence} (h : o ∈ sheet.occurrences) :
    Holds sheet o.place.block := by
  obtain ⟨_, here, used⟩ := List.mem_flatMap.1 h
  obtain ⟨_, -, rfl⟩ := List.mem_map.1 used
  exact holds_of_mem_places here

theorem count_map_occurrence (place : Place) (uses : List UseDirective) (o : Occurrence) :
    (uses.map (Occurrence.mk place)).count o = if o.place = place then uses.count o.use else 0 := by
  obtain ⟨place', u⟩ := o
  split
  next same =>
    obtain rfl : place' = place := same
    exact List.count_map_of_injective uses _ (fun _ _ same => (Occurrence.mk.inj same).2) u
  next ne =>
    refine List.count_eq_zero.2 fun mem => ne ?_
    obtain ⟨_, -, same⟩ := List.mem_map.1 mem
    exact (Occurrence.mk.inj same).1.symm

/-- A use occurs as often as it stands at its place. -/
theorem count_occurrences {o : Occurrence} (h : Holds sheet o.place.block) :
    sheet.occurrences.count o = (sheet.usesAt o.place).count o.use := by
  have general (places : List Place) (distinct : places.Nodup) :
      (places.flatMap fun place => (sheet.usesAt place).map (Occurrence.mk place)).count o =
        if o.place ∈ places then (sheet.usesAt o.place).count o.use else 0 := by
    induction places with
    | nil => rfl
    | cons place places ih =>
      obtain ⟨new, distinct⟩ := List.nodup_cons.1 distinct
      rw [List.flatMap_cons, List.count_append, ih distinct, count_map_occurrence]
      by_cases same : o.place = place
      · rw [same, if_pos rfl, if_neg new, if_pos List.mem_cons_self, Nat.add_zero]
      · simp [same]
  rw [occurrences, general _ sheet.nodup_places]
  split
  next => rfl
  next outside =>
    have none : sheet.usesAt o.place = [] := by
      by_contra used
      exact outside (mem_places h used)
    rw [none, List.count_nil]

/-- The uses that occur are those of the file, in order. -/
theorem map_use_occurrences (sheet : Stylesheet) :
    sheet.occurrences.map Occurrence.use = sheet.allUses := by
  have block (ref : BlockRef) : ((sheet.block ref).places.map (Place.mk ref)).flatMap
      sheet.usesAt = (sheet.block ref).allUses := by
    rw [List.flatMap_map, ← Body.flatMap_places]
    rfl
  have uses : sheet.occurrences.map Occurrence.use = sheet.places.flatMap sheet.usesAt := by
    rw [occurrences, List.map_flatMap]
    simp [List.map_map, Function.comp_def]
  rw [uses, places, List.flatMap_assoc]
  simp only [block]
  rw [blocks, List.flatMap_append, List.flatMap_map, List.flatMap_map, allUses,
    StyleRule.usesIn_eq_flatMap]
  exact congrArg₂ (· ++ ·)
    (flatMap_range_getElem? sheet.exports fun e => ((e.map ExportBlock.toBody).getD .empty).allUses)
    (flatMap_range_getElem? sheet.rules fun r => ((r.map StyleRule.body).getD .empty).allUses)

/-- Where nothing is used nothing occurs. -/
theorem occurrences_eq_nil (free : sheet.allUses = []) : sheet.occurrences = [] := by
  rwa [← map_use_occurrences, List.map_eq_nil_iff] at free

end Stylesheet

namespace Reuse

/-- What stands at a place of a block of the file stands there in its pass. -/
theorem Pass.usesAt_sheet {sheet : Stylesheet} {place : Place} (h : Holds sheet place.block)
    (p : Pass) : p.sheet.usesAt place = (p.content place).uses := by
  have same : (Pass.start .empty p.sheet).body place.block = p.body place.block := body_congr h rfl
  rw [Pass.content, ← same]
  rfl

end Reuse

end NestedStyles
