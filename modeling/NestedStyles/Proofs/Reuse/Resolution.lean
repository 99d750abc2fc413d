import Mathlib.Data.List.Forall2
import NestedStyles.Proofs.Reuse.Registry

/-!
# A resolved file is its expansion

Once names stand for blocks, the exports are resolved, those that have a name first, and then the
rules. Afterwards each of them is what it expands to (`Outset.Inv.exportsExpand`,
`Outset.Inv.rulesExpand`), and what was reported about the uses in exports is one fault for each use
that asks for nothing there is (`Outset.Inv.missing_done`).
-/

namespace NestedStyles

open Function Relation

namespace Reuse

/-! ## Expansions of lists -/

/-- The exports keep their names and expand one by one. -/
def ExportsExpand (target : UseDirective → Option Body) :
    List ExportBlock → List ExportBlock → Prop :=
  List.Forall₂ fun e e' => e'.name = e.name ∧ Expands target e.toBody e'.toBody

/-- Rules that keep their selectors and expand one by one expand together. -/
theorem RulesExpand.of_forall₂ {target : UseDirective → Option Body} {rs rs' : List StyleRule}
    (h : List.Forall₂ (fun r r' => r'.selector = r.selector ∧ Expands target r.body r'.body)
      rs rs') : RulesExpand target rs rs' := by
  induction h with
  | nil => exact .nil
  | @cons r r' _ _ first _ ih =>
    obtain ⟨selector, expands⟩ := first
    have h := RulesExpand.cons expands ih
    rwa [← selector, StyleRule.toRule_body] at h

/-- Of a list without repetitions those entries may be left out that add nothing. -/
theorem perm_flatMap_of_subset {α β : Type} [DecidableEq α] {f : α → List β} {l l' : List α}
    (nodup : l.Nodup) (nodup' : l'.Nodup) (sub : l' ⊆ l) (rest : ∀ a ∈ l, a ∉ l' → f a = []) :
    (l.flatMap f).Perm (l'.flatMap f) := by
  have inside : (l.filter (· ∈ l')).Perm l' := by
    rw [List.perm_ext_iff_of_nodup (nodup.filter _) nodup']
    intro a
    rw [List.mem_filter, decide_eq_true_eq]
    exact ⟨fun h => h.2, fun h => ⟨sub h, h⟩⟩
  have outside : (l.filter fun a => !decide (a ∈ l')).flatMap f = [] := by
    rw [List.flatMap_eq_nil_iff]
    intro a ha
    obtain ⟨mem, new⟩ := List.mem_filter.1 ha
    exact rest a mem (by simpa using new)
  have parts := (List.filter_append_perm (fun a => decide (a ∈ l')) l).symm.flatMap_right f
  rw [List.flatMap_append, outside, List.append_nil] at parts
  exact parts.trans (inside.flatMap_right f)

/-- Going through the indices of a list is going through the list. -/
theorem flatMap_range_eq {α β : Type} {l : List α} {f : Nat → List β} {g : α → List β}
    (h : ∀ i a, l[i]? = some a → f i = g a) : (List.range l.length).flatMap f = l.flatMap g := by
  rw [List.flatMap_def, List.flatMap_def]
  congr 1
  apply List.ext_getElem (by simp)
  intro i _ inside
  rw [List.length_map] at inside
  rw [List.getElem_map, List.getElem_map, List.getElem_range]
  exact h i l[i] (List.getElem?_eq_getElem inside)

namespace Outset

variable {S : Outset} {base : List Fault} {held : BlockRef → Option Body} {p : Pass}
variable {ref : BlockRef} {depth : Nat}

/-! ## Resolving exports -/

/-- An export is done afterwards. -/
theorem resolveExport_runs (sound : S.Sound) (inv : S.Inv base held p)
    (free : ∀ i, held (.own i) = none) {e : ExportBlock} (he : S.export? ref = some e)
    (known : ∀ path i, ref = .foreign path i → path ∈ p.dependencies)
    (enough : S.sheet.allUses.length < depth) :
    Runs (resolveExport S.consumer depth ref) p fun _ q => S.Inv base held q ∧ ref ∈ q.done := by
  refine .get_bind ?_
  by_cases done : ref ∈ p.done
  · rw [if_neg (not_not_intro done)]
    exact .of_pure ⟨inv, done⟩
  · rw [if_pos done]
    refine (settle_runs sound (sound.resolves depth) inv he done known ?_).imp ?_
    · rintro i rfl
      have inside : Holds S.sheet (.own i) := List.getElem?_eq_some_iff.1 he |>.1
      have name : S.nameOf (.own i) = some e.name := by rw [nameOf, he, Option.map_some]
      rw [inv.nameOf_eq inside, name, Option.toList_some]
      refine ⟨free i, ⟨?_, ?_, fun j _ _ _ => free j⟩, ?_, Nat.zero_lt_of_lt enough⟩
      · intro a ha
        rw [List.mem_singleton] at ha
        exact ⟨e.name, name, ha ▸ .refl⟩
      · intro n hn
        rw [name] at hn
        exact List.mem_singleton.2 (Option.some.inj hn).symm
      · exact S.affords_of_lt enough [e.name]
    · rintro _ q ⟨inv, done, -⟩
      exact ⟨inv, done⟩

/-- These exports are done already. -/
def settling (S : Outset) (settled : List BlockRef) : Outset :=
  { S with settled := settled }

theorem Sound.settling (sound : S.Sound) (settled : List BlockRef) : (S.settling settled).Sound :=
  ⟨sound.served, ⟨sound.registered.finds, sound.registered.named, sound.registered.known⟩,
    sound.acyclic⟩

/-- What is done stays done. -/
theorem Inv.settle (inv : S.Inv base held p) (done : ref ∈ p.done) :
    (S.settling (ref :: S.settled)).Inv base held p :=
  { inv with settled := List.cons_subset.2 ⟨done, inv.settled⟩ }

/-- The blocks that names stand for are resolved. -/
theorem resolveNamed_runs (sound : S.Sound) (inv : S.Inv base held p)
    (free : ∀ i, held (.own i) = none) (enough : S.sheet.allUses.length < depth) :
    Runs (S.registry.forM fun (_, block) => resolveExport S.consumer depth block) p fun _ q =>
      S.Inv base held q := by
  refine .forM (I := fun _ q => S.Inv base held q) inv ?_
  rintro before ⟨name, ref⟩ after split q inv
  have mem : (name, ref) ∈ S.registry := mem_of_split split
  obtain ⟨e, he, -⟩ := sound.registered.named _ mem
  have known : ∀ path i, ref = .foreign path i → path ∈ q.dependencies := fun path i same =>
    inv.known path (sound.registered.known _ mem path i same)
  exact (resolveExport_runs sound inv free he known enough).imp fun _ _ h => h.1

/-- The exports of the file are resolved. -/
theorem resolveOwn_runs (sound : S.Sound) (inv : S.Inv base held p)
    (free : ∀ i, held (.own i) = none) (enough : S.sheet.allUses.length < depth) :
    Runs ((List.range S.sheet.exports.length).forM fun i =>
      resolveExport S.consumer depth (.own i)) p fun _ q => ∃ settled,
        (S.settling settled).Inv base held q ∧
          ∀ i < S.sheet.exports.length, .own i ∈ settled := by
  refine .forM_range (I := fun k q => ∃ settled, (S.settling settled).Inv base held q ∧
    ∀ i < k, .own i ∈ settled) ⟨S.settled, inv, by simp⟩ ?_
  rintro k inside q ⟨settled, inv, before⟩
  have he : (S.settling settled).export? (.own k) = some S.sheet.exports[k] :=
    List.getElem?_eq_getElem inside
  refine (resolveExport_runs (sound.settling settled) inv free he (by rintro _ _ ⟨⟩) enough).imp ?_
  rintro _ q ⟨inv, done⟩
  refine ⟨.own k :: settled, inv.settle done, ?_⟩
  intro i hi
  rcases Nat.lt_succ_iff_lt_or_eq.1 hi with hi | rfl
  · exact List.mem_cons_of_mem _ (before i hi)
  · exact List.mem_cons_self

/-! ## Resolving rules -/

/-- The first rules are held expanded, the others as they were. -/
structure Rules (S : Outset) (k : Nat) (held : BlockRef → Option Body) : Prop where
  expanded : ∀ i < k, ∃ b, held (.rule i) = some b ∧ Expands S.target (S.body (.rule i)) b
  left : ∀ i < S.sheet.rules.length, k ≤ i → held (.rule i) = some (S.body (.rule i))
  own : ∀ i, held (.own i) = none

/-- One rule more is held expanded. -/
theorem Rules.step {k : Nat} (rules : S.Rules k held) {b : Body}
    (expands : Expands S.target (S.body (.rule k)) b) :
    S.Rules (k + 1) (update held (.rule k) (some b)) := by
  have other {i : Nat} (ne : i ≠ k) : BlockRef.rule i ≠ .rule k :=
    fun same => ne (BlockRef.rule.inj same)
  constructor
  case expanded =>
    intro i hi
    rcases Nat.lt_succ_iff_lt_or_eq.1 hi with hi | rfl
    · rw [update_of_ne (other (Nat.ne_of_lt hi))]
      exact rules.expanded i hi
    · exact ⟨b, update_self .., expands⟩
  case left =>
    intro i inside hi
    rw [update_of_ne (other (Nat.ne_of_gt hi))]
    exact rules.left i inside (Nat.le_of_succ_le hi)
  case own =>
    intro i
    rw [update_of_ne BlockRef.noConfusion]
    exact rules.own i

/-- The rules of the file become their expansions. -/
theorem resolveRules_runs (sound : S.Sound) (inv : S.Inv base held p) (rules : S.Rules 0 held)
    (enough : S.sheet.allUses.length < depth) :
    Runs (resolveRules S.consumer depth) p fun _ q => ∃ held, S.Rules S.sheet.rules.length held ∧
      S.Inv (base ++ (List.range S.sheet.rules.length).flatMap fun i => S.missingIn (.rule i))
        held q := by
  refine .get_bind ?_
  rw [inv.length_rules]
  refine .forM_range (I := fun k q => ∃ held, S.Rules k held ∧ S.Inv (base ++
    (List.range k).flatMap fun i => S.missingIn (.rule i)) held q) ⟨held, rules, ?_⟩ ?_
  · rwa [List.range_zero, List.flatMap_nil, List.append_nil]
  · rintro k inside q ⟨held, rules, inv⟩
    obtain ⟨depth, rfl⟩ := Nat.exists_eq_succ_of_ne_zero (Nat.ne_zero_of_lt enough)
    have watch : S.Watch [] (.rule k) held := ⟨by simp, by rintro n ⟨⟩, fun i _ _ _ => rules.own i⟩
    have affords : S.Affords (depth + 1) [] := affords_of_lt enough []
    have same : update held (.rule k) (some (S.body (.rule k))) = held := by
      rw [← rules.left k inside (Nat.le_refl k), update_eq_self]
    rw [← same] at inv
    refine (resolveBlock_runs ⟨sound, sound.resolves depth, watch, affords, inside⟩ inv).imp ?_
    rintro _ q ⟨b, expands, inv⟩
    refine ⟨_, rules.step expands, ?_⟩
    rwa [List.range_succ, List.flatMap_append, List.flatMap_singleton, ← List.append_assoc]

/-! ## What has become of the file -/

/-- At the end each rule is what it expands to. -/
theorem Inv.rulesExpand (inv : S.Inv base held p) (rules : S.Rules S.sheet.rules.length held) :
    RulesExpand S.target S.sheet.rules p.sheet.rules := by
  refine .of_forall₂ (List.forall₂_iff_get.2 ⟨inv.length_rules.symm, ?_⟩)
  intro i inside inside'
  have selector : p.sheet.rules[i].selector = S.sheet.rules[i].selector := by
    have same := congrArg (·[i]?) inv.selectors
    simpa [inside, inside'] using same
  obtain ⟨b, hb, expands⟩ := rules.expanded i inside
  obtain ⟨-, -, content⟩ := inv.holds _ _ hb
  refine ⟨selector, ?_⟩
  rw [← content] at expands
  simpa [Outset.body, Pass.body, inside, inside'] using expands

/-- When all are done, each export is what it expands to. -/
theorem Inv.exportsExpand (inv : S.Inv base held p)
    (done : ∀ i < S.sheet.exports.length, .own i ∈ p.done) :
    ExportsExpand S.target S.sheet.exports p.sheet.exports := by
  refine List.forall₂_iff_get.2 ⟨inv.length_exports.symm, ?_⟩
  intro i inside inside'
  have name : p.sheet.exports[i].name = S.sheet.exports[i].name := by
    have same := congrArg (·[i]?) inv.names
    simpa [inside, inside'] using same
  refine ⟨name, ?_⟩
  have expands := inv.expanded i (done i inside)
  simpa [Outset.body, Outset.export?, Pass.body, Pass.export?, inside, inside'] using expands

/-- What is missing in the rules. -/
theorem missingIn_rules :
    ((List.range S.sheet.rules.length).flatMap fun i => S.missingIn (.rule i)) =
      missing S.target none (StyleRule.usesIn S.sheet.rules) := by
  have each : ∀ i r, S.sheet.rules[i]? = some r →
      S.missingIn (.rule i) = missing S.target none r.body.allUses := by
    intro i r hr
    rw [missingIn, body, hr, Option.map_some, Option.getD_some]
    rfl
  rw [flatMap_range_eq each]
  induction S.sheet.rules with
  | nil => rfl
  | cons r rs ih => rw [List.flatMap_cons, StyleRule.usesIn_cons, missing_append, ih]

/-- What is missing in the exports. -/
theorem missingIn_exports :
    ((List.range S.sheet.exports.length).flatMap fun i => S.missingIn (.own i)) =
      S.sheet.exports.flatMap fun e => missing S.target (some e.name) e.toBody.allUses := by
  refine flatMap_range_eq fun i e he => ?_
  have he : S.export? (.own i) = some e := he
  rw [missingIn, body_of_export? he, nameOf, he, Option.map_some]

/-- When all exports are done, what is missing in them was reported, and nothing else was. -/
theorem Inv.missing_done (inv : S.Inv base held p)
    (served : S.consumer.Serves S.provided S.ready)
    (done : ∀ i < S.sheet.exports.length, .own i ∈ p.done) :
    (p.done.flatMap S.missingIn).Perm
      (S.sheet.exports.flatMap fun e => missing S.target (some e.name) e.toBody.allUses) := by
  have own : (((List.range S.sheet.exports.length).map .own).flatMap S.missingIn) =
      S.sheet.exports.flatMap fun e => missing S.target (some e.name) e.toBody.allUses := by
    rw [List.flatMap_map, missingIn_exports]
  rw [← own]
  refine perm_flatMap_of_subset inv.once ?_ ?_ ?_
  · exact List.Nodup.map (fun _ _ => BlockRef.own.inj) List.nodup_range
  · intro ref mem
    obtain ⟨i, inside, rfl⟩ := List.mem_map.1 mem
    exact done i (List.mem_range.1 inside)
  · intro ref mem new
    obtain ⟨e, he⟩ := inv.entered ref mem
    cases ref with
    | rule => cases he
    | own i =>
      have inside : i < S.sheet.exports.length := List.getElem?_eq_some_iff.1 he |>.1
      exact absurd (List.mem_map_of_mem (List.mem_range.2 inside)) new
    | foreign path i => exact S.missingIn_foreign served path i

end Outset

end Reuse

end NestedStyles
