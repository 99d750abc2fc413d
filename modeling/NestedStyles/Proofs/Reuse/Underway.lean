import NestedStyles.Proofs.Reuse.Advance

/-!
# How far a pass over any file has come

Whatever names stand for and however blocks use each other, in a circle or not, the blocks of the
file advance while it is resolved, and a name stands for an own export of that name or a block of
another file (`Underway`).

The keys on the watch list are the names of the exports that are being worked on. So a block that is
entered is none of them, and while a block is worked on, the others that are watched stay as they
are (`Stretch.others`).
-/

namespace NestedStyles

/-- The block that a file keeps somewhere. -/
def Stylesheet.block (sheet : Stylesheet) (ref : Reuse.BlockRef) : Body :=
  (Reuse.Pass.start Session.empty sheet).body ref

namespace Reuse

variable {name : String} {sheet : Stylesheet} {p q r : Pass}
variable {active : List String} {u : UseDirective} {ref target : BlockRef} {b t : Body}

/-! ## How far a pass has come -/

/-- A block that is not one of another file depends only on the file. -/
theorem body_congr_of_ne (inner : ∀ source i, ref ≠ .foreign source i) (same : q.sheet = p.sheet) :
    q.body ref = p.body ref := by
  cases ref with
  | own i => exact body_own_congr same
  | rule i =>
    exact congrArg (fun s : Stylesheet => (s.rules[i]?.map StyleRule.body).getD .empty) same
  | foreign source i => exact absurd rfl (inner source i)

theorem body_congr (h : Holds sheet ref) (same : q.sheet = p.sheet) : q.body ref = p.body ref :=
  body_congr_of_ne (by rintro _ _ rfl; exact h) same

/-- What holds of a pass all the time while the file is resolved. -/
structure Underway (sheet : Stylesheet) (p : Pass) : Prop where
  names : p.sheet.exports.map ExportBlock.name = sheet.exports.map ExportBlock.name
  selectors : p.sheet.rules.map StyleRule.selector = sheet.rules.map StyleRule.selector
  imports : p.sheet.imports = sheet.imports
  advances : ∀ ref, Holds sheet ref → (sheet.block ref).Advances (p.body ref)
  registry : ∀ entry ∈ p.registry, MayStandFor sheet p.dependencies entry.1 entry.2
  done : ∀ i, .own i ∈ p.done → (p.body (.own i)).allUses = []

namespace Underway

theorem start (s : Session) (sheet : Stylesheet) : Underway sheet (Pass.start s sheet) where
  names := rfl
  selectors := rfl
  imports := rfl
  advances ref h := by
    have same : (Pass.start s sheet).body ref = sheet.block ref :=
      body_congr (p := Pass.start Session.empty sheet) h rfl
    rw [same]
    exact .refl _
  registry := by simp [Pass.start]
  done := by simp [Pass.start]

theorem holds (h : Underway sheet p) (inside : Holds sheet ref) : Holds p.sheet ref :=
  inside.congr h.names h.selectors

theorem nameOf_eq (h : Underway sheet p) (i : Nat) : p.nameOf (.own i) = exportName sheet i := by
  have same := congrArg (·[i]?) h.names
  simpa [Pass.nameOf, Pass.export?, exportName] using same

theorem length_exports (h : Underway sheet p) : p.sheet.exports.length = sheet.exports.length := by
  have same := congrArg List.length h.names
  rwa [List.length_map, List.length_map] at same

theorem length_rules (h : Underway sheet p) : p.sheet.rules.length = sheet.rules.length := by
  have same := congrArg List.length h.selectors
  rwa [List.length_map, List.length_map] at same

/-- The file is the same, and more files were asked for. -/
theorem congr (h : Underway sheet p) (sheets : q.sheet = p.sheet)
    (registry : q.registry = p.registry) (done : q.done = p.done)
    (asked : p.dependencies ⊆ q.dependencies) : Underway sheet q where
  names := sheets ▸ h.names
  selectors := sheets ▸ h.selectors
  imports := sheets ▸ h.imports
  advances ref inside := body_congr inside sheets ▸ h.advances ref inside
  registry entry mem := (h.registry entry (registry ▸ mem)).mono asked
  done i mem := body_own_congr sheets ▸ h.done i (done ▸ mem)

/-- A block of the file has advanced. -/
theorem setBody (h : Underway sheet p) (inside : Holds sheet ref)
    (advances : (p.body ref).Advances b) : Underway sheet (p.setBody ref b) := by
  have here := h.holds inside
  have bodies : ∀ other, (p.body other).Advances ((p.setBody ref b).body other) := by
    intro other
    by_cases same : other = ref
    · rw [same, Pass.body_setBody_self here]
      exact advances
    · rw [Pass.body_setBody_of_ne here same]
      exact .refl _
  constructor
  case names => rw [Pass.names_setBody, h.names]
  case selectors => rw [Pass.selectors_setBody, h.selectors]
  case imports =>
    rw [← h.imports]
    cases ref <;> rfl
  case advances => exact fun other there => (h.advances other there).trans (bodies other)
  case registry =>
    rw [Pass.registry_setBody, Pass.dependencies_setBody]
    exact h.registry
  case done =>
    intro i done
    rw [Pass.done_setBody] at done
    have none := (bodies (.own i)).uses
    rw [h.done i done] at none
    exact List.subset_nil.1 none

theorem markDone (h : Underway sheet p) (free : ∀ i, ref = .own i → (p.body ref).allUses = []) :
    Underway sheet (p.markDone ref) := by
  refine { h with done := fun i done => ?_ }
  rcases List.mem_cons.1 done with rfl | done
  · exact free i rfl
  · exact h.done i done

theorem register (h : Underway sheet p) (stands : MayStandFor sheet p.dependencies name ref) :
    Underway sheet (p.register name ref) := by
  refine { h with registry := fun entry mem => ?_ }
  rcases Table.mem_of_mem_put mem with rfl | mem
  · exact stands
  · exact h.registry entry mem

/-- Exports that are done have no uses. -/
theorem free_exports (h : Underway sheet p) (done : ∀ i < sheet.exports.length, .own i ∈ p.done) :
    Inquiry.Free p.sheet.exports := by
  intro e mem
  obtain ⟨i, inside, rfl⟩ := List.mem_iff_getElem.1 mem
  have free := h.done i (done i (h.length_exports ▸ inside))
  have here : p.body (.own i) = p.sheet.exports[i].toBody := by
    simp [Pass.body, Pass.export?, inside]
  rwa [here] at free

/-- A use in a block of the file was there at the start. -/
theorem mem_allUses (h : Underway sheet p) (inside : Holds sheet ref)
    (used : u ∈ (p.body ref).allUses) : u ∈ sheet.allUses := by
  have before := (h.advances ref inside).uses used
  exact Outset.mem_allUses (S := Outset.ofSheet "" sheet) inside (by cases ref <;> exact before)

/-- An export can be entered, and its name is watched. -/
theorem enters (h : Underway sheet p) {i depth : Nat} (named : exportName sheet i = some name)
    (enough : sheet.allUses.length < depth) (file : String) :
    name ∈ (p.nameOf (.own i)).toList ∧
      (Outset.ofSheet file sheet).Affords depth (p.nameOf (.own i)).toList ∧ 0 < depth := by
  have owner : p.nameOf (.own i) = some name := (h.nameOf_eq i).trans named
  rw [owner]
  exact ⟨List.mem_singleton_self _, Outset.affords_of_lt enough _, Nat.zero_lt_of_lt enough⟩

end Underway

/-! ## Working on a block -/

/-- The block is a rule, or an export that is being worked on. -/
def Watched (sheet : Stylesheet) (active : List String) : BlockRef → Prop
  | .own i => ∃ n ∈ active, exportName sheet i = some n
  | .rule _ => True
  | .foreign _ _ => False

theorem Watched.mono {more : List String} (h : Watched sheet active ref) (wider : active ⊆ more) :
    Watched sheet more ref := by
  cases ref with
  | own i =>
    obtain ⟨n, watched, named⟩ := h
    exact ⟨n, wider watched, named⟩
  | rule i => trivial
  | foreign => exact h.elim

theorem Watched.body_congr (h : Watched sheet active ref) (same : q.sheet = p.sheet) :
    q.body ref = p.body ref :=
  body_congr_of_ne (by rintro _ _ rfl; exact h) same

/-- What is asked for is not watched. -/
theorem Watched.ne (h : Watched sheet active ref) {asked : List String} (unwatched : name ∉ active)
    (stands : MayStandFor sheet asked name target) : ref ≠ target := by
  rintro rfl
  cases ref with
  | own i =>
    obtain ⟨n, watched, named⟩ := h
    have same : n = name := Option.some.inj (named.symm.trans stands)
    exact unwatched (same ▸ watched)
  | rule i => exact stands
  | foreign => exact h

/-- A stretch of work on a block, in which the others that are watched stay as they are. -/
structure Stretch (sheet : Stylesheet) (active : List String) (ref : BlockRef) (p q : Pass) :
    Prop where
  underway : Underway sheet q
  done : p.done ⊆ q.done
  asked : p.dependencies ⊆ q.dependencies
  others : ∀ other, other ≠ ref → Watched sheet active other → q.body other = p.body other

namespace Stretch

theorem refl (h : Underway sheet p) : Stretch sheet active ref p p :=
  ⟨h, List.Subset.refl _, List.Subset.refl _, fun _ _ _ => rfl⟩

theorem trans (h : Stretch sheet active ref p q) (h' : Stretch sheet active ref q r) :
    Stretch sheet active ref p r where
  underway := h'.underway
  done := List.Subset.trans h.done h'.done
  asked := List.Subset.trans h.asked h'.asked
  others other ne watched := by rw [h'.others other ne watched, h.others other ne watched]

end Stretch

/-- The file has not changed. -/
theorem Stretch.of_sheet (h : Underway sheet q) (same : q.sheet = p.sheet) (done : p.done ⊆ q.done)
    (asked : p.dependencies ⊆ q.dependencies) : Stretch sheet active ref p q where
  underway := h
  done := done
  asked := asked
  others _ _ watched := watched.body_congr same

/-- A block is done at the end. -/
theorem Stretch.markDone (h : Stretch sheet active ref p q) (target : BlockRef)
    (free : ∀ i, target = .own i → (q.body target).allUses = []) :
    Stretch sheet active ref p (q.markDone target) :=
  h.trans (.of_sheet (h.underway.markDone free) rfl (List.subset_cons_self _ _)
    (List.Subset.refl _))

/-- While another block is worked on, one that is watched stays as it is. -/
theorem Stretch.aside {more : List String} (h : Stretch sheet more target p q)
    (wider : active ⊆ more) (apart : ∀ other, Watched sheet active other → other ≠ target) :
    Stretch sheet active ref p q :=
  ⟨h.underway, h.done, h.asked, fun other _ watched =>
    h.others other (apart other watched) (watched.mono wider)⟩

/-- The block has advanced. -/
theorem Stretch.setBody (h : Underway sheet p) (inside : Holds sheet ref)
    (advances : (p.body ref).Advances b) (s : Session) :
    Stretch sheet active ref p { p.setBody ref b with session := s } where
  underway := by
    refine (h.setBody inside advances).congr rfl rfl rfl (List.Subset.refl _)
  done := by
    change p.done ⊆ (p.setBody ref b).done
    rw [Pass.done_setBody]
    exact List.Subset.refl _
  asked := by
    change p.dependencies ⊆ (p.setBody ref b).dependencies
    rw [Pass.dependencies_setBody]
    exact List.Subset.refl _
  others other ne watched := by
    have here : ({ p.setBody ref b with session := s } : Pass).body other =
        (p.setBody ref b).body other := watched.body_congr rfl
    rw [here, Pass.body_setBody_of_ne (h.holds inside) ne]

/-! ## Taking uses away -/

/-- A turn of work on a block, in which uses are taken away at these places. -/
def Works (sheet : Stylesheet) (active : List String) (ref : BlockRef) (places : List (List Nat))
    (p q : Pass) : Prop :=
  Stretch sheet active ref p q ∧ ClearedAt places (p.body ref) (q.body ref)

theorem Works.refl (h : Underway sheet p) : Works sheet active ref [] p p :=
  ⟨.refl h, .refl _⟩

theorem Works.trans {places more : List (List Nat)} (h : Works sheet active ref places p q)
    (h' : Works sheet active ref more q r) : Works sheet active ref (places ++ more) p r :=
  ⟨h.1.trans h'.1, h.2.trans h'.2⟩

/-- At a place that was not cleared the uses are those that were there. -/
theorem Works.content_uses (h : Works sheet active ref [] p q) (path : List Nat) :
    (q.content ⟨ref, path⟩).uses = (p.content ⟨ref, path⟩).uses := by
  rw [Pass.content, h.2 path, if_neg List.not_mem_nil, Pass.content]

/-- The uses that a place had at first are among those of the block until they are taken away. -/
theorem Works.mem_allUses {path : List Nat} (h : Works sheet active ref [] p q)
    (here : u ∈ (p.content ⟨ref, path⟩).uses) : u ∈ (q.body ref).allUses := by
  rw [← h.content_uses path] at here
  exact Body.mem_allUses_of_inside path here

/-- A stretch of work on something else. -/
def Aside (sheet : Stylesheet) (active : List String) (ref : BlockRef) (p q : Pass) : Prop :=
  Stretch sheet active ref p q ∧ q.body ref = p.body ref

theorem Aside.works (h : Aside sheet active ref p q) : Works sheet active ref [] p q :=
  ⟨h.1, h.2 ▸ .refl _⟩

theorem Aside.trans (h : Aside sheet active ref p q) (h' : Aside sheet active ref q r) :
    Aside sheet active ref p r :=
  ⟨h.1.trans h'.1, h'.2.trans h.2⟩

/-- The file has not changed. -/
theorem Aside.of_sheet (watched : Watched sheet active ref) (h : Underway sheet q)
    (same : q.sheet = p.sheet) (done : p.done ⊆ q.done) (asked : p.dependencies ⊆ q.dependencies) :
    Aside sheet active ref p q :=
  ⟨.of_sheet h same done asked, watched.body_congr same⟩

/-- A block of the file does not depend on the session. -/
theorem body_setBody_session (h : Holds p.sheet ref) (s : Session) :
    ({ p.setBody ref b with session := s } : Pass).body ref = b := by
  have same : ({ p.setBody ref b with session := s } : Pass).body ref =
      (p.setBody ref b).body ref := body_congr h rfl
  rw [same, Pass.body_setBody_self h]

theorem nameOf_session (h : Holds sheet ref) (s : Session) :
    ({ p with session := s } : Pass).nameOf ref = p.nameOf ref := by
  cases ref with
  | own | rule => rfl
  | foreign => exact h.elim

theorem setBody_session (h : Holds p.sheet ref) (s : Session) :
    ({ p with session := s } : Pass).setBody ref b = { p.setBody ref b with session := s } := by
  cases ref with
  | own | rule => rfl
  | foreign => exact h.elim

/-- Content without uses is added to a block with uses. -/
theorem Works.append (active : List String) (path : List Nat) (h : Underway sheet p)
    (inside : Holds sheet ref) (used : (p.body ref).allUses ≠ []) (free : t.allUses = [])
    (s : Session) : Works sheet active ref [] p { p.append ⟨ref, path⟩ t with session := s } := by
  have here := h.holds inside
  rw [Pass.append_eq_setBody here]
  refine ⟨.setBody h inside (.append used free path) s, ?_⟩
  rw [body_setBody_session here]
  exact .append free path _

theorem Works.clear (active : List String) (path : List Nat) (h : Underway sheet p)
    (inside : Holds sheet ref) (s : Session) :
    Works sheet active ref [path] p { p.clearUses ⟨ref, path⟩ with session := s } := by
  have here := h.holds inside
  rw [Pass.clearUses_eq_setBody here]
  refine ⟨.setBody h inside (.clear _ path) s, ?_⟩
  rw [body_setBody_session here]
  exact .clear path _

end Reuse

end NestedStyles
