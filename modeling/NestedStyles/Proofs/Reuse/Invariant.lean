import Mathlib.Data.List.Perm.Basic
import Mathlib.Logic.Relation
import NestedStyles.Proofs.Reuse.Steps

/-!
# What holds between the steps of a resolution

`Outset` collects what a pass starts from: the file, the blocks of other files and what names stand
for. `Outset.Inv` says how far the pass has come. The blocks that are being worked on are held with
the content they have now. All other exports are either as they were or done, and then they are
expanded and each use in them that asks for nothing has been reported once.
-/

namespace NestedStyles

open Function

namespace Reuse

/-! ## Faults of uses -/

/-- The fault is one of a use. -/
def Fault.isOfUse (f : Fault) : Bool :=
  f.rule == "unknown-use" || f.rule == "circular-use"

/-- The faults of uses that were reported for a file. -/
def useFaults (file : String) (events : List Event) : List Fault :=
  events.filterMap fun
    | .fault f φ => if f = file ∧ φ.isOfUse then some φ else none
    | _ => none

@[simp] theorem useFaults_append (file : String) (events more : List Event) :
    useFaults file (events ++ more) = useFaults file events ++ useFaults file more :=
  List.filterMap_append

theorem useFaults_fault {file : String} {φ : Fault} (h : φ.isOfUse = true) :
    useFaults file [.fault file φ] = [φ] := by
  simp [useFaults, h]

/-! ## Loaders -/

/-- The loader makes the same blocks known whenever a file is asked for, they have different names
and no uses, and it reports no faults of uses for the file of the pass. -/
structure Consumer.Serves (c : Consumer) (provided : String → List ExportBlock)
    (ready : Session → Prop) : Prop where
  load : ∀ path s, ready s → ∃ s', c.load path s = (.ok (), s') ∧ ready s' ∧
    s'.exports path = provided path ∧
    (∀ other, s.exports other = provided other → s'.exports other = provided other) ∧
    useFaults c.file s'.journal = useFaults c.file s.journal
  log : ∀ s events, ready s → ready (s.log events)
  keys : ∀ s, ready s → (s.library.map Prod.fst).Nodup
  distinct : ∀ path, ((provided path).map ExportBlock.name).Nodup
  free : ∀ path, ∀ b ∈ provided path, b.toBody.allUses = []

/-! ## What a pass starts from -/

/-- What a pass starts from, once it is known what names stand for. -/
structure Outset where
  consumer : Consumer
  /-- The blocks that each file provides. -/
  provided : String → List ExportBlock
  /-- The sessions in which the loader works. -/
  ready : Session → Prop
  sheet : Stylesheet
  registry : List (String × BlockRef)
  /-- The files whose blocks names stand for. -/
  known : List String
  /-- The exports that are done already. -/
  settled : List BlockRef

namespace Outset

/-- What a use asks for. -/
def target (S : Outset) (u : UseDirective) : Option Body :=
  S.consumer.target S.provided S.sheet u

/-- The export that is kept somewhere at the start. -/
def export? (S : Outset) : BlockRef → Option ExportBlock
  | .own i => S.sheet.exports[i]?
  | .foreign path i => (S.provided path)[i]?
  | .rule _ => none

/-- The block that is kept somewhere at the start. -/
def body (S : Outset) (ref : BlockRef) : Body :=
  match ref with
  | .rule i => (S.sheet.rules[i]?.map StyleRule.body).getD .empty
  | ref => ((S.export? ref).map ExportBlock.toBody).getD .empty

/-- The name of an export. A rule has none. -/
def nameOf (S : Outset) (ref : BlockRef) : Option String :=
  (S.export? ref).map ExportBlock.name

/-- The faults of the uses in a block that ask for nothing there is. -/
def missingIn (S : Outset) (ref : BlockRef) : List Fault :=
  missing S.target (S.nameOf ref) (S.body ref).allUses

/-- Names stand for the blocks they should stand for, if `part` is what the file says about them. -/
structure Registered (S : Outset) (part : Stylesheet) : Prop where
  finds : ∀ name, (S.registry.lookup name).bind S.export? =
    S.consumer.blockNamed S.provided part name
  named : ∀ entry ∈ S.registry, ∃ e, S.export? entry.2 = some e ∧ e.name = entry.1
  known : ∀ entry ∈ S.registry, ∀ path i, entry.2 = .foreign path i → path ∈ S.known

/-- How far a pass has come. `base` are the faults of uses apart from those in the exports that are
done, and `held` are the blocks that are being worked on, with their content now. -/
structure Inv (S : Outset) (base : List Fault) (held : BlockRef → Option Body) (p : Pass) :
    Prop where
  registry : p.registry = S.registry
  names : p.sheet.exports.map ExportBlock.name = S.sheet.exports.map ExportBlock.name
  selectors : p.sheet.rules.map StyleRule.selector = S.sheet.rules.map StyleRule.selector
  known : ∀ path ∈ S.known, path ∈ p.dependencies
  asked : ∀ path ∈ p.dependencies, p.session.exports path = S.provided path
  ready : S.ready p.session
  settled : S.settled ⊆ p.done
  once : p.done.Nodup
  entered : ∀ ref ∈ p.done, ∃ e, S.export? ref = some e
  expanded : ∀ i, .own i ∈ p.done → Expands S.target (S.body (.own i)) (p.body (.own i))
  untouched : ∀ i, .own i ∉ p.done → held (.own i) = none → p.body (.own i) = S.body (.own i)
  holds : ∀ ref b, held ref = some b → Holds S.sheet ref ∧ ref ∉ p.done ∧ p.body ref = b
  faults : (useFaults S.consumer.file p.session.journal).Perm (base ++ p.done.flatMap S.missingIn)

/-- A block of another file has no uses. -/
theorem free_foreign (S : Outset) (served : S.consumer.Serves S.provided S.ready) {path : String}
    {i : Nat} : (S.body (.foreign path i)).allUses = [] := by
  change (((S.provided path)[i]?.map ExportBlock.toBody).getD .empty).allUses = []
  cases h : (S.provided path)[i]? with
  | none => rfl
  | some e => exact served.free path e (List.mem_of_getElem? h)

/-- So nothing is missing in it. -/
theorem missingIn_foreign (S : Outset) (served : S.consumer.Serves S.provided S.ready)
    (path : String) (i : Nat) : S.missingIn (.foreign path i) = [] := by
  rw [missingIn, S.free_foreign served, missing_nil]

namespace Inv

variable {S : Outset} {base : List Fault} {held : BlockRef → Option Body} {p : Pass}
variable {ref : BlockRef} {b b' : Body}

theorem length_exports (inv : S.Inv base held p) :
    p.sheet.exports.length = S.sheet.exports.length := by
  have same := congrArg List.length inv.names
  rwa [List.length_map, List.length_map] at same

theorem length_rules (inv : S.Inv base held p) :
    p.sheet.rules.length = S.sheet.rules.length := by
  have same := congrArg List.length inv.selectors
  rwa [List.length_map, List.length_map] at same

theorem holds_sheet (inv : S.Inv base held p) (h : Holds S.sheet ref) : Holds p.sheet ref :=
  h.congr inv.names inv.selectors

theorem nameOf_eq (inv : S.Inv base held p) (h : Holds S.sheet ref) :
    p.nameOf ref = S.nameOf ref := by
  cases ref with
  | own i =>
    have names := congrArg (·[i]?) inv.names
    simpa [Pass.nameOf, Pass.export?, Outset.nameOf, Outset.export?] using names
  | rule => rfl
  | foreign => exact h.elim

theorem body_held (inv : S.Inv base (update held ref (some b)) p) : p.body ref = b :=
  (inv.holds ref b (update_self ..)).2.2

/-- A block of the file does not depend on the session. -/
theorem body_session {s : Session} (h : Holds S.sheet ref) :
    { p with session := s }.body ref = p.body ref := by
  cases ref with
  | own | rule => rfl
  | foreign => exact h.elim

/-- Only the session has changed. -/
theorem of_session {base' : List Fault} {s : Session} (inv : S.Inv base held p) (ready : S.ready s)
    (asked : ∀ path ∈ p.dependencies, s.exports path = S.provided path)
    (faults : (useFaults S.consumer.file s.journal).Perm (base' ++ p.done.flatMap S.missingIn)) :
    S.Inv base' held { p with session := s } where
  registry := inv.registry
  names := inv.names
  selectors := inv.selectors
  known := inv.known
  asked := asked
  ready := ready
  settled := inv.settled
  once := inv.once
  entered := inv.entered
  expanded := inv.expanded
  untouched := inv.untouched
  holds ref b h := by
    obtain ⟨here, open_, content⟩ := inv.holds ref b h
    exact ⟨here, open_, (body_session here).trans content⟩
  faults := faults

/-- The content of a block that is being worked on has changed. -/
theorem setBody (inv : S.Inv base (update held ref (some b)) p) (b' : Body) :
    S.Inv base (update held ref (some b')) (p.setBody ref b') := by
  obtain ⟨inside, open_, -⟩ := inv.holds ref b (update_self ..)
  have here := inv.holds_sheet inside
  have other {i : Nat} (done : .own i ∈ p.done) : BlockRef.own i ≠ ref := by
    rintro rfl
    exact open_ done
  constructor
  case registry => rw [Pass.registry_setBody, inv.registry]
  case names => rw [Pass.names_setBody, inv.names]
  case selectors => rw [Pass.selectors_setBody, inv.selectors]
  case known => simpa using inv.known
  case asked => simpa [Pass.session_setBody here] using inv.asked
  case ready => simpa [Pass.session_setBody here] using inv.ready
  case settled => simpa using inv.settled
  case once => simpa using inv.once
  case entered => simpa using inv.entered
  case expanded =>
    intro i done
    rw [Pass.done_setBody] at done
    rw [Pass.body_setBody_of_ne here (other done)]
    exact inv.expanded i done
  case untouched =>
    intro i new free
    rw [Pass.done_setBody] at new
    have ne : BlockRef.own i ≠ ref := by
      rintro rfl
      simp at free
    rw [update_of_ne ne] at free
    rw [Pass.body_setBody_of_ne here ne]
    exact inv.untouched i new (by rwa [update_of_ne ne])
  case holds =>
    intro r c h
    rw [Pass.done_setBody]
    by_cases same : r = ref
    · subst same
      obtain rfl : b' = c := by simpa using h
      exact ⟨inside, open_, Pass.body_setBody_self here⟩
    · rw [update_of_ne same] at h
      obtain ⟨rest, open', content⟩ := inv.holds r c (by rwa [update_of_ne same])
      exact ⟨rest, open', by rw [Pass.body_setBody_of_ne here same, content]⟩
  case faults => simpa [Pass.session_setBody here] using inv.faults

/-- A fault of a use is written down. -/
theorem report (served : S.consumer.Serves S.provided S.ready) (inv : S.Inv base held p) {φ : Fault}
    (h : φ.isOfUse = true) : S.Inv (base ++ [φ]) held (p.report S.consumer φ) := by
  refine inv.of_session (served.log _ _ inv.ready) inv.asked ?_
  rw [Session.log, useFaults_append, useFaults_fault h]
  refine (inv.faults.append_right [φ]).trans ?_
  rw [List.append_assoc, List.append_assoc]
  exact List.perm_append_comm.append_left base

/-- A use has given way to a block. -/
theorem log_inlined (served : S.consumer.Serves S.provided S.ready) (inv : S.Inv base held p)
    (file name : String) :
    S.Inv base held { p with session := p.session.log [.inlined file name] } := by
  refine inv.of_session (served.log _ _ inv.ready) inv.asked ?_
  rw [Session.log, useFaults_append]
  simpa [useFaults] using inv.faults

/-- Work on an export begins. -/
theorem hold (inv : S.Inv base held p) {i : Nat} (inside : i < S.sheet.exports.length)
    (new : .own i ∉ p.done) (free : held (.own i) = none) :
    S.Inv base (update held (.own i) (some (S.body (.own i)))) p := by
  refine { inv with untouched := ?_, holds := ?_ }
  · intro j newj freej
    by_cases same : BlockRef.own j = .own i
    · rw [same, update_self] at freej
      cases freej
    · exact inv.untouched j newj (by rwa [update_of_ne same] at freej)
  · intro r c h
    by_cases same : r = .own i
    · subst same
      obtain rfl : S.body (.own i) = c := by simpa using h
      exact ⟨inside, new, inv.untouched i new free⟩
    · exact inv.holds r c (by rwa [update_of_ne same] at h)

/-- An export is done that was not: if it is one of the file, it is expanded, and it is worked on no
more. -/
theorem markDone {held' : BlockRef → Option Body} {e : ExportBlock}
    (inv : S.Inv (base ++ S.missingIn ref) held' p) (he : S.export? ref = some e)
    (new : ref ∉ p.done)
    (expands : ∀ i, ref = .own i → Expands S.target (S.body ref) (p.body ref))
    (free : held ref = none) (others : ∀ r, r ≠ ref → held' r = held r) :
    S.Inv base held (p.markDone ref) := by
  refine { inv with settled := ?_, once := ?_, entered := ?_, expanded := ?_, untouched := ?_,
                    holds := ?_, faults := ?_ }
  · exact List.Subset.trans inv.settled (List.subset_cons_self _ _)
  · exact List.nodup_cons.2 ⟨new, inv.once⟩
  · exact List.forall_mem_cons.2 ⟨⟨e, he⟩, inv.entered⟩
  · intro i hi
    rcases List.mem_cons.1 hi with rfl | hi
    · exact expands i rfl
    · exact inv.expanded i hi
  · intro i newi freei
    have ne := List.ne_of_not_mem_cons newi
    exact inv.untouched i (List.not_mem_of_not_mem_cons newi) (by rwa [others _ ne])
  · intro r c h
    have ne : r ≠ ref := by
      rintro rfl
      rw [free] at h
      cases h
    obtain ⟨here, open_, content⟩ := inv.holds r c (by rwa [others r ne])
    exact ⟨here, List.not_mem_cons_of_ne_of_not_mem ne open_, content⟩
  · refine inv.faults.trans ?_
    rw [List.append_assoc]
    exact List.Perm.refl _

/-- Blocks of other files are never worked on. -/
theorem free_of_foreign (inv : S.Inv base held p) (path : String) (i : Nat) :
    held (.foreign path i) = none := by
  cases h : held (.foreign path i) with
  | none => rfl
  | some b => exact (inv.holds _ b h).1.elim

end Inv

end Outset

end Reuse

end NestedStyles
