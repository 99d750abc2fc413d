import NestedStyles.Proofs.Reuse.Occurrences
import NestedStyles.Proofs.Reuse.OwnFirst

/-!
# What a pass does, action by action

A pass asks for files, gives names their blocks and answers uses, by the content of a block where
the use stands or by a fault. `PassAction` has one constructor for each of these, and
`PassAction.perform` says what becomes of the pass. `PassAction.Fits` is what must be so in the pass
for the action to be right: a use gives way only to the block that it asks for, and it is left out
only for a reason that is given. In a list of actions each one is to fit the pass that the ones
before it have left (`Fitting`).

With a loader that leaves alone what is known, the block that a use gives way to is there and has
the name of the use (`Fitting.exists_block`). What the pass writes into the journal tells how many
uses were answered (`Fitting.answered_events`).
-/

namespace NestedStyles

namespace Reuse

open Relation

variable {c : Consumer} {sheet : Stylesheet} {p q : Pass} {u : UseDirective} {ref target : BlockRef}
variable {found : Option BlockRef} {s : Session} {actions more : List PassAction}

/-! ## What a use asks for -/

/-- What the use asks for is `found`, which may be nothing: the block that its name stands for, or
the first of that name in the file that it names. That file was asked for then. -/
def Consumer.Finds (c : Consumer) (p : Pass) (u : UseDirective) (found : Option BlockRef) : Prop :=
  match u.source.getD "" with
  | "" => found = p.registry.lookup u.name
  | source => c.pathOf source ∈ p.dependencies ∧ found =
      (findExport u.name (p.session.exports (c.pathOf source))).map (.foreign (c.pathOf source))

theorem finds_bare (bare : u.source.getD "" = "") :
    c.Finds p u found ↔ found = p.registry.lookup u.name := by
  simp only [Consumer.Finds, bare]

theorem finds_qualified (source : u.source.getD "" ≠ "") : c.Finds p u found ↔
    c.pathOf (u.source.getD "") ∈ p.dependencies ∧ found =
      (findExport u.name (p.session.exports (c.pathOf (u.source.getD "")))).map
        (.foreign (c.pathOf (u.source.getD ""))) := by
  unfold Consumer.Finds
  split
  case _ bare => exact absurd bare source
  case _ => exact Iff.rfl

/-- An own export is asked for by its name alone, so it is found as long as names stand for what
they stood for. -/
theorem Consumer.Finds.own {i : Nat} (h : c.Finds p u (some (.own i)))
    (same : q.registry = p.registry) : c.Finds q u (some (.own i)) := by
  by_cases bare : u.source.getD "" = ""
  · rw [finds_bare bare] at h ⊢
    rw [same, h]
  · obtain ⟨-, other⟩ := (finds_qualified bare).1 h
    obtain ⟨_, -, impossible⟩ := Option.map_eq_some_iff.1 other.symm
    cases impossible

/-! ## Actions -/

/-- Something that a pass does. -/
inductive PassAction
  /-- The exports of a file are asked for. -/
  | ask (path : String)
  /-- A name gets its block. -/
  | register (name : String) (ref : BlockRef)
  /-- A fault of the exports or imports is written down. -/
  | note (fault : Fault)
  /-- The content of a block is added where the use stands, and this is written down. -/
  | inline (answered : Occurrence) (target : BlockRef)
  /-- The use is left out, and the reason is written down. -/
  | refuse (answered : Occurrence) (fault : Fault)
  /-- The uses at a place are taken away. -/
  | clear (place : Place)
  /-- A block is done. -/
  | finish (ref : BlockRef)
  deriving DecidableEq, Repr

/-- The name of the export that is kept somewhere. -/
def ownerIn (sheet : Stylesheet) : BlockRef → Option String
  | .own i => exportName sheet i
  | _ => none

namespace PassAction

/-- What the pass itself writes down. -/
def events (file : String) : PassAction → List Event
  | note fault | refuse _ fault => [.fault file fault]
  | inline o _ => [.inlined file o.use.name]
  | ask _ | register _ _ | clear _ | finish _ => []

/-- What becomes of a pass. -/
def perform (c : Consumer) (p : Pass) : PassAction → Pass
  | ask path => { p.depend path with session := (c.load path p.session).2 }
  | register name ref => p.register name ref
  | note fault | refuse _ fault => p.report c fault
  | inline o target =>
    { p.append o.place (p.body target) with
      session := p.session.log [.inlined c.file o.use.name] }
  | clear place => p.clearUses place
  | finish ref => p.markDone ref

/-- The occurrence that is answered. -/
def answer? : PassAction → Option Occurrence
  | inline o _ | refuse o _ => some o
  | _ => none

/-- The action gives a name its block, or writes down why it cannot. -/
def isNaming : PassAction → Bool
  | register _ _ | note _ => true
  | _ => false

/-- The action is right in this pass.
- Only files are asked for that are named in the file.
- A name gets an own export of that name, or the last block of that name in a file that was asked
  for and that the name is imported from. If there is no such block, this is written down.
- A use gives way to the block that it asks for, which has no uses any more.
- A use is left out because its block leads back to itself, or because it asks for nothing there
  is. -/
def Fits (c : Consumer) (sheet : Stylesheet) (p : Pass) : PassAction → Prop
  | ask path => path ∈ sheet.allSources c.file
  | register name (.own i) => exportName sheet i = some name
  | register name (.foreign path i) => path ∈ p.dependencies ∧
      (∃ imp ∈ sheet.imports, name ∈ imp.names ∧ c.pathOf imp.source = path) ∧
        (exportTable (p.session.exports path)).lookup name = some i
  | register _ (.rule _) => False
  | note (.duplicateExport name) => ∃ e ∈ sheet.exports, e.name = name
  | note (.importNotFound name source available) => c.pathOf source ∈ p.dependencies ∧
      (exportTable (p.session.exports (c.pathOf source))).lookup name = none ∧
        available = (exportTable (p.session.exports (c.pathOf source))).map (·.1)
  | note _ => False
  | inline o target => c.Finds p o.use (some target) ∧ (p.body target).allUses = []
  | refuse o fault =>
    (fault = .circularUse (ownerIn sheet o.place.block) o.use.name ∧
        TransGen (c.UsesKey sheet) (c.keyOf o.use) (c.keyOf o.use)) ∨
      (fault = faultOf (ownerIn sheet o.place.block) o.use ∧ c.Finds p o.use none)
  | clear place => Holds sheet place.block
  | finish _ => True

end PassAction

/-- The occurrences that are answered, one after the other. -/
def answers (actions : List PassAction) : List Occurrence :=
  actions.filterMap PassAction.answer?

/-- Each action fits the pass in which it is performed, the first one this pass. -/
def Fitting (c : Consumer) (sheet : Stylesheet) : Pass → List PassAction → Prop
  | _, [] => True
  | p, a :: actions => a.Fits c sheet p ∧ Fitting c sheet (a.perform c p) actions

theorem fitting_append : Fitting c sheet p (actions ++ more) ↔
    Fitting c sheet p actions ∧ Fitting c sheet (actions.foldl (PassAction.perform c) p) more := by
  induction actions generalizing p with
  | nil => exact (iff_of_eq (true_and _)).symm
  | cons a actions ih => rw [List.cons_append, Fitting, Fitting, ih, List.foldl_cons, and_assoc]

/-! ## What stays as it is -/

theorem Pass.registry_modifyContent (p : Pass) (place : Place) (change : Body → Body) :
    (p.modifyContent place change).registry = p.registry := by
  obtain ⟨block, path⟩ := place
  cases block <;> rfl

theorem Pass.dependencies_modifyContent (p : Pass) (place : Place) (change : Body → Body) :
    (p.modifyContent place change).dependencies = p.dependencies := by
  obtain ⟨block, path⟩ := place
  cases block <;> rfl

theorem Pass.journal_modifyContent (p : Pass) (place : Place) (change : Body → Body) :
    (p.modifyContent place change).session.journal = p.session.journal := by
  obtain ⟨block, path⟩ := place
  cases block <;> rfl

theorem Pass.names_modifyContent (p : Pass) (place : Place) (change : Body → Body) :
    (p.modifyContent place change).sheet.exports.map ExportBlock.name =
      p.sheet.exports.map ExportBlock.name := by
  obtain ⟨block, path⟩ := place
  cases block with
  | own i => exact map_modify_of_eq (f := ExportBlock.modifyBody _) (fun _ => rfl) _ i
  | rule | foreign => rfl

/-- Without an action that names something, names stand for what they stood for. -/
theorem registry_foldl_perform (others : ∀ a ∈ actions, a.isNaming = false) :
    (actions.foldl (PassAction.perform c) p).registry = p.registry := by
  induction actions generalizing p with
  | nil => rfl
  | cons a actions ih =>
    obtain ⟨other, others⟩ := List.forall_mem_cons.1 others
    rw [List.foldl_cons, ih others]
    cases a with
    | register | note => cases other
    | ask | refuse | finish => rfl
    | inline o target => exact Pass.registry_modifyContent p o.place _
    | clear place => exact Pass.registry_modifyContent p place _

/-- Only files that are named in the file are asked for. -/
theorem Fitting.dependencies_subset (fits : Fitting c sheet p actions) :
    (actions.foldl (PassAction.perform c) p).dependencies ⊆
      p.dependencies ++ sheet.allSources c.file := by
  induction actions generalizing p with
  | nil => exact List.subset_append_left _ _
  | cons a actions ih =>
    obtain ⟨first, rest⟩ := fits
    refine List.Subset.trans (ih rest) (List.append_subset.2 ⟨?_, List.subset_append_right _ _⟩)
    have same (still : (a.perform c p).dependencies = p.dependencies) :
        (a.perform c p).dependencies ⊆ p.dependencies ++ sheet.allSources c.file :=
      still ▸ List.subset_append_left _ _
    cases a with
    | ask path =>
      intro d mem
      rcases mem_depend_iff mem with rfl | old
      · exact List.mem_append_right _ first
      · exact List.mem_append_left _ old
    | register | note | refuse | finish => exact same rfl
    | inline o target => exact same (Pass.dependencies_modifyContent p o.place _)
    | clear place => exact same (Pass.dependencies_modifyContent p place _)

/-! ## Blocks that are there -/

/-- What is known is known still after a file was asked for, and it is the same. -/
def Consumer.Retains (c : Consumer) : Prop :=
  ∀ path s, s.Clean → ∀ q es, s.exports? q = some es → (c.load path s).2.exports? q = some es

/-- The exports have the names they had at first, and each name stands for a block that has it. -/
structure Sound (sheet : Stylesheet) (p : Pass) : Prop where
  clean : p.session.Clean
  names : p.sheet.exports.map ExportBlock.name = sheet.exports.map ExportBlock.name
  registry : ∀ entry ∈ p.registry, p.nameOf entry.2 = some entry.1

namespace Sound

theorem start (clean : s.Clean) (sheet : Stylesheet) : Sound sheet (Pass.start s sheet) :=
  ⟨clean, rfl, fun _ mem => absurd mem List.not_mem_nil⟩

/-- Own exports have their names as long as the file has. -/
theorem nameOf_own {i : Nat} (same : q.sheet.exports.map ExportBlock.name =
    p.sheet.exports.map ExportBlock.name) : q.nameOf (.own i) = p.nameOf (.own i) := by
  have entry := congrArg (·[i]?) same
  simpa [Pass.nameOf, Pass.export?] using entry

/-- Nothing was done to the library and the names. -/
theorem congr (h : Sound sheet p) (library : q.session.library = p.session.library)
    (names : q.sheet.exports.map ExportBlock.name = p.sheet.exports.map ExportBlock.name)
    (registry : q.registry = p.registry) : Sound sheet q where
  clean := ⟨library ▸ h.clean.keys, library ▸ h.clean.free⟩
  names := names.trans h.names
  registry entry mem := by
    have before := h.registry entry (registry ▸ mem)
    rw [← before]
    cases entry.2 with
    | own i => exact nameOf_own names
    | rule i => rfl
    | foreign path i =>
      rw [Pass.nameOf, Pass.nameOf, Pass.export?, Pass.export?,
        Session.exports_of_library library]

/-- A name gets its block. -/
theorem register (h : Sound sheet p) {name : String} (named : p.nameOf ref = some name) :
    Sound sheet (p.register name ref) := by
  refine { h with registry := fun entry mem => ?_ }
  rcases Table.mem_of_mem_put mem with rfl | mem
  · exact named
  · exact h.registry entry mem

/-- A file is asked for. -/
theorem ask (h : Sound sheet p) (supplies : c.Supplies) (retains : c.Retains) (path : String) :
    Sound sheet ((PassAction.ask path).perform c p) := by
  obtain ⟨s', run, clean⟩ := supplies path p.session h.clean
  have after : ((PassAction.ask path).perform c p).session = s' := congrArg Prod.snd run
  refine ⟨after ▸ clean, h.names, fun entry mem => ?_⟩
  have before := h.registry entry mem
  obtain ⟨name, ref⟩ := entry
  cases ref with
  | own | rule => exact before
  | foreign source i =>
    obtain ⟨e, there, named⟩ := Option.map_eq_some_iff.1 before
    cases known : p.session.exports? source with
    | none => simp [Pass.export?, Session.exports, known] at there
    | some es =>
      have same : ((PassAction.ask path).perform c p).session.exports source =
          p.session.exports source := by
        have kept := retains path p.session h.clean source es known
        rw [Session.exports, Session.exports, known]
        exact congrArg (·.getD []) kept
      refine Option.map_eq_some_iff.2 ⟨e, ?_, named⟩
      rw [Pass.export?, same]
      exact there

/-- What fits keeps the pass sound. -/
theorem perform (h : Sound sheet p) (supplies : c.Supplies) (retains : c.Retains) {a : PassAction}
    (fits : a.Fits c sheet p) : Sound sheet (a.perform c p) := by
  cases a with
  | ask path => exact h.ask supplies retains path
  | note | refuse | finish => exact h.congr rfl rfl rfl
  | inline o target =>
    exact h.congr rfl (Pass.names_modifyContent p o.place _) (Pass.registry_modifyContent p o.place _)
  | clear place =>
    refine h.congr ?_ (Pass.names_modifyContent p place _) (Pass.registry_modifyContent p place _)
    obtain ⟨block, path⟩ := place
    cases block with
    | own | rule => rfl
    | foreign => exact fits.elim
  | register name ref =>
    refine h.register ?_
    cases ref with
    | own i =>
      have named := congrArg (·[i]?) h.names
      simp only [List.getElem?_map] at named
      exact named.trans fits
    | rule i => exact fits.elim
    | foreign path i =>
      obtain ⟨-, -, there⟩ := fits
      exact Option.map_eq_some_iff.2 (exists_of_lookup_exportTable there)

/-- So does a list of actions that fit. -/
theorem foldl_perform (h : Sound sheet p) (supplies : c.Supplies) (retains : c.Retains)
    (fits : Fitting c sheet p actions) : Sound sheet (actions.foldl (PassAction.perform c) p) := by
  induction actions generalizing p with
  | nil => exact h
  | cons a actions ih => exact ih (h.perform supplies retains fits.1) fits.2

/-- What a use asks for has its name. -/
theorem nameOf_of_finds (h : Sound sheet p) (finds : c.Finds p u (some target)) :
    p.nameOf target = some u.name := by
  by_cases bare : u.source.getD "" = ""
  · rw [finds_bare bare] at finds
    exact h.registry _ (Table.mem_of_lookup finds.symm)
  · obtain ⟨-, found⟩ := (finds_qualified bare).1 finds
    obtain ⟨i, index, rfl⟩ := Option.map_eq_some_iff.1 found.symm
    exact Option.map_eq_some_iff.2 (Outset.exists_of_findExport index)

end Sound

/-- With a loader that leaves alone what is known, each use gives way to the content of a block that
is there and has the name of the use. -/
theorem Fitting.exists_block (supplies : c.Supplies) (retains : c.Retains) (clean : s.Clean)
    {before after : List PassAction} {o : Occurrence}
    (fits : Fitting c sheet (Pass.start s sheet) (before ++ .inline o target :: after)) :
    ∃ e, (before.foldl (PassAction.perform c) (Pass.start s sheet)).export? target = some e ∧
      e.name = o.use.name ∧
        (before.foldl (PassAction.perform c) (Pass.start s sheet)).body target = e.toBody := by
  obtain ⟨earlier, ⟨finds, -⟩, -⟩ := fitting_append.1 fits
  have sound := (Sound.start clean sheet).foldl_perform supplies retains earlier
  obtain ⟨e, there, named⟩ := Option.map_eq_some_iff.1 (sound.nameOf_of_finds finds)
  refine ⟨e, there, named, ?_⟩
  cases target with
  | own | foreign => exact congrArg (fun e? => (e?.map ExportBlock.toBody).getD .empty) there
  | rule i => cases there

/-! ## What is written down -/

/-- A use of the file gave way to a block. -/
def Event.inlines (file : String) : Event → Bool
  | .inlined file' _ => file' == file
  | _ => false

/-- How often a use of the file gave way to a block or could not. -/
def answered (file : String) (events : List Event) : Nat :=
  events.countP (Event.inlines file) + (useFaults file events).length

@[simp] theorem answered_append (file : String) (events more : List Event) :
    answered file (events ++ more) = answered file events + answered file more := by
  simp only [answered, List.countP_append, useFaults_append, List.length_append]
  omega

/-- A use is left out with a fault of its own. -/
theorem isOfUse_of_refuse {o : Occurrence} {fault : Fault}
    (fits : (PassAction.refuse o fault).Fits c sheet p) : fault.isOfUse = true := by
  rcases fits with ⟨rfl, -⟩ | ⟨rfl, -⟩
  · rfl
  · rw [Fault.isOfUse, rule_faultOf]
    rfl

/-- No fault of a use is written down when names get their blocks. -/
theorem isOfUse_of_note {fault : Fault} (fits : (PassAction.note fault).Fits c sheet p) :
    fault.isOfUse = false := by
  cases fault with
  | duplicateExport | importNotFound => rfl
  | usedNotExported | usedUndefined | circularUse | circularImport | missingFile => exact fits.elim

/-- What is written down when an occurrence is answered, and only that, tells so. -/
theorem PassAction.Fits.answered_events {a : PassAction} (fits : a.Fits c sheet p) (file : String) :
    answered file (a.events file) = a.answer?.toList.length := by
  cases a with
  | refuse o fault =>
    simp [PassAction.events, PassAction.answer?, answered, Event.inlines, useFaults,
      isOfUse_of_refuse fits]
  | note fault =>
    simp [PassAction.events, PassAction.answer?, answered, Event.inlines, useFaults,
      isOfUse_of_note fits]
  | inline o target =>
    simp [PassAction.events, PassAction.answer?, answered, Event.inlines, useFaults]
  | ask | register | clear | finish => rfl

/-- So as many answers were written down as there were. -/
theorem Fitting.answered_events (fits : Fitting c sheet p actions) (file : String) :
    answered file (actions.flatMap (PassAction.events file)) = (answers actions).length := by
  induction actions generalizing p with
  | nil => rfl
  | cons a actions ih =>
    obtain ⟨first, fits⟩ := fits
    rw [List.flatMap_cons, answered_append, first.answered_events, ih fits]
    cases here : a.answer? <;> simp [answers, here, Nat.add_comm]

/-- With a loader that answers no uses of the file itself, the journal tells how many were answered
by the pass. -/
theorem answered_perform {a : PassAction}
    (others : ∀ path s, answered c.file (c.load path s).2.journal = answered c.file s.journal) :
    answered c.file (a.perform c p).session.journal =
      answered c.file p.session.journal + answered c.file (a.events c.file) := by
  cases a with
  | ask path => exact others path p.session
  | register | finish => rfl
  | note | refuse => exact answered_append ..
  | inline o target => exact answered_append ..
  | clear place => exact congrArg (answered c.file) (Pass.journal_modifyContent p place _)

theorem answered_foldl_perform
    (others : ∀ path s, answered c.file (c.load path s).2.journal = answered c.file s.journal)
    (actions : List PassAction) (p : Pass) :
    answered c.file (actions.foldl (PassAction.perform c) p).session.journal =
      answered c.file p.session.journal +
        answered c.file (actions.flatMap (PassAction.events c.file)) := by
  induction actions generalizing p with
  | nil => rfl
  | cons a actions ih =>
    rw [List.foldl_cons, ih, answered_perform others, List.flatMap_cons, answered_append,
      Nat.add_assoc]

end Reuse

end NestedStyles
