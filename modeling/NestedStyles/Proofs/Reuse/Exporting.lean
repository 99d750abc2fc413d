import NestedStyles.Proofs.Reuse.Inlining
import NestedStyles.Proofs.Reuse.Inquiry

/-!
# Resolving exports in any file

Nothing is asked of the file here: names may be missing, double or used in a circle. Still the
resolution of its exports is an inquiry that asks only for the files which its imports and the uses
in its exports name, and it leaves no use in any of them (`prepare_inquires`).

A block that is entered is not one of those that are being worked on, as the keys on the watch list
are the names of these. So while a block is worked on, its uses change only where the work is
(`Turn.others`).
-/

namespace NestedStyles

namespace Reuse

/-- The absolute path of a file that is named in another one. -/
def pathIn (file source : String) : String :=
  Path.absolute (some (Path.directory (Path.absolute none file))) source

/-- The file that a use names, if it names one. -/
def sourceOf (file : String) (u : UseDirective) : Option String :=
  match u.source.getD "" with
  | "" => none
  | source => some (pathIn file source)

end Reuse

/-- The files that are named by imports and by uses in exports. -/
def Stylesheet.sources (file : String) (sheet : Stylesheet) : List String :=
  sheet.imports.map (fun imp => Reuse.pathIn file imp.source) ++
    (sheet.exports.flatMap fun e => e.toBody.allUses).filterMap (Reuse.sourceOf file)

/-- The files that are named by imports and by uses. -/
def Stylesheet.allSources (file : String) (sheet : Stylesheet) : List String :=
  sheet.imports.map (fun imp => Reuse.pathIn file imp.source) ++
    sheet.allUses.filterMap (Reuse.sourceOf file)

namespace Reuse

variable {file : String} {sheet : Stylesheet} {sources : List String} {p q : Pass}
variable {active : List String} {depth i : Nat} {u : UseDirective} {ref target : BlockRef}
variable {name : String} {path : List Nat}

theorem absolute_pathIn (file source : String) :
    Path.absolute none (pathIn file source) = pathIn file source :=
  Path.absolute_absolute _ _

theorem mem_sources_of_import {imp : ImportDirective} (h : imp ∈ sheet.imports) :
    pathIn file imp.source ∈ sheet.sources file :=
  List.mem_append_left _ (List.mem_map_of_mem h)

theorem sourceOf_qualified (source : u.source.getD "" ≠ "") :
    sourceOf file u = some (pathIn file (u.source.getD "")) := by
  unfold sourceOf
  split
  case _ bare => exact absurd bare source
  case _ => rfl

theorem sourceOf_bare (bare : u.source.getD "" = "") : sourceOf file u = none := by
  simp only [sourceOf, bare]

theorem mem_sources_of_use (h : u ∈ sheet.exports.flatMap fun e => e.toBody.allUses)
    (source : u.source.getD "" ≠ "") : pathIn file (u.source.getD "") ∈ sheet.sources file :=
  List.mem_append_right _ (List.mem_filterMap.2 ⟨u, h, sourceOf_qualified source⟩)

theorem mem_allSources_of_import {imp : ImportDirective} (h : imp ∈ sheet.imports) :
    pathIn file imp.source ∈ sheet.allSources file :=
  List.mem_append_left _ (List.mem_map_of_mem h)

theorem mem_allSources_of_use (h : u ∈ sheet.allUses) (source : u.source.getD "" ≠ "") :
    pathIn file (u.source.getD "") ∈ sheet.allSources file :=
  List.mem_append_right _ (List.mem_filterMap.2 ⟨u, h, sourceOf_qualified source⟩)

/-- Files are named by their absolute paths. -/
theorem absolute_of_mem_sources {d : String} (h : d ∈ sheet.sources file) :
    Path.absolute none d = d := by
  rcases List.mem_append.1 h with h | h
  · obtain ⟨imp, -, rfl⟩ := List.mem_map.1 h
    exact absolute_pathIn file imp.source
  · obtain ⟨u, -, named⟩ := List.mem_filterMap.1 h
    by_cases bare : u.source.getD "" = ""
    · rw [sourceOf_bare bare] at named
      cases named
    · rw [sourceOf_qualified bare] at named
      obtain rfl := Option.some.inj named
      exact absolute_pathIn file (u.source.getD "")

/-! ## How far the exports are resolved -/

/-- The name of an export of the file. -/
def exportName (sheet : Stylesheet) (i : Nat) : Option String :=
  sheet.exports[i]?.map ExportBlock.name

/-- A name may stand for this: an own export of that name, or a block of a file that was asked
for. -/
def MayStandFor (sheet : Stylesheet) (asked : List String) (name : String) : BlockRef → Prop
  | .own i => exportName sheet i = some name
  | .foreign path _ => path ∈ asked
  | .rule _ => False

theorem MayStandFor.mono {asked asked' : List String} (h : MayStandFor sheet asked name ref)
    (grown : asked ⊆ asked') : MayStandFor sheet asked' name ref := by
  cases ref with
  | own i => exact h
  | foreign path i => exact grown h
  | rule i => exact h

theorem lt_of_exportName (h : exportName sheet i = some name) : i < sheet.exports.length := by
  obtain ⟨e, found, -⟩ := Option.map_eq_some_iff.1 h
  exact (List.getElem?_eq_some_iff.1 found).1

section

variable {k : Nat} {before after : List Nat}

/-- Where the exports are gone through by their index, there is a name for each. -/
theorem exists_standsFor (same : k = sheet.exports.length)
    (split : List.range k = before ++ i :: after) (asked : List String) :
    ∃ name, MayStandFor sheet asked name (.own i) := by
  have inside : i < sheet.exports.length := same ▸ lt_of_split split
  exact ⟨_, congrArg (Option.map ExportBlock.name) (List.getElem?_eq_getElem inside)⟩

/-- Where the rules are gone through by their index, each is one of the file. -/
theorem holds_rule (same : k = sheet.rules.length) (split : List.range k = before ++ i :: after) :
    Holds sheet (.rule i) := by
  change i < sheet.rules.length
  exact same ▸ lt_of_split split

end

/-- What holds of a pass all the time while the exports of the file are resolved. -/
structure Progress (sheet : Stylesheet) (p : Pass) : Prop where
  names : p.sheet.exports.map ExportBlock.name = sheet.exports.map ExportBlock.name
  imports : p.sheet.imports = sheet.imports
  uses : ∀ i, (p.body (.own i)).allUses ⊆ sheet.exports.flatMap fun e => e.toBody.allUses
  registry : ∀ entry ∈ p.registry, MayStandFor sheet p.dependencies entry.1 entry.2
  done : ∀ i, .own i ∈ p.done → (p.body (.own i)).allUses = []
  free : ∀ path ∈ p.dependencies, Inquiry.Free (p.session.exports path)
  canonical : ∀ path ∈ p.dependencies, Path.absolute none path = path

/-- A block has no uses at a place where another one has none. -/
theorem allUses_subset {b b' : Body}
    (h : ∀ path, (b'.inside path).uses ⊆ (b.inside path).uses) : b'.allUses ⊆ b.allUses := by
  intro u used
  obtain ⟨path, there⟩ := Body.mem_allUses_iff.1 used
  exact Body.mem_allUses_iff.2 ⟨path, h path there⟩

namespace Progress

theorem start (sheet : Stylesheet) : Progress sheet (Pass.start Session.empty sheet) where
  names := rfl
  imports := rfl
  uses i := by
    intro u used
    change u ∈ ((sheet.exports[i]?.map ExportBlock.toBody).getD .empty).allUses at used
    cases found : sheet.exports[i]? with
    | none =>
      rw [found] at used
      exact absurd used List.not_mem_nil
    | some e =>
      rw [found] at used
      exact List.mem_flatMap.2 ⟨e, List.mem_of_getElem? found, used⟩
  registry := by simp [Pass.start]
  done := by simp [Pass.start]
  free := by simp [Pass.start]
  canonical := by simp [Pass.start]

theorem exportName_eq (h : Progress sheet p) (i : Nat) :
    p.nameOf (.own i) = exportName sheet i := by
  have same := congrArg (·[i]?) h.names
  simpa [Pass.nameOf, Pass.export?, exportName] using same

theorem length_exports (h : Progress sheet p) : p.sheet.exports.length = sheet.exports.length := by
  have same := congrArg List.length h.names
  rwa [List.length_map, List.length_map] at same

theorem holds (h : Progress sheet p) (inside : i < sheet.exports.length) :
    Holds p.sheet (.own i) := by
  have here : i < p.sheet.exports.length := h.length_exports ▸ inside
  exact here

/-- A block that may be asked for has no uses if it is one of another file or done. -/
theorem free_of_done (h : Progress sheet p) (stands : MayStandFor sheet p.dependencies name ref)
    (done : ∀ i, ref = .own i → ref ∈ p.done) : (p.body ref).allUses = [] := by
  cases ref with
  | own i => exact h.done i (done i rfl)
  | rule i => exact stands.elim
  | foreign path i =>
    change (((p.session.exports path)[i]?.map ExportBlock.toBody).getD .empty).allUses = []
    cases found : (p.session.exports path)[i]? with
    | none => rfl
    | some e => exact h.free path stands e (List.mem_of_getElem? found)

/-- The content of an own export has changed, and there are no more uses anywhere. -/
theorem setBody (h : Progress sheet p) (inside : i < sheet.exports.length) {b : Body}
    (fewer : ∀ path, (b.inside path).uses ⊆ ((p.body (.own i)).inside path).uses) :
    Progress sheet (p.setBody (.own i) b) := by
  have here := h.holds inside
  have below := allUses_subset fewer
  constructor
  case names => rw [Pass.names_setBody, h.names]
  case imports => exact h.imports
  case uses =>
    intro j
    by_cases same : BlockRef.own j = .own i
    · rw [same, Pass.body_setBody_self here]
      exact List.Subset.trans below (h.uses i)
    · rw [Pass.body_setBody_of_ne here same]
      exact h.uses j
  case registry => exact h.registry
  case done =>
    intro j done
    rw [Pass.done_setBody] at done
    by_cases same : BlockRef.own j = .own i
    · rw [same] at done ⊢
      rw [Pass.body_setBody_self here]
      rw [h.done i done] at below
      exact List.subset_nil.1 below
    · rw [Pass.body_setBody_of_ne here same]
      exact h.done j done
  case free => exact h.free
  case canonical => exact h.canonical

theorem markDone (h : Progress sheet p) (free : ∀ i, ref = .own i → (p.body ref).allUses = []) :
    Progress sheet (p.markDone ref) := by
  refine { h with done := fun i done => ?_ }
  rcases List.mem_cons.1 done with rfl | done
  · exact free i rfl
  · exact h.done i done

theorem register (h : Progress sheet p) (stands : MayStandFor sheet p.dependencies name ref) :
    Progress sheet (p.register name ref) := by
  refine { h with registry := fun entry mem => ?_ }
  rcases Table.mem_of_mem_put mem with rfl | mem
  · exact stands
  · exact h.registry entry mem

end Progress

theorem mem_depend (p : Pass) (source : String) : source ∈ (p.depend source).dependencies := by
  rw [Pass.depend]
  split
  case isTrue h => exact h
  case isFalse => exact List.mem_append_right _ (List.mem_singleton_self _)

theorem subset_depend (p : Pass) (source : String) :
    p.dependencies ⊆ (p.depend source).dependencies := by
  rw [Pass.depend]
  split
  case isTrue => exact List.Subset.refl _
  case isFalse => exact List.subset_append_left _ _

theorem mem_depend_iff {p : Pass} {source d : String} (h : d ∈ (p.depend source).dependencies) :
    d = source ∨ d ∈ p.dependencies := by
  rw [Pass.depend] at h
  split at h
  case isTrue => exact .inr h
  case isFalse => exact (List.mem_append.1 h).symm.imp_left List.mem_singleton.1

/-- The pass once it has been answered. -/
def Pass.told (p : Pass) (source : String) (es : List ExportBlock) : Pass :=
  { p.depend source with session := p.session.store source es }

theorem exports_told {source d : String} {es : List ExportBlock} (ne : d ≠ source)
    (canonical : Path.absolute none d = d) (canonical' : Path.absolute none source = source) :
    (p.told source es).session.exports d = p.session.exports d := by
  have other : Path.absolute none d ≠ Path.absolute none source := by rwa [canonical, canonical']
  rw [Session.exports, Session.exports, Session.exports?, Session.exports?]
  exact congrArg (Option.getD · []) (Table.lookup_put_of_ne other es p.session.library)

theorem exports_told_self (p : Pass) (source : String) (es : List ExportBlock) :
    (p.told source es).session.exports source = es := by
  change Option.getD ((p.session.store source es).exports? source) [] = es
  rw [Session.exports?_store_self, Option.getD_some]

theorem Progress.told (h : Progress sheet p) {source : String} {es : List ExportBlock}
    (canonical : Path.absolute none source = source) (free : Inquiry.Free es) :
    Progress sheet (p.told source es) := by
  refine { h with registry := ?_, free := ?_, canonical := ?_ }
  · intro entry mem
    exact (h.registry entry mem).mono (subset_depend p source)
  · intro d mem
    by_cases same : d = source
    · rw [same, exports_told_self]
      exact free
    · have old : d ∈ p.dependencies := (mem_depend_iff mem).resolve_left same
      rw [exports_told same (h.canonical d old) canonical]
      exact h.free d old
  · intro d mem
    rcases mem_depend_iff mem with rfl | old
    · exact canonical
    · exact h.canonical d old

/-! ## Asking for blocks -/

/-- Asking for the exports of a file is asking one question. -/
theorem exportsOf_inquires (file : String) (h : Progress sheet p) {source : String}
    (asks : source ∈ sources) (canonical : Path.absolute none source = source) :
    Inquires file sources (fun c => exportsOf c source) p fun es q =>
      q = p.told source es ∧ Inquiry.Free es := by
  refine ⟨.ask source fun es => .done (es, p.told source es), ?_, asks, fun es free => ⟨rfl, free⟩⟩
  intro S load s answers asked stands
  have here : S.asked source := by
    apply asked
    rw [Inquiry.asked]
    exact List.mem_cons_self
  obtain ⟨s', run, ready, kept, others⟩ := answers.load source s here stands.ready
  rw [Inquiry.result, Inquiry.asked]
  cases found : S.answer source with
  | error e =>
    rw [found] at run
    exact ⟨{ p.depend source with session := s' }, exportsOf_of_error run, ready⟩
  | ok es =>
    rw [found] at run
    have known : S.kept source s' := kept es found
    have read : s'.exports source = es := answers.exports source s' es here ready known found
    refine ⟨s', ?_, ⟨ready, fun d mem => ?_⟩, subset_depend p source,
      List.cons_subset.2 ⟨mem_depend p source, List.nil_subset _⟩⟩
    · rw [← read]
      exact exportsOf_of_ok run
    · by_cases same : d = source
      · rw [same, exports_told_self]
        exact ⟨here, known, found⟩
      · have old : d ∈ p.dependencies := (mem_depend_iff mem).resolve_left same
        obtain ⟨asked', kept', answer⟩ := stands.known d old
        rw [exports_told same (h.canonical d old) canonical]
        exact ⟨asked', others d asked' kept', answer⟩

/-- A fault that is written down. -/
theorem report_inquires {next : Consumer → Fault} {Q : Unit → Pass → Prop} (h : Q () p) :
    Inquires file sources (fun c => modify (·.report c (next c))) p Q :=
  .of_log (fun load _ => ⟨[.fault file (next ⟨file, load⟩)], rfl⟩) h

/-- A use asks for nothing there is, or for a block that its key may stand for. -/
theorem lookup_inquires (h : Progress sheet p) (owner : Option String)
    (used : u ∈ sheet.exports.flatMap fun e => e.toBody.allUses) :
    Inquires file (sheet.sources file) (fun c => lookup c owner u) p fun found q =>
      Progress sheet q ∧ q.sheet = p.sheet ∧ q.done = p.done ∧ p.dependencies ⊆ q.dependencies ∧
        ∀ c : Consumer, ∀ ref, found = some ref →
          MayStandFor sheet q.dependencies (c.keyOf u) ref := by
  by_cases bare : u.source.getD "" = ""
  · simp only [Outset.lookup_bare bare]
    refine .get_bind (fun _ _ _ => rfl) ?_
    cases named : p.registry.lookup u.name with
    | some ref =>
      refine .of_pure ⟨h, rfl, rfl, List.Subset.refl _, ?_⟩
      rintro c _ ⟨⟩
      rw [Consumer.keyOf_bare bare]
      exact h.registry _ (Table.mem_of_lookup named)
    | none =>
      refine .bind (Q := fun _ q => q = p) (report_inquires rfl) ?_
      rintro _ _ rfl
      exact .of_pure ⟨h, rfl, rfl, List.Subset.refl _, by rintro _ _ ⟨⟩⟩
  · simp only [Outset.lookup_qualified bare]
    have canonical := absolute_pathIn file (u.source.getD "")
    have asks := exportsOf_inquires file h (mem_sources_of_use used bare) canonical
    refine .bind (asks.congr fun _ => rfl) ?_
    rintro es _ ⟨rfl, free⟩
    have told := h.told canonical free
    cases found : findExport u.name es with
    | some i =>
      refine .congr (fun _ => rfl) (.of_pure
        (a := some (.foreign (pathIn file (u.source.getD "")) i))
        ⟨told, rfl, rfl, subset_depend p _, ?_⟩)
      rintro c _ ⟨⟩
      exact mem_depend p _
    | none =>
      refine .bind (Q := fun _ q => q = p.told (pathIn file (u.source.getD "")) es)
        (report_inquires rfl) ?_
      rintro _ _ rfl
      exact .of_pure ⟨told, rfl, rfl, subset_depend p _, by rintro _ _ ⟨⟩⟩

/-! ## Working on a block -/

/-- What a step does that works on the export with index `i` while the keys in `active` are
watched: it leaves the other exports alone whose names are among them. -/
structure Turn (sheet : Stylesheet) (active : List String) (i : Nat) (p q : Pass) : Prop where
  progress : Progress sheet q
  done : p.done ⊆ q.done
  dependencies : p.dependencies ⊆ q.dependencies
  others : ∀ j n, j ≠ i → exportName sheet j = some n → n ∈ active →
    q.body (.own j) = p.body (.own j)

/-- An export depends only on the file. -/
theorem body_own_congr (same : q.sheet = p.sheet) : q.body (.own i) = p.body (.own i) :=
  congrArg (fun s : Stylesheet => (s.exports[i]?.map ExportBlock.toBody).getD .empty) same

namespace Turn

theorem refl (h : Progress sheet p) : Turn sheet active i p p :=
  ⟨h, List.Subset.refl _, List.Subset.refl _, fun _ _ _ _ _ => rfl⟩

theorem trans {r : Pass} (h : Turn sheet active i p q) (h' : Turn sheet active i q r) :
    Turn sheet active i p r where
  progress := h'.progress
  done := List.Subset.trans h.done h'.done
  dependencies := List.Subset.trans h.dependencies h'.dependencies
  others j n ne named watched := by
    rw [h'.others j n ne named watched, h.others j n ne named watched]

/-- The file has not changed. -/
theorem of_sheet (h : Progress sheet q) (same : q.sheet = p.sheet) (done : p.done ⊆ q.done)
    (dependencies : p.dependencies ⊆ q.dependencies) : Turn sheet active i p q :=
  ⟨h, done, dependencies, fun _ _ _ _ _ => body_own_congr same⟩

/-- Only the content of the export has changed. -/
theorem of_setBody (h : Progress sheet p) (inside : i < sheet.exports.length) {b : Body}
    (fewer : ∀ path, (b.inside path).uses ⊆ ((p.body (.own i)).inside path).uses) :
    Turn sheet active i p (p.setBody (.own i) b) where
  progress := h.setBody inside fewer
  done := List.Subset.refl _
  dependencies := List.Subset.refl _
  others _ _ ne _ _ :=
    Pass.body_setBody_of_ne (h.holds inside) fun same => ne (BlockRef.own.inj same)

end Turn

/-- The uses in an export are as they were, except at these places, where there are none. -/
def Cleared (i : Nat) (places : List (List Nat)) (p q : Pass) : Prop :=
  ClearedAt places (p.body (.own i)) (q.body (.own i))

theorem Cleared.of_body_eq (same : q.body (.own i) = p.body (.own i)) : Cleared i [] p q := by
  rw [Cleared, same]
  exact .refl _

theorem Cleared.trans {places more : List (List Nat)} {r : Pass} (h : Cleared i places p q)
    (h' : Cleared i more q r) : Cleared i (places ++ more) p r :=
  ClearedAt.trans h h'

/-- Only uses of the export are taken away. -/
theorem Cleared.setBody {places : List (List Nat)} (active : List String) (h : Progress sheet p)
    (inside : i < sheet.exports.length) {b : Body}
    (cleared : ClearedAt places (p.body (.own i)) b) :
    Turn sheet active i p (p.setBody (.own i) b) ∧ Cleared i places p (p.setBody (.own i) b) := by
  refine ⟨.of_setBody h inside cleared.fewer, ?_⟩
  rw [Cleared, Pass.body_setBody_self (h.holds inside)]
  exact cleared

/-- A copied block has no uses and brings none. -/
theorem copy_turn (active : List String) (path : List Nat) (h : Progress sheet p)
    (inside : i < sheet.exports.length) {t : Body} (free : t.allUses = []) :
    Turn sheet active i p (p.append ⟨.own i, path⟩ t) ∧
      Cleared i [] p (p.append ⟨.own i, path⟩ t) := by
  rw [Pass.append_eq_setBody (h.holds inside)]
  exact Cleared.setBody active h inside (.append free path _)

theorem clear_turn (active : List String) (path : List Nat) (h : Progress sheet p)
    (inside : i < sheet.exports.length) :
    Turn sheet active i p (p.clearUses ⟨.own i, path⟩) ∧
      Cleared i [path] p (p.clearUses ⟨.own i, path⟩) := by
  rw [Pass.clearUses_eq_setBody (h.holds inside)]
  exact Cleared.setBody active h inside (.clear path _)

/-- A block that may be asked for is the same in every session that can stand in. -/
theorem Sees.export?_eq {s : Session} (sees : Sees p s)
    (stands : MayStandFor sheet p.dependencies name ref) :
    { p with session := s }.export? ref = p.export? ref := by
  cases ref with
  | own i => rfl
  | rule i => rfl
  | foreign path i =>
    change (s.exports path)[i]? = (p.session.exports path)[i]?
    rw [sees.2 path stands]

theorem Sees.body_eq {s : Session} (sees : Sees p s)
    (stands : MayStandFor sheet p.dependencies name ref) :
    { p with session := s }.body ref = p.body ref := by
  have same := sees.export?_eq stands
  cases ref with
  | own i => rfl
  | rule i => rfl
  | foreign path i => exact congrArg (fun e => (Option.map ExportBlock.toBody e).getD .empty) same

/-- A block without uses is copied into an export, and this is noted. -/
theorem copy_inquires (h : Progress sheet p) (inside : i < sheet.exports.length)
    (stands : MayStandFor sheet p.dependencies name target) (other : target ≠ .own i)
    (free : (p.body target).allUses = []) :
    Inquires file sources (fun c => do
        copyBlock ⟨.own i, path⟩ target
        inSession (modify (·.log [.inlined c.file u.name]))) p
      fun _ q => q = p.append ⟨.own i, path⟩ (p.body target) := by
  refine .quiet (a := ()) (q := p.append ⟨.own i, path⟩ (p.body target))
    (fun load s sees => ⟨[.inlined file u.name], ?_⟩) rfl (fun _ _ => rfl) rfl
  have none : (p.body target).uses = [] := Body.uses_inside_of_free free []
  have copied : Runs (copyBlock ⟨.own i, path⟩ target) { p with session := s } _ :=
    copyBlock_appends (h.holds inside) other (sees.body_eq stands) none
  obtain ⟨_, _, run, rfl⟩ := copied
  exact bind_of_ok run

/-! ## Entering blocks -/

/-- The file by itself. -/
def Outset.ofSheet (file : String) (sheet : Stylesheet) : Outset :=
  ⟨⟨file, fun _ => pure ()⟩, fun _ => [], fun _ => True, sheet, [], [], []⟩

/-- With so many blocks to enter every export is left without uses. -/
def Drains (file : String) (sheet : Stylesheet) (depth : Nat) : Prop :=
  ∀ {active p i n}, Progress sheet p → exportName sheet i = some n → n ∈ active →
    (Outset.ofSheet file sheet).Affords depth active → 0 < depth →
    Inquires file (sheet.sources file) (fun c => resolveBlock c depth active (.own i)) p
      fun _ q => Turn sheet active i p q ∧ (q.body (.own i)).allUses = []

/-- A block is resolved before it is copied. -/
theorem settle_inquires (active : List String) (drains : Drains file sheet depth)
    (h : Progress sheet p) (stands : MayStandFor sheet p.dependencies name target)
    (own : ∀ i, target = .own i → name ∈ active ∧
      (Outset.ofSheet file sheet).Affords depth active ∧ 0 < depth) :
    Inquires file (sheet.sources file) (fun c => do
        resolveBlock c depth active target
        modify (·.markDone target)) p fun _ q =>
      Progress sheet q ∧ p.done ⊆ q.done ∧ p.dependencies ⊆ q.dependencies ∧ target ∈ q.done ∧
        ∀ j n, .own j ≠ target → exportName sheet j = some n → n ∈ active →
          q.body (.own j) = p.body (.own j) := by
  cases target with
  | rule i => exact stands.elim
  | own i =>
    obtain ⟨watched, affords, enough⟩ := own i rfl
    refine .bind (drains h stands watched affords enough) ?_
    rintro _ q ⟨turn, free⟩
    refine .of_modify (q.markDone (.own i)) (fun _ _ => rfl) rfl rfl
      ⟨?_, ?_, turn.dependencies, List.mem_cons_self, ?_⟩
    · exact turn.progress.markDone fun j same => same ▸ free
    · exact List.subset_cons_of_subset _ turn.done
    · exact fun j n ne => turn.others j n fun same => ne (congrArg _ same)
  | foreign path i =>
    have free : (p.body (.foreign path i)).allUses = [] := h.free_of_done stands (by rintro _ ⟨⟩)
    refine .bind (Q := fun _ q => q = p) (.quiet (a := ()) (q := p)
      (fun load s sees => ⟨[], ?_⟩) rfl (fun _ _ => rfl) rfl) ?_
    · have same := sees.body_eq stands
      have unchanged : Runs (resolveBlock ⟨file, load⟩ depth active (.foreign path i))
          { p with session := s } _ := resolveBlock_foreign depth sees.1 (same ▸ free)
      obtain ⟨_, _, run, rfl⟩ := unchanged
      rw [Session.log, List.append_nil]
      exact run
    · rintro _ q rfl
      refine .of_modify (q.markDone (.foreign path i)) (fun _ _ => rfl) rfl rfl
        ⟨h.markDone (by rintro _ ⟨⟩), List.subset_cons_self _ _, List.Subset.refl _,
          List.mem_cons_self, fun _ _ _ _ _ => rfl⟩

/-- A block that is done is copied to where it is used. -/
theorem copyDone_inquires (inside : i < sheet.exports.length) (turn : Turn sheet active i p q)
    (kept : Cleared i [] p q) (stands : MayStandFor sheet q.dependencies name target)
    (other : target ≠ .own i) (done : target ∈ q.done) :
    Inquires file sources (fun c => do
        copyBlock ⟨.own i, path⟩ target
        inSession (modify (·.log [.inlined c.file u.name]))) q
      fun _ r => Turn sheet active i p r ∧ Cleared i [] p r := by
  have free := turn.progress.free_of_done stands fun _ _ => done
  refine (copy_inquires turn.progress inside stands other free).imp ?_
  rintro _ _ rfl
  have copied := copy_turn active path turn.progress inside free
  exact ⟨turn.trans copied.1, kept.trans copied.2⟩

/-- A use at a place gives way to what it asks for, which leaves no use. -/
theorem inlineUse_inquires (drains : Drains file sheet depth) (h : Progress sheet p)
    (named : exportName sheet i = some name) (watched : name ∈ active)
    (affords : (Outset.ofSheet file sheet).Affords (depth + 1) active) (owner : Option String)
    (used : u ∈ sheet.exports.flatMap fun e => e.toBody.allUses) :
    Inquires file (sheet.sources file)
      (fun c => inlineUse c (resolveBlock c depth) active owner ⟨.own i, path⟩ u) p
      fun _ q => Turn sheet active i p q ∧ Cleared i [] p q := by
  have inside := lt_of_exportName named
  unfold inlineUse
  by_cases watching : (Outset.ofSheet file sheet).consumer.keyOf u ∈ active
  · exact .of_pos (fun _ => watching) (report_inquires ⟨.refl h, .of_body_eq rfl⟩)
  refine .of_neg (fun _ => watching) (.bind (lookup_inquires h owner used) ?_)
  rintro found q ⟨progress, sheets, dones, asked, stands⟩
  have looked : Turn sheet active i p q := .of_sheet progress sheets (dones ▸ .refl _) asked
  have kept : Cleared i [] p q := .of_body_eq (body_own_congr sheets)
  cases found with
  | none => exact .of_pure ⟨looked, kept⟩
  | some target =>
    have stands := stands (Outset.ofSheet file sheet).consumer target rfl
    have apart : ∀ j n, exportName sheet j = some n → n ∈ active → .own j ≠ target := by
      rintro j n named watched rfl
      have same : n = _ := Option.some.inj (named.symm.trans stands)
      exact watching (same ▸ watched)
    have other := apart i name named watched
    refine .get_bind (fun _ _ _ => rfl) ?_
    by_cases done : target ∈ q.done
    · refine .of_neg (fun _ => not_not_intro done) ?_
      exact copyDone_inquires inside looked kept stands other.symm done
    · have enough := affords.enter watching (List.mem_append_left _ used)
      have settled := settle_inquires (_ :: active) drains progress stands fun _ _ =>
        ⟨List.mem_cons_self, enough⟩
      refine .of_pos (fun _ => done) (.assoc (.bind (settled.congr fun _ => rfl) ?_))
      rintro _ r ⟨progress', dones', asked', done, frame⟩
      have entered : Turn sheet active i q r :=
        ⟨progress', dones', asked', fun j n _ named watched =>
          frame j n (apart j n named watched) named (List.mem_cons_of_mem _ watched)⟩
      have same := frame i name other named (List.mem_cons_of_mem _ watched)
      exact copyDone_inquires inside (looked.trans entered) (kept.trans (.of_body_eq same))
        (stands.mono asked') other.symm done

/-- At a place all uses give way, and there are none then. -/
theorem inlineAt_inquires (drains : Drains file sheet depth) (h : Progress sheet p)
    (named : exportName sheet i = some name) (watched : name ∈ active)
    (affords : (Outset.ofSheet file sheet).Affords (depth + 1) active) (owner : Option String) :
    Inquires file (sheet.sources file)
      (fun c => inlineAt c (resolveBlock c depth) active owner (.own i) path) p
      fun _ q => Turn sheet active i p q ∧ Cleared i [path] p q := by
  refine .get_bind (fun _ _ _ => rfl) (.bind (.forM
    (I := fun _ q => Turn sheet active i p q ∧ Cleared i [] p q) ⟨.refl h, .of_body_eq rfl⟩ ?_) ?_)
  · rintro before u after split q ⟨turn, kept⟩
    have used : u ∈ sheet.exports.flatMap fun e => e.toBody.allUses := by
      apply h.uses i
      have here : u ∈ (p.content ⟨.own i, path⟩).uses := mem_of_split split
      exact Body.mem_allUses_of_inside path here
    refine (inlineUse_inquires drains turn.progress named watched affords owner used).imp ?_
    rintro _ r ⟨turn', kept'⟩
    exact ⟨turn.trans turn', kept.trans kept'⟩
  · rintro _ q ⟨turn, kept⟩
    have cleared := clear_turn active path turn.progress (lt_of_exportName named)
    exact .of_modify (q.clearUses ⟨.own i, path⟩) (fun _ _ => rfl) rfl rfl
      ⟨turn.trans cleared.1, kept.trans cleared.2⟩

/-- Any number of blocks to enter is enough for the exports that can be entered with it. -/
theorem drains (file : String) (sheet : Stylesheet) (depth : Nat) : Drains file sheet depth := by
  induction depth with
  | zero =>
    intro _ _ _ _ _ _ _ _ enough
    exact absurd enough (Nat.lt_irrefl 0)
  | succ depth ih =>
    intro active p i n h named watched affords _
    refine .get_bind (fun _ _ _ => rfl) (.imp (.forM
      (I := fun before q => Turn sheet active i p q ∧ Cleared i before p q)
      ⟨.refl h, .of_body_eq rfl⟩ ?_) ?_)
    · rintro before path after _ q ⟨turn, cleared⟩
      refine (inlineAt_inquires ih turn.progress named watched affords _).imp ?_
      rintro _ r ⟨turn', cleared'⟩
      exact ⟨turn.trans turn', cleared.trans cleared'⟩
    · rintro _ q ⟨turn, cleared⟩
      exact ⟨turn, ClearedAt.free cleared⟩

/-! ## Resolving the exports -/

/-- An export is done afterwards. -/
theorem resolveExport_inquires (h : Progress sheet p)
    (stands : MayStandFor sheet p.dependencies name ref) (enough : sheet.allUses.length < depth) :
    Inquires file (sheet.sources file) (fun c => resolveExport c depth ref) p fun _ q =>
      Progress sheet q ∧ p.done ⊆ q.done ∧ p.dependencies ⊆ q.dependencies ∧ ref ∈ q.done := by
  refine .get_bind (fun load s sees => ?_) ?_
  · have same : { p with session := s }.nameOf ref = p.nameOf ref :=
      congrArg (Option.map ExportBlock.name) (sees.export?_eq stands)
    rw [same]
  by_cases done : ref ∈ p.done
  · refine .of_neg (fun _ => not_not_intro done) ?_
    exact .of_pure ⟨h, List.Subset.refl _, List.Subset.refl _, done⟩
  · have drains : Drains file sheet depth := drains file sheet depth
    refine .of_pos (fun _ => done) (.imp (settle_inquires _ drains h stands ?_) ?_)
    · rintro i rfl
      have owner : p.nameOf (.own i) = some name := (h.exportName_eq i).trans stands
      rw [owner]
      exact ⟨List.mem_singleton_self _, Outset.affords_of_lt enough _, Nat.zero_lt_of_lt enough⟩
    · rintro _ q ⟨progress, dones, asked, here, -⟩
      exact ⟨progress, dones, asked, here⟩

/-- The exports of the file get their names. -/
theorem registerExports_inquires (h : Progress sheet p) :
    Inquires file sources registerExports p fun _ q => Progress sheet q := by
  refine .get_bind (fun _ _ _ => rfl) (.forM (I := fun _ q => Progress sheet q) h ?_)
  rintro before ⟨e, i⟩ after split q h'
  have found : p.sheet.exports[i]? = some e := getElem?_of_split split
  have named : exportName sheet i = some e.name := by
    rw [← h.exportName_eq i]
    exact congrArg (Option.map ExportBlock.name) found
  have registered : Progress sheet (q.register e.name (.own i)) := h'.register named
  refine .get_bind (fun _ _ _ => rfl) ?_
  by_cases double : (q.registry.lookup e.name).isSome
  · refine .of_pos (fun _ => double) (.bind (Q := fun _ r => r = q) (report_inquires rfl) ?_)
    rintro _ q rfl
    exact .of_modify (q.register e.name (.own i)) (fun _ _ => rfl) rfl rfl registered
  · refine .of_neg (fun _ => double) ?_
    exact .of_modify (q.register e.name (.own i)) (fun _ _ => rfl) rfl rfl registered

/-- The names of an import get their blocks. -/
theorem applyImport_inquires (h : Progress sheet p) {imp : ImportDirective}
    (mem : imp ∈ sheet.imports) : Inquires file (sheet.sources file)
      (fun c => applyImport c imp) p fun _ q => Progress sheet q := by
  have canonical := absolute_pathIn file imp.source
  have asks := exportsOf_inquires file h (mem_sources_of_import mem) canonical
  refine .bind (asks.congr fun _ => rfl) ?_
  rintro es q ⟨rfl, free⟩
  refine .imp (.forM (I := fun _ r => Progress sheet r ∧ pathIn file imp.source ∈ r.dependencies)
    ⟨h.told canonical free, mem_depend p _⟩ ?_) fun _ _ h => h.1
  rintro before name after _ r ⟨progress, asked⟩
  cases found : (exportTable es).lookup name with
  | some i =>
    let block := BlockRef.foreign (pathIn file imp.source) i
    have stands : MayStandFor sheet r.dependencies name block := asked
    exact .of_modify (r.register name block) (fun _ _ => rfl) rfl rfl
      ⟨progress.register stands, asked⟩
  | none => exact report_inquires ⟨progress, asked⟩

/-- Resolving the exports asks only for the files that are named in the file, and no use is left in
the exports. -/
theorem prepare_inquires (file : String) (enough : sheet.allUses.length < depth) :
    Inquires file (sheet.sources file) (fun c => prepare c depth)
      (Pass.start Session.empty sheet) fun _ q => Inquiry.Free q.sheet.exports := by
  refine .bind (registerExports_inquires (Progress.start sheet)) fun _ p h => ?_
  refine .get_bind (fun _ _ _ => rfl) ?_
  rw [h.imports]
  refine .bind (.forM (I := fun _ q => Progress sheet q) h ?_) ?_
  · intro before imp after split q h
    exact applyImport_inquires h (mem_of_split split)
  intro _ p h
  refine .get_bind (fun _ _ _ => rfl) ?_
  refine .bind (.forM (I := fun _ q => Progress sheet q ∧ p.dependencies ⊆ q.dependencies)
    ⟨h, List.Subset.refl _⟩ ?_) ?_
  · rintro before ⟨name, ref⟩ after split q ⟨h', asked⟩
    have mem : (name, ref) ∈ p.registry := mem_of_split split
    refine (resolveExport_inquires h' ((h.registry _ mem).mono asked) enough).imp ?_
    rintro _ r ⟨h'', -, asked', -⟩
    exact ⟨h'', List.Subset.trans asked asked'⟩
  rintro _ p ⟨h, -⟩
  refine .get_bind (fun _ _ _ => rfl) ?_
  refine .imp (.forM (I := fun before q => Progress sheet q ∧ ∀ i ∈ before, .own i ∈ q.done)
    ⟨h, fun i mem => absurd mem List.not_mem_nil⟩ ?_) ?_
  · rintro before i after split q ⟨h', resolved⟩
    obtain ⟨name, stands⟩ := exists_standsFor h.length_exports split q.dependencies
    refine (resolveExport_inquires h' stands enough).imp ?_
    rintro _ r ⟨h'', dones, -, here⟩
    refine ⟨h'', fun j mem => ?_⟩
    rcases List.mem_append.1 mem with mem | mem
    · exact dones (resolved j mem)
    · exact List.mem_singleton.1 mem ▸ here
  · rintro _ q ⟨h', resolved⟩ e mem
    obtain ⟨i, inside, rfl⟩ := List.mem_iff_getElem.1 mem
    have done : .own i ∈ q.done := by
      apply resolved
      rw [List.mem_range, h.length_exports, ← h'.length_exports]
      exact inside
    have free := h'.done i done
    have here : q.body (.own i) = q.sheet.exports[i].toBody := by
      simp [Pass.body, Pass.export?, inside]
    rwa [here] at free

end Reuse

end NestedStyles
