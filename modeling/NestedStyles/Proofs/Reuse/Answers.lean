import NestedStyles.Proofs.Reuse.Draining

/-!
# What becomes of each use

No use of a file is lost while it is resolved: it still stands in its block, or it was answered
(`Answered`). The file it names was asked for then, and what its name stands for is done, unless the
use was circular. An export is done only after all that its uses ask for, so the order in which
exports are done is one in which they do not use each other in a circle (`Traced.order`).

Circular uses enter through `noted`, which is to hold of every session in which one was reported.
-/

namespace NestedStyles

namespace Reuse

variable {L : Loading} {noted : Session → Prop} {file source name : String} {sheet : Stylesheet}
variable {p q r : Pass} {active : List String} {depth i : Nat} {u : UseDirective}
variable {ref target : BlockRef} {path : List Nat} {b : Body}

/-! ## Answers -/

/-- What is noted of a session stays noted, and so is that a use of the file is circular. -/
structure Notes (L : Loading) (file : String) (noted : Session → Prop) : Prop where
  grows : ∀ {s t}, L.grows s t → noted s → noted t
  circular : ∀ (s : Session) owner name, noted (s.log [.fault file (.circularUse owner name)])

/-- The file that a use names was asked for. What a name stands for is done, unless a circular use
was noted. -/
structure Answered (file : String) (noted : Session → Prop) (p : Pass) (u : UseDirective) :
    Prop where
  asked : ∀ source, sourceOf file u = some source → source ∈ p.dependencies
  found : sourceOf file u = none →
    noted p.session ∨ ∀ ref, p.registry.lookup u.name = some ref → ref ∈ p.done

/-- Names stand for what they stood for, and nothing else is taken back. -/
structure Onward (noted : Session → Prop) (p q : Pass) : Prop where
  registry : q.registry = p.registry
  done : p.done ⊆ q.done
  asked : p.dependencies ⊆ q.dependencies
  noted : noted p.session → noted q.session

namespace Onward

theorem refl (p : Pass) : Onward noted p p :=
  ⟨rfl, List.Subset.refl _, List.Subset.refl _, id⟩

theorem trans (h : Onward noted p q) (h' : Onward noted q r) : Onward noted p r :=
  ⟨h'.registry.trans h.registry, List.Subset.trans h.done h'.done,
    List.Subset.trans h.asked h'.asked, fun note => h'.noted (h.noted note)⟩

theorem markDone (p : Pass) (ref : BlockRef) : Onward noted p (p.markDone ref) :=
  ⟨rfl, List.subset_cons_self _ _, List.Subset.refl _, id⟩

theorem setBody (here : Holds p.sheet ref) : Onward noted p (p.setBody ref b) := by
  refine ⟨Pass.registry_setBody, ?_, ?_, ?_⟩
  · rw [Pass.done_setBody]
    exact List.Subset.refl _
  · rw [Pass.dependencies_setBody]
    exact List.Subset.refl _
  · rw [Pass.session_setBody here]
    exact id

/-- The session goes on. -/
theorem session {s : Session} (keeps : noted p.session → noted s) :
    Onward noted p { p with session := s } :=
  ⟨rfl, List.Subset.refl _, List.Subset.refl _, keeps⟩

end Onward

theorem Answered.mono (h : Answered file noted p u) (on : Onward noted p q) :
    Answered file noted q u where
  asked source named := on.asked (h.asked source named)
  found bare := by
    refine (h.found bare).imp on.noted fun done ref stands => ?_
    rw [on.registry] at stands
    exact on.done (done ref stands)

/-- A use is answered once what was found for it is done. -/
theorem Answered.of_done
    (asked : ∀ source, sourceOf file u = some source → source ∈ p.dependencies)
    (finds : sourceOf file u = none → some target = p.registry.lookup u.name)
    (on : Onward noted p q) (done : target ∈ q.done) : Answered file noted q u := by
  refine ⟨fun source named => on.asked (asked source named), fun bare => .inr ?_⟩
  rw [on.registry, ← finds bare]
  rintro _ ⟨⟩
  exact done

/-- Each use of the file still stands in its block or was answered, and an export was done after
what its uses ask for. No files were asked for but those that are named. -/
structure Traced (file : String) (noted : Session → Prop) (sheet : Stylesheet) (p : Pass) :
    Prop where
  uses : ∀ ref, Holds sheet ref → ∀ u ∈ (sheet.block ref).allUses,
    u ∈ (p.body ref).allUses ∨ Answered file noted p u
  named : p.dependencies ⊆ sheet.sources file
  order : ∀ i earlier, .own i :: earlier <:+ p.done → ∀ u ∈ (sheet.block (.own i)).allUses,
    sourceOf file u = none →
      noted p.session ∨ ∀ ref, p.registry.lookup u.name = some ref → ref ∈ earlier

namespace Traced

/-- Nothing is resolved yet. -/
theorem fresh (sheets : p.sheet = sheet) (done : p.done = [])
    (named : p.dependencies ⊆ sheet.sources file) : Traced file noted sheet p where
  uses ref inside u used := by
    have same : p.body ref = sheet.block ref :=
      body_congr (p := Pass.start Session.empty sheet) inside sheets
    exact .inl (same ▸ used)
  named := named
  order i earlier split := by
    rw [done, List.suffix_nil] at split
    cases split

/-- The file is the same. -/
theorem of_sheet (h : Traced file noted sheet p) (on : Onward noted p q)
    (sheets : q.sheet = p.sheet) (done : q.done = p.done)
    (named : q.dependencies ⊆ sheet.sources file) : Traced file noted sheet q where
  named := named
  uses ref inside u used := by
    rw [body_congr inside sheets]
    exact (h.uses ref inside u used).imp_right fun answered => answered.mono on
  order i earlier split u used bare := by
    rw [done] at split
    rw [on.registry]
    exact (h.order i earlier split u used bare).imp_left on.noted

/-- The uses that a block loses were answered. -/
theorem setBody (h : Traced file noted sheet p) (here : Holds p.sheet ref)
    (left : ∀ u ∈ (p.body ref).allUses, u ∈ b.allUses ∨ Answered file noted p u) :
    Traced file noted sheet (p.setBody ref b) := by
  have on : Onward noted p (p.setBody ref b) := .setBody here
  refine ⟨?_, by rw [Pass.dependencies_setBody]; exact h.named, ?_⟩
  · intro other inside u used
    rcases h.uses other inside u used with there | answered
    · by_cases same : other = ref
      · subst same
        rw [Pass.body_setBody_self here]
        exact (left u there).imp_right fun answered => answered.mono on
      · rw [Pass.body_setBody_of_ne here same]
        exact .inl there
    · exact .inr (answered.mono on)
  · intro i earlier split u used bare
    rw [Pass.done_setBody] at split
    rw [on.registry]
    exact (h.order i earlier split u used bare).imp_left on.noted

/-- A block without uses is done. -/
theorem markDone (h : Traced file noted sheet p)
    (free : ∀ i, ref = .own i → Holds sheet ref ∧ (p.body ref).allUses = []) :
    Traced file noted sheet (p.markDone ref) where
  named := h.named
  uses other inside u used :=
    (h.uses other inside u used).imp_right fun answered => answered.mono (.markDone p ref)
  order i earlier split u used bare := by
    rcases List.suffix_cons_iff.1 split with same | before
    · obtain ⟨rfl, rfl⟩ := List.cons.inj same
      obtain ⟨inside, free⟩ := free i rfl
      rcases h.uses (.own i) inside u used with there | answered
      · rw [free] at there
        exact absurd there List.not_mem_nil
      · exact answered.found bare
    · exact h.order i earlier before u used bare

end Traced

/-- A use in an export was there at the start. -/
theorem Underway.mem_exports (h : Underway sheet p) (inside : Holds sheet (.own i))
    (used : u ∈ (p.body (.own i)).allUses) :
    u ∈ sheet.exports.flatMap fun e => e.toBody.allUses := by
  have before := (h.advances (.own i) inside).uses used
  have found : sheet.exports[i]? = some sheet.exports[i] := List.getElem?_eq_getElem inside
  change u ∈ ((sheet.exports[i]?.map ExportBlock.toBody).getD .empty).allUses at before
  rw [found] at before
  exact List.mem_flatMap.2 ⟨_, List.mem_of_getElem? found, before⟩

/-! ## Keys on the watch list -/

/-- The key under which a use in a file is watched. -/
def keyIn (file : String) (u : UseDirective) : String :=
  Consumer.keyOf ⟨file, fun _ => pure ()⟩ u

/-- A use that names a file has no key in common with an export, nor with a use of another file. -/
def KeysApart (file : String) (sheet : Stylesheet) : Prop :=
  ∀ u ∈ sheet.allUses, sourceOf file u ≠ none →
    (∀ i, exportName sheet i ≠ some (keyIn file u)) ∧
      ∀ u' ∈ sheet.allUses, keyIn file u' = keyIn file u → sourceOf file u' = sourceOf file u

/-- A key on the watch list is the name of an export or the key of a use, and the file that the use
names was asked for. -/
def Watching (file : String) (sheet : Stylesheet) (p : Pass) (active : List String) : Prop :=
  ∀ k ∈ active, (∃ i, exportName sheet i = some k) ∨
    ∃ u ∈ sheet.allUses, keyIn file u = k ∧
      ∀ source, sourceOf file u = some source → source ∈ p.dependencies

namespace Watching

theorem mono (h : Watching file sheet p active) (asked : p.dependencies ⊆ q.dependencies) :
    Watching file sheet q active := by
  intro k mem
  refine (h k mem).imp_right ?_
  rintro ⟨u, used, key, there⟩
  exact ⟨u, used, key, fun source named => asked (there source named)⟩

/-- A use is entered. -/
theorem enter (h : Watching file sheet p active) (used : u ∈ sheet.allUses)
    (asked : ∀ source, sourceOf file u = some source → source ∈ p.dependencies) :
    Watching file sheet p (keyIn file u :: active) :=
  List.forall_mem_cons.2 ⟨.inr ⟨u, used, rfl, asked⟩, h⟩

/-- The file that a circular use names was asked for before. -/
theorem asked (h : Watching file sheet p active) (apart : KeysApart file sheet)
    (used : u ∈ sheet.allUses) (watched : keyIn file u ∈ active)
    (named : sourceOf file u = some source) : source ∈ p.dependencies := by
  obtain ⟨noExport, sameSource⟩ := apart u used (named ▸ Option.some_ne_none source)
  rcases h _ watched with ⟨i, here⟩ | ⟨u', used', key, there⟩
  · exact absurd here (noExport i)
  · exact there source ((sameSource u' used' key).trans named)

end Watching

/-! ## The steps of a pass -/

/-- With so many blocks to enter every export is traced. -/
def Traces (L : Loading) (noted : Session → Prop) (file : String) (sheet : Stylesheet)
    (depth : Nat) : Prop :=
  ∀ {active p i}, Underway sheet p → Traced file noted sheet p → Watching file sheet p active →
    Holds sheet (.own i) → Watched sheet active (.own i) →
    (Outset.ofSheet file sheet).Affords depth active → 0 < depth →
    Proceeds L file (fun c => resolveBlock c depth active (.own i)) p fun _ q =>
      (Stretch sheet active (.own i) p q ∧ (q.body (.own i)).allUses = []) ∧
        Traced file noted sheet q ∧ Onward noted p q

section

variable (lawful : L.Lawful)

include lawful

/-- Where a use is looked up its file is asked for, or what its name stands for is found. -/
theorem lookup_answers (p : Pass) (owner : Option String) (u : UseDirective) :
    Proceeds L file (fun c => lookup c owner u) p fun found q =>
      q.registry = p.registry ∧
        (∀ source, sourceOf file u = some source → source ∈ q.dependencies) ∧
        (∀ d ∈ q.dependencies, sourceOf file u = some d ∨ d ∈ p.dependencies) ∧
        (sourceOf file u = none → found = p.registry.lookup u.name) := by
  by_cases bare : u.source.getD "" = ""
  · simp only [Outset.lookup_bare bare, sourceOf_bare bare]
    refine .get_bind lawful (fun _ _ _ => rfl) ?_
    cases p.registry.lookup u.name with
    | some ref =>
      exact .of_pure lawful ⟨rfl, by rintro _ ⟨⟩, fun _ => .inr, fun _ => rfl⟩
    | none =>
      refine .bind lawful (Q := fun _ q => q.registry = p.registry ∧
        q.dependencies = p.dependencies) (.of_report lawful _ fun _ => ⟨rfl, rfl⟩) ?_
      rintro _ q ⟨same, deps⟩
      exact .of_pure lawful ⟨same, by rintro _ ⟨⟩, fun _ mem => .inr (deps ▸ mem), fun _ => rfl⟩
  · simp only [Outset.lookup_qualified bare, sourceOf_qualified bare]
    have asks := exportsOf_proceeds lawful file p (absolute_pathIn file (u.source.getD ""))
    refine .bind lawful (asks.congr fun _ => rfl) ?_
    rintro es _ ⟨s, rfl⟩
    have asked : ∀ source, some (pathIn file (u.source.getD "")) = some source →
        source ∈ (p.depend (pathIn file (u.source.getD ""))).dependencies := by
      rintro _ ⟨⟩
      exact mem_depend p _
    have only : ∀ d ∈ (p.depend (pathIn file (u.source.getD ""))).dependencies,
        some (pathIn file (u.source.getD "")) = some d ∨ d ∈ p.dependencies :=
      fun d mem => (mem_depend_iff mem).imp_left fun same => by rw [same]
    cases findExport u.name es with
    | some i =>
      refine .congr (fun _ => rfl) (.of_pure lawful
        (a := some (.foreign (pathIn file (u.source.getD "")) i)) ?_)
      exact ⟨rfl, asked, only, by rintro ⟨⟩⟩
    | none =>
      refine .bind lawful (Q := fun _ q => q.registry = p.registry ∧
          q.dependencies = (p.depend (pathIn file (u.source.getD ""))).dependencies)
        (.of_report lawful _ fun _ => ⟨rfl, rfl⟩) ?_
      rintro _ q ⟨same, deps⟩
      exact .of_pure lawful ⟨same, deps ▸ asked, deps ▸ only, by rintro ⟨⟩⟩

/-- A block is resolved before it is copied. -/
theorem settle_answers (active : List String) (traces : Traces L noted file sheet depth)
    (h : Underway sheet p) (traced : Traced file noted sheet p)
    (stands : MayStandFor sheet p.dependencies name target)
    (own : ∀ i, target = .own i → Watching file sheet p active ∧ name ∈ active ∧
      (Outset.ofSheet file sheet).Affords depth active ∧ 0 < depth) :
    Proceeds L file (fun c => do
        resolveBlock c depth active target
        modify (·.markDone target)) p
      fun _ q => (Stretch sheet active target p q ∧ target ∈ q.done) ∧
        Traced file noted sheet q ∧ Onward noted p q := by
  refine (settle_of lawful (Q := fun q => Stretch sheet active target p q ∧
    (∀ i, target = .own i → Holds sheet target ∧ (q.body target).allUses = []) ∧
    Traced file noted sheet q ∧ Onward noted p q) active h stands ?_ ?_).imp ?_
  · rintro i rfl
    obtain ⟨watching, watched, affords, enough⟩ := own i rfl
    have inside : Holds sheet (.own i) := lt_of_exportName stands
    have entered : Watched sheet active (.own i) := ⟨name, watched, stands⟩
    refine (traces h traced watching inside entered affords enough).imp ?_
    rintro _ q ⟨⟨stretch, free⟩, traced, on⟩
    exact ⟨stretch, fun _ _ => ⟨inside, free⟩, traced, on⟩
  · exact fun foreign => ⟨.refl h, fun i same => absurd same (foreign i), traced, .refl p⟩
  · rintro _ _ ⟨q, ⟨stretch, free, traced, on⟩, rfl⟩
    have done := stretch.markDone target fun i same => (free i same).2
    exact ⟨⟨done, List.mem_cons_self⟩, traced.markDone free, on.trans (.markDone q target)⟩

/-- What a use asks for is copied into its block. -/
theorem copy_answers (notes : Notes L file noted) (h : Underway sheet p)
    (traced : Traced file noted sheet p) (inside : Holds sheet ref)
    (stands : MayStandFor sheet p.dependencies name target) (other : target ≠ ref)
    (done : ∀ i, target = .own i → target ∈ p.done) :
    Proceeds L file (fun c => do
        copyBlock ⟨ref, path⟩ target
        inSession (modify (·.log [.inlined c.file u.name]))) p
      fun _ q => Traced file noted sheet q ∧ Onward noted p q := by
  refine .of_ready fun ready => ?_
  have here := h.holds inside
  have free := h.free_of_done (lawful.clean ready) stands done
  refine (copy_appends lawful h inside stands other done).also ?_
  rintro _ _ grows - rfl
  have appended : Traced file noted sheet (p.append ⟨ref, path⟩ (p.body target)) := by
    rw [Pass.append_eq_setBody here]
    refine traced.setBody here fun u used => .inl ?_
    obtain ⟨place, there⟩ := Body.mem_allUses_iff.1 used
    refine Body.mem_allUses_of_inside place ?_
    rwa [Body.uses_inside_modifyAt_append free]
  have on : Onward noted p (p.append ⟨ref, path⟩ (p.body target)) := by
    rw [Pass.append_eq_setBody here]
    exact .setBody here
  have same := Pass.session_append here path (p.body target)
  have further : Onward noted (p.append ⟨ref, path⟩ (p.body target))
      { p.append ⟨ref, path⟩ (p.body target) with
        session := p.session.log [.inlined file u.name] } :=
    .session fun note => notes.grows grows (same ▸ note)
  exact ⟨appended.of_sheet further rfl rfl appended.named, on.trans further⟩

variable (notes : Notes L file noted) (apart : KeysApart file sheet)

include notes apart

/-- A use that asks for a block being worked on is left out. Its file was asked for before. -/
theorem refuse_answers (traced : Traced file noted sheet p)
    (watching : Watching file sheet p active) (used : u ∈ sheet.allUses)
    (circular : keyIn file u ∈ active) (owner : Option String) :
    Proceeds L file (fun c => modify (·.report c (.circularUse owner u.name))) p fun _ q =>
      Traced file noted sheet q ∧ Onward noted p q ∧ Answered file noted q u := by
  refine .also (Q := fun _ q => q = { p with
      session := p.session.log [.fault file (.circularUse owner u.name)] })
    (.quiet lawful _ [.fault file (.circularUse owner u.name)] (fun _ _ _ => rfl) rfl rfl) ?_
  rintro _ _ grows - rfl
  have on : Onward noted p { p with
      session := p.session.log [.fault file (.circularUse owner u.name)] } :=
    .session (notes.grows grows)
  refine ⟨traced.of_sheet on rfl rfl traced.named, on, fun source named => ?_, fun _ => ?_⟩
  · exact watching.asked apart used circular named
  · exact .inl (notes.circular ..)

omit apart

/-- Looking a use of an export up keeps what is traced. -/
theorem lookup_traced (h : Underway sheet p) (traced : Traced file noted sheet p)
    (exported : u ∈ sheet.exports.flatMap fun e => e.toBody.allUses) (owner : Option String) :
    Proceeds L file (fun c => lookup c owner u) p fun found q =>
      Underway sheet q ∧ Onward noted p q ∧ Traced file noted sheet q ∧
        (∀ source, sourceOf file u = some source → source ∈ q.dependencies) ∧
        (sourceOf file u = none → found = q.registry.lookup u.name) ∧
        ∀ ref, found = some ref → MayStandFor sheet q.dependencies (keyIn file u) ref := by
  refine ((lookup_proceeds lawful h owner u).and (lookup_answers lawful p owner u)).also ?_
  rintro found q grows - ⟨⟨underway, sheets, dones, more, stands⟩, registry, asked, only, finds⟩
  have on : Onward noted p q :=
    ⟨registry, dones ▸ List.Subset.refl _, more, notes.grows grows⟩
  have named : q.dependencies ⊆ sheet.sources file := by
    intro d mem
    refine (only d mem).elim (fun named => ?_) fun before => traced.named before
    exact List.mem_append_right _ (List.mem_filterMap.2 ⟨u, exported, named⟩)
  refine ⟨underway, on, traced.of_sheet on sheets dones named, asked, ?_, stands _⟩
  rw [registry]
  exact finds

include apart

/-- A use at a place is answered. -/
theorem inlineUse_answers (traces : Traces L noted file sheet depth) (h : Underway sheet p)
    (traced : Traced file noted sheet p) (watching : Watching file sheet p active)
    (inside : Holds sheet (.own i)) (watched : Watched sheet active (.own i))
    (affords : (Outset.ofSheet file sheet).Affords (depth + 1) active) (owner : Option String)
    (used : u ∈ (p.body (.own i)).allUses) :
    Proceeds L file
      (fun c => inlineUse c (resolveBlock c depth) active owner ⟨.own i, path⟩ u) p
      fun _ q => Traced file noted sheet q ∧ Onward noted p q ∧ Answered file noted q u := by
  have mem := h.mem_allUses inside used
  refine inlineUse_of lawful
    (F := fun found q => keyIn file u ∉ active ∧ Underway sheet q ∧ Onward noted p q ∧
      Traced file noted sheet q ∧
      (∀ source, sourceOf file u = some source → source ∈ q.dependencies) ∧
      (sourceOf file u = none → found = q.registry.lookup u.name) ∧
      ∀ ref, found = some ref → MayStandFor sheet q.dependencies (keyIn file u) ref)
    (G := fun target q => Underway sheet q ∧ Onward noted p q ∧ Traced file noted sheet q ∧
      Answered file noted q u ∧ MayStandFor sheet q.dependencies (keyIn file u) target ∧
      .own i ≠ target ∧ target ∈ q.done)
    active owner (fun circular => refuse_answers lawful notes apart traced watching mem circular
      owner) (fun unwatched => ?looked) ?none ?left ?settled ?copied
  case looked =>
    exact (lookup_traced lawful notes h traced (h.mem_exports inside used) owner).imp
      fun _ _ looked => ⟨unwatched, looked⟩
  case none =>
    rintro q ⟨-, underway, on, traced, asked, finds, -⟩
    refine ⟨traced, on, asked, fun bare => .inr fun ref here => ?_⟩
    rw [← finds bare] at here
    cases here
  case left =>
    rintro target q ⟨unwatched, underway, on, traced, asked, finds, stands⟩ done
    have stands := stands target rfl
    have answered : Answered file noted q u := .of_done asked finds (.refl q) done
    exact ⟨underway, on, traced, answered, stands, watched.ne unwatched stands, done⟩
  case settled =>
    rintro target q ⟨unwatched, underway, on, traced, asked, finds, stands⟩ -
    have stands := stands target rfl
    have enough := affords.enter unwatched mem
    have entered := (watching.mono on.asked).enter mem asked
    refine (settle_answers lawful (_ :: active) traces underway traced stands
      fun _ _ => ⟨entered, List.mem_cons_self, enough⟩).imp ?_
    rintro _ r ⟨⟨stretch, done⟩, traced, on'⟩
    exact ⟨stretch.underway, on.trans on', traced, .of_done asked finds on' done,
      stands.mono on'.asked, watched.ne unwatched stands, done⟩
  case copied =>
    rintro target r ⟨underway, on, traced, answered, stands, other, done⟩
    refine (copy_answers lawful notes underway traced inside stands other.symm fun _ _ =>
      done).imp ?_
    rintro _ t ⟨traced, on'⟩
    exact ⟨traced, on.trans on', answered.mono on'⟩

/-- At a place all uses are answered before they are taken away. -/
theorem inlineAt_answers (traces : Traces L noted file sheet depth)
    (drained : Drained L file sheet depth) (h : Underway sheet p)
    (traced : Traced file noted sheet p) (watching : Watching file sheet p active)
    (inside : Holds sheet (.own i)) (watched : Watched sheet active (.own i))
    (affords : (Outset.ofSheet file sheet).Affords (depth + 1) active) (owner : Option String) :
    Proceeds L file (fun c => inlineAt c (resolveBlock c depth) active owner (.own i) path) p
      fun _ q => Traced file noted sheet q ∧ Onward noted p q := by
  refine (inlineAt_keeps lawful (I := fun before q => Traced file noted sheet q ∧
    Onward noted p q ∧ ∀ u ∈ before, Answered file noted q u) drained h inside watched affords
    owner ⟨traced, .refl p, fun _ mem => absurd mem List.not_mem_nil⟩ ?_ ?_).imp
    fun _ _ kept => kept.2
  · rintro before u q works ⟨traced, on, answered⟩ used
    refine (inlineUse_answers lawful notes apart traces works.1.underway traced
      (watching.mono on.asked) inside watched affords owner used).imp ?_
    rintro _ r ⟨traced, on', here⟩
    refine ⟨traced, on.trans on', fun u' mem => ?_⟩
    rcases List.mem_append.1 mem with mem | mem
    · exact (answered u' mem).mono on'
    · exact List.mem_singleton.1 mem ▸ here
  · rintro q works ⟨traced, on, answered⟩
    have here := works.1.underway.holds inside
    have cleared : Traced file noted sheet (q.clearUses ⟨.own i, path⟩) := by
      rw [Pass.clearUses_eq_setBody here]
      refine traced.setBody here fun u used => ?_
      obtain ⟨place, there⟩ := Body.mem_allUses_iff.1 used
      by_cases same : place = path
      · right
        exact answered u (same ▸ there)
      · left
        refine Body.mem_allUses_of_inside place ?_
        rwa [Body.uses_inside_modifyAt_clear, if_neg same]
    refine ⟨cleared, on.trans ?_⟩
    rw [Pass.clearUses_eq_setBody here]
    exact .setBody here

/-- Any number of blocks to enter is enough for the exports that can be entered with it. -/
theorem traces (depth : Nat) : Traces L noted file sheet depth := by
  induction depth with
  | zero =>
    intro _ _ _ _ _ _ _ _ _ enough
    exact absurd enough (Nat.lt_irrefl 0)
  | succ depth ih =>
    intro active p i h traced watching inside watched affords enough
    have drains : Drained L file sheet depth := drained lawful file sheet depth
    refine resolveBlock_keeps lawful (I := fun q => Traced file noted sheet q ∧ Onward noted p q)
      drains h inside watched affords ⟨traced, .refl p⟩ ?_
    rintro path q underway - ⟨traced, on⟩
    refine (inlineAt_answers lawful notes apart ih drains underway traced (watching.mono on.asked)
      inside watched affords _).imp ?_
    rintro _ r ⟨traced, on'⟩
    exact ⟨traced, on.trans on'⟩

/-- An export is done after what its uses ask for. -/
theorem resolveExport_answers (h : Underway sheet p) (traced : Traced file noted sheet p)
    (stands : MayStandFor sheet p.dependencies name ref) (enough : sheet.allUses.length < depth) :
    Proceeds L file (fun c => resolveExport c depth ref) p fun _ q =>
      Traced file noted sheet q ∧ Onward noted p q := by
  have traces : Traces L noted file sheet depth := traces lawful notes apart depth
  refine resolveExport_of lawful stands (fun _ => ⟨traced, .refl p⟩)
    (.imp (settle_answers lawful _ traces h traced stands ?_) fun _ _ answers => answers.2)
  rintro i rfl
  have owner : p.nameOf (.own i) = some name := (h.nameOf_eq i).trans stands
  have entered := h.enters stands enough file
  rw [owner] at entered ⊢
  have watching : Watching file sheet p [name] := by
    intro k mem
    rw [List.mem_singleton.1 mem]
    exact .inl ⟨i, stands⟩
  exact ⟨watching, entered⟩

omit notes apart

/-- While exports get their names nothing else changes, and each name stands for an export. -/
theorem registerExports_answers (p : Pass) :
    Proceeds L file registerExports p fun _ q =>
      q.sheet = p.sheet ∧ q.done = p.done ∧ q.dependencies = p.dependencies ∧
        ∀ e ∈ p.sheet.exports, ∃ i, q.registry.lookup e.name = some (.own i) := by
  refine .get_bind lawful (fun _ _ _ => rfl) (.imp (.forM lawful
    (I := fun before q => q.sheet = p.sheet ∧ q.done = p.done ∧
      q.dependencies = p.dependencies ∧
      ∀ entry ∈ before, ∃ i, q.registry.lookup entry.1.name = some (.own i))
    ⟨rfl, rfl, rfl, fun _ mem => absurd mem List.not_mem_nil⟩ ?_) ?_)
  · rintro before ⟨e, i⟩ after split q ⟨sheets, dones, asked, stand⟩
    have register {r : Pass} (sheets : r.sheet = p.sheet) (dones : r.done = p.done)
        (asked : r.dependencies = p.dependencies) (same : r.registry = q.registry) :
        Proceeds L file (fun _ => modify (·.register e.name (.own i))) r fun _ t =>
          t.sheet = p.sheet ∧ t.done = p.done ∧ t.dependencies = p.dependencies ∧
            ∀ entry ∈ before ++ [(e, i)], ∃ j, t.registry.lookup entry.1.name = some (.own j) := by
      refine .of_modify lawful (r.register e.name (.own i)) (fun _ _ => rfl) rfl
        ⟨sheets, dones, asked, fun entry mem => ?_⟩
      show ∃ j, (Table.put e.name _ r.registry).lookup entry.1.name = some (.own j)
      by_cases here : entry.1.name = e.name
      · rw [here, Table.lookup_put_self]
        exact ⟨i, rfl⟩
      · rw [Table.lookup_put_of_ne here, same]
        apply stand
        refine (List.mem_append.1 mem).resolve_right fun mem => here ?_
        rw [List.mem_singleton.1 mem]
    refine .get_bind lawful (fun _ _ _ => rfl) ?_
    by_cases double : (q.registry.lookup e.name).isSome
    · refine .of_pos (fun _ => double) (.bind lawful (Q := fun _ r => r.sheet = p.sheet ∧
        r.done = p.done ∧ r.dependencies = p.dependencies ∧ r.registry = q.registry)
        (.of_report lawful _ fun _ => ⟨sheets, dones, asked, rfl⟩) ?_)
      rintro _ r ⟨sheets, dones, asked, same⟩
      exact register sheets dones asked same
    · exact .of_neg (fun _ => double) (register sheets dones asked rfl)
  · rintro _ q ⟨sheets, dones, asked, stand⟩
    refine ⟨sheets, dones, asked, fun e mem => ?_⟩
    obtain ⟨i, here⟩ := List.mem_iff_getElem?.1 mem
    exact stand (e, i) (List.mk_mem_zipIdx_iff_getElem?.2 here)

/-- The file of an import is asked for, and nothing else changes but names. -/
theorem applyImport_answers (p : Pass) (imp : ImportDirective) :
    Proceeds L file (fun c => applyImport c imp) p fun _ q =>
      q.sheet = p.sheet ∧ q.done = p.done ∧
        q.dependencies = (p.depend (pathIn file imp.source)).dependencies := by
  have asks := exportsOf_proceeds lawful file p (absolute_pathIn file imp.source)
  refine .bind lawful (asks.congr fun _ => rfl) ?_
  rintro es _ ⟨s, rfl⟩
  refine .forM lawful (I := fun _ r => r.sheet = p.sheet ∧ r.done = p.done ∧
    r.dependencies = (p.depend (pathIn file imp.source)).dependencies) ⟨rfl, rfl, rfl⟩ ?_
  rintro before name after _ r same
  cases (exportTable es).lookup name with
  | some i =>
    exact .of_modify lawful (r.register name (.foreign (pathIn file imp.source) i))
      (fun _ _ => rfl) rfl same
  | none => exact .of_report lawful _ fun _ => same

include notes apart

/-- When the exports are resolved they are traced. The files of imports were asked for, and without
imports the name of an export stands for one. -/
theorem prepare_answers (s : Session) (enough : sheet.allUses.length < depth) :
    Proceeds L file (fun c => prepare c depth) (Pass.start s sheet) fun _ q =>
      Traced file noted sheet q ∧
        (∀ imp ∈ sheet.imports, pathIn file imp.source ∈ q.dependencies) ∧
        (sheet.imports = [] → ∀ e ∈ sheet.exports,
          ∃ i, q.registry.lookup e.name = some (.own i)) := by
  refine .bind lawful ((registerExports_proceeds lawful (Underway.start s sheet)).and
    (registerExports_answers lawful _)) ?_
  rintro _ p ⟨h, sheets, dones, asked, stand⟩
  have imports : p.sheet.imports = sheet.imports := h.imports
  refine .get_bind lawful (fun _ _ _ => rfl) (.bind lawful
    (.forM lawful (I := fun before q => Underway sheet q ∧ q.sheet = sheet ∧ q.done = [] ∧
      q.dependencies ⊆ sheet.sources file ∧
      (∀ imp ∈ before, pathIn file imp.source ∈ q.dependencies) ∧
      (sheet.imports = [] → q.registry = p.registry))
      ⟨h, sheets, dones, asked ▸ List.nil_subset _, fun _ mem => absurd mem List.not_mem_nil,
        fun _ => rfl⟩ ?_) ?_)
  · rintro before imp after split q ⟨h, sheets, dones, named, asked, -⟩
    refine ((applyImport_proceeds lawful h imp).and (applyImport_answers lawful q imp)).imp ?_
    rintro _ r ⟨h, sheets', dones', asked'⟩
    have here : imp ∈ sheet.imports := imports ▸ mem_of_split split
    refine ⟨h, sheets'.trans sheets, dones'.trans dones, ?_, ?_, ?_⟩
    · rw [asked']
      intro d mem
      rcases mem_depend_iff mem with rfl | mem
      · exact mem_sources_of_import here
      · exact named mem
    · rw [asked']
      intro imp' mem
      rcases List.mem_append.1 mem with mem | mem
      · exact subset_depend q _ (asked imp' mem)
      · rw [List.mem_singleton.1 mem]
        exact mem_depend q _
    · intro none
      rw [none] at here
      exact absurd here List.not_mem_nil
  rintro _ q ⟨h, sheets, dones, named, asked, registry⟩
  rw [imports] at asked
  -- what names stand for does not change any more
  refine .imp (resolveAll_keeps lawful
    (I := fun r => Traced file noted sheet r ∧ Onward noted q r) h
    ⟨.fresh sheets dones named, .refl q⟩ enough ?_) ?_
  · rintro r name ref h ⟨traced, on⟩ stands
    refine (resolveExport_answers lawful notes apart h traced stands enough).imp ?_
    rintro _ t ⟨traced, on'⟩
    exact ⟨traced, on.trans on'⟩
  · rintro _ r ⟨traced, on⟩
    refine ⟨traced, fun imp mem => on.asked (asked imp mem), fun none e mem => ?_⟩
    rw [on.registry, registry none]
    exact stand e mem

/-- When the exports are resolved, just the files that are named were asked for. -/
theorem prepare_asks (s : Session) (enough : sheet.allUses.length < depth) :
    Proceeds L file (fun c => prepare c depth) (Pass.start s sheet) fun _ q =>
      ∀ d, d ∈ q.dependencies ↔ d ∈ sheet.sources file := by
  refine ((prepare_proceeds lawful s enough).and
    (prepare_answers lawful notes apart s enough)).imp ?_
  rintro _ q ⟨⟨h, done⟩, traced, imports, -⟩ d
  refine ⟨fun mem => traced.named mem, fun mem => ?_⟩
  rcases List.mem_append.1 mem with mem | mem
  · obtain ⟨imp, there, rfl⟩ := List.mem_map.1 mem
    exact imports imp there
  · obtain ⟨u, used, named⟩ := List.mem_filterMap.1 mem
    obtain ⟨e, mem, used⟩ := List.mem_flatMap.1 used
    obtain ⟨i, inside, rfl⟩ := List.mem_iff_getElem.1 mem
    have here : u ∈ (sheet.block (.own i)).allUses := by
      change u ∈ ((sheet.exports[i]?.map ExportBlock.toBody).getD .empty).allUses
      rwa [List.getElem?_eq_getElem inside]
    rcases traced.uses (.own i) inside u here with left | answered
    · rw [h.done i (done i inside)] at left
      exact absurd left List.not_mem_nil
    · exact answered.asked d named

end

end Reuse

end NestedStyles
