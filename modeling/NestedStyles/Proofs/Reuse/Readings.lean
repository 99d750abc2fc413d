import NestedStyles.Proofs.Reuse.Lockstep
import NestedStyles.Proofs.Reuse.Operations

/-!
# Two readings of a file

The passes over the two readings of a file give names to blocks alike, but for the one that only the
first reading imports (`Twins.Naming`). Then they resolve the exports and the rules abreast
(`Twins.pass_abreast`).
-/

namespace NestedStyles

namespace Table

variable {α β : Type} [BEq α] [LawfulBEq α]

/-- A value that is taken out anyway may be put in before. -/
theorem erase_put_self (k : α) (v : β) (t : List (α × β)) : erase k (put k v t) = erase k t := by
  induction t with
  | nil => simp [erase, put]
  | cons e rest ih =>
    obtain ⟨j, w⟩ := e
    rw [erase, erase] at ih
    by_cases h : k = j
    · simp [erase, put, h]
    · simp [erase, put, h, ih]

theorem erase_put_of_ne {k j : α} (ne : j ≠ k) (v : β) (t : List (α × β)) :
    erase k (put j v t) = put j v (erase k t) := by
  have other : (k == j) = false := beq_false_of_ne ne.symm
  induction t with
  | nil => simp [erase, put, other]
  | cons e rest ih =>
    obtain ⟨i, w⟩ := e
    rw [erase, erase] at ih
    by_cases same : j = i
    · subst same
      simp [erase, put, other]
    · by_cases here : k = i
      · subst here
        simp [erase, put, same, ih]
      · simp [erase, put, same, here, ih]

end Table

namespace Reuse

variable {p q p' q' : Pass} {depth : Nat}
variable {ref : BlockRef}

/-- The step that resolves an export settles it. -/
theorem resolveExport_of_settles {c : Consumer}
    (settles : Twins.Settles c depth (p.nameOf ref).toList ref p p') :
    resolveExport c depth ref p = (.ok (), p') := by
  rcases settles with ⟨done, rfl⟩ | ⟨left, run⟩
  · show (ite (ref ∉ p'.done) (_ : PassM Unit) _) p' = _
    rw [if_neg (not_not_intro done)]
    rfl
  · show (ite (ref ∉ p.done) (_ : PassM Unit) _) p = _
    rw [if_pos left]
    exact run

namespace Twins

variable {T : Twins}

/-! ## Names -/

/-- Both passes give names to blocks, the same in both but for the name that only the first reading
imports. -/
structure Naming (T : Twins) (p q : Pass) : Prop where
  left : Underway T.left p
  right : Underway T.right q
  sheet : p.sheet = T.left
  sheet' : q.sheet = T.right
  done : p.done = []
  done' : q.done = []
  library : p.session.library = T.session.library
  library' : q.session.library = T.session.library
  asked : p.dependencies ⊆ T.left.allSources T.file
  asked' : q.dependencies ⊆ T.left.allSources T.file
  registry : q.registry = Table.erase T.name p.registry

namespace Naming

theorem start (T : Twins) :
    T.Naming (Pass.start T.session T.left) (Pass.start T.session T.right) where
  left := .start T.session T.left
  right := .start T.session T.right
  sheet := rfl
  sheet' := rfl
  done := rfl
  done' := rfl
  library := rfl
  library' := rfl
  asked := List.nil_subset _
  asked' := List.nil_subset _
  registry := rfl

/-- Both passes write something down. -/
theorem log (h : T.Naming p q) (events events' : List Event) :
    T.Naming { p with session := p.session.log events }
      { q with session := q.session.log events' } :=
  { h with
    left := h.left.congr rfl rfl rfl (List.Subset.refl _)
    right := h.right.congr rfl rfl rfl (List.Subset.refl _) }

theorem asked_ask {r : Pass} {source : String} (asked : r.dependencies ⊆ T.left.allSources T.file)
    (named : source ∈ T.left.allSources T.file) :
    (r.ask source).dependencies ⊆ T.left.allSources T.file := by
  intro d mem
  rcases mem_depend_iff mem with rfl | mem
  · exact named
  · exact asked mem

/-- The first pass asks for the exports of a file. -/
theorem askLeft (h : T.Naming p q) {source : String} (named : source ∈ T.left.allSources T.file) :
    T.Naming (p.ask source) q :=
  { h with
    left := h.left.congr rfl rfl rfl (subset_depend p source)
    asked := asked_ask h.asked named }

/-- Both passes ask for the exports of a file. -/
theorem ask (h : T.Naming p q) {source : String} (named : source ∈ T.left.allSources T.file) :
    T.Naming (p.ask source) (q.ask source) :=
  { h.askLeft named with
    right := h.right.congr rfl rfl rfl (subset_depend q source)
    asked' := asked_ask h.asked' named }

/-- The name itself gets a block in the first pass. -/
theorem registerLeft (h : T.Naming p q) {ref : BlockRef}
    (stands : MayStandFor T.left p.dependencies T.name ref) :
    T.Naming (p.register T.name ref) q :=
  { h with
    left := h.left.register stands
    registry := h.registry.trans (Table.erase_put_self T.name ref p.registry).symm }

/-- Another name gets the same block in both passes. -/
theorem register (h : T.Naming p q) {name : String} (ne : name ≠ T.name) {ref : BlockRef}
    (stands : MayStandFor T.left p.dependencies name ref)
    (stands' : MayStandFor T.right q.dependencies name ref) :
    T.Naming (p.register name ref) (q.register name ref) :=
  { h with
    left := h.left.register stands
    right := h.right.register stands'
    registry := by
      show Table.put name ref q.registry = _
      rw [h.registry]
      exact (Table.erase_put_of_ne ne ref p.registry).symm }

theorem lookup_eq (h : T.Naming p q) {name : String} (ne : name ≠ T.name) :
    q.registry.lookup name = p.registry.lookup name := by
  rw [h.registry, Table.lookup_erase_of_ne ne]

theorem exports (h : T.Naming p q) (source : String) :
    p.session.exports source = T.session.exports source ∧
      q.session.exports source = T.session.exports source :=
  ⟨Session.exports_of_library h.library source, Session.exports_of_library h.library' source⟩

end Naming

/-- The step that gives an export of the file its name. -/
def registerExport (c : Consumer) (name : String) (i : Nat) : PassM Unit := do
  if ((← get).registry.lookup name).isSome then
    modify (·.report c (.duplicateExport name))
  modify (·.register name (.own i))

theorem registerExport_eq (c : Consumer) (name : String) (i : Nat) (p : Pass) :
    registerExport c name i p =
      (.ok (), (if (p.registry.lookup name).isSome then p.report c (.duplicateExport name)
        else p).register name (.own i)) := by
  rw [registerExport]
  show (ite ((p.registry.lookup name).isSome = true) (_ : PassM Unit) _) p = _
  by_cases double : (p.registry.lookup name).isSome = true
  · rw [if_pos double, if_pos double]
    rfl
  · rw [if_neg double, if_neg double]
    rfl

/-- The exports of the file get their names in both passes. -/
theorem registerExports_abreast (fair : T.Fair) (h : T.Naming p q) :
    ∃ p' q', registerExports (.noting T.file) p = (.ok (), p') ∧
      registerExports (.noting T.file) q = (.ok (), q') ∧ T.Naming p' q' := by
  have entries : q.sheet.exports.zipIdx =
      p.sheet.exports.zipIdx.map fun x => (x.1.mapUses T.ways.turn, x.2) := by
    rw [h.sheet, h.sheet', fair.exports, List.zipIdx_map]
    rfl
  have loop := forM_abreast (fun x => registerExport (.noting T.file) x.1.name x.2)
    (fun x => registerExport (.noting T.file) x.1.name x.2)
    (fun x => (x.1.mapUses T.ways.turn, x.2)) (l := p.sheet.exports.zipIdx)
    (I := fun _ p q => T.Naming p q) h (by
      rintro before ⟨e, i⟩ after split p₁ q₁ h₁
      have found : T.left.exports[i]? = some e := by
        rw [← h.sheet]
        exact getElem?_of_split split
      have named : exportName T.left i = some e.name := congrArg (Option.map ExportBlock.name) found
      have named' : exportName T.right i = some e.name := (fair.exportName_right i).trans named
      have ne : e.name ≠ T.name := by
        rintro same
        exact fair.foreign (same ▸ List.mem_map_of_mem (List.mem_of_getElem? found))
      have registered := registerExport_eq (.noting T.file) e.name i
      have known := h₁.lookup_eq ne
      by_cases double : (p₁.registry.lookup e.name).isSome
      · have first := registered p₁
        have second := registered q₁
        rw [if_pos double] at first
        rw [known, if_pos double] at second
        exact ⟨_, _, first, second, (h₁.log _ _).register ne named named'⟩
      · have first := registered p₁
        have second := registered q₁
        rw [if_neg double] at first
        rw [known, if_neg double] at second
        exact ⟨_, _, first, second, h₁.register ne named named'⟩)
  rw [← entries] at loop
  exact loop

/-- The step that gives a name that is imported its block. -/
def importName (c : Consumer) (path source : String) (table : List (String × Nat))
    (name : String) : PassM Unit :=
  match table.lookup name with
  | some i => modify (·.register name (.foreign path i))
  | none => modify (·.report c (.importNotFound name source (table.map (·.1))))

theorem applyImport_noting (file : String) (imp : ImportDirective) (p : Pass) :
    applyImport (.noting file) imp p = (imp.names.forM (importName (.noting file)
      (pathIn file imp.source) imp.source
      (exportTable (p.session.exports (pathIn file imp.source)))))
        (p.ask (pathIn file imp.source)) :=
  bind_of_ok (exportsOf_noting (pathIn file imp.source) p)

/-- Names are given while what the name itself stands for and what was asked for remain. -/
structure Names (T : Twins) (p q p' q' : Pass) : Prop where
  naming : T.Naming p' q'
  still : p'.registry.lookup T.name = p.registry.lookup T.name
  asked : p.dependencies ⊆ p'.dependencies

theorem Names.trans {p'' q'' : Pass} (h : T.Names p q p' q') (h' : T.Names p' q' p'' q'') :
    T.Names p q p'' q'' :=
  ⟨h'.naming, h'.still.trans h.still, List.Subset.trans h.asked h'.asked⟩

/-- An import of other names gives them their blocks in both passes. -/
theorem applyImport_abreast (h : T.Naming p q) {imp : ImportDirective}
    (named : pathIn T.file imp.source ∈ T.left.allSources T.file) (other : T.name ∉ imp.names) :
    ∃ p' q', applyImport (.noting T.file) imp p = (.ok (), p') ∧
      applyImport (.noting T.file) imp q = (.ok (), q') ∧ T.Names p q p' q' := by
  obtain ⟨exports, exports'⟩ := h.exports (pathIn T.file imp.source)
  rw [applyImport_noting, applyImport_noting, exports, exports']
  generalize exportTable (T.session.exports (pathIn T.file imp.source)) = table
  have start : T.Names p q (p.ask (pathIn T.file imp.source)) (q.ask (pathIn T.file imp.source)) :=
    ⟨h.ask named, rfl, subset_depend p _⟩
  obtain ⟨p', q', run, run', names, -⟩ := forM_both
    (importName (.noting T.file) (pathIn T.file imp.source) imp.source table)
    (importName (.noting T.file) (pathIn T.file imp.source) imp.source table) (l := imp.names)
    (I := fun _ p' q' => T.Names p q p' q' ∧ pathIn T.file imp.source ∈ p'.dependencies ∧
      pathIn T.file imp.source ∈ q'.dependencies) ⟨start, mem_depend p _, mem_depend q _⟩ (by
      rintro before name after split p₁ q₁ ⟨h₁, known, known'⟩
      have ne : name ≠ T.name := by
        rintro rfl
        exact other (mem_of_split split)
      unfold importName
      cases table.lookup name with
      | some i =>
        have still := Table.lookup_put_of_ne ne.symm
          (BlockRef.foreign (pathIn T.file imp.source) i) p₁.registry
        exact ⟨_, _, rfl, rfl, ⟨h₁.naming.register ne known known', still.trans h₁.still, h₁.asked⟩,
          known, known'⟩
      | none =>
        exact ⟨_, _, rfl, rfl, ⟨h₁.naming.log _ _, h₁.still, h₁.asked⟩, known, known'⟩)
  exact ⟨p', q', run, run', names⟩

/-- So do any number of imports. -/
theorem applyImports_abreast (h : T.Naming p q) (imports : List ImportDirective)
    (named : ∀ imp ∈ imports, pathIn T.file imp.source ∈ T.left.allSources T.file)
    (other : ∀ imp ∈ imports, T.name ∉ imp.names) :
    ∃ p' q', imports.forM (applyImport (.noting T.file)) p = (.ok (), p') ∧
      imports.forM (applyImport (.noting T.file)) q = (.ok (), q') ∧ T.Names p q p' q' := by
  apply forM_both _ _ (I := fun _ p' q' => T.Names p q p' q') ⟨h, rfl, List.Subset.refl _⟩
  intro before imp after split p₁ q₁ h₁
  have mem : imp ∈ imports := mem_of_split split
  obtain ⟨p₂, q₂, run, run', h₂⟩ := applyImport_abreast h₁.naming (named imp mem) (other imp mem)
  exact ⟨p₂, q₂, run, run', h₁.trans h₂⟩

/-- The import of the name gives it the last block of that name, in the first pass only. -/
theorem applyImport_left (fair : T.Fair) (h : T.Naming p q) :
    ∃ p', applyImport (.noting T.file) ⟨[T.name], T.source⟩ p = (.ok (), p') ∧ T.Naming p' q ∧
      p'.registry.lookup T.name = some (.foreign T.provider T.last) ∧
      T.provider ∈ p'.dependencies := by
  have exports := (h.exports T.provider).1
  have found : (exportTable (p.session.exports T.provider)).lookup T.name = some T.last := by
    rw [exports, fair.last]
  have known := mem_depend p T.provider
  refine ⟨(p.ask T.provider).register T.name (.foreign T.provider T.last), ?_,
    (h.askLeft fair.imported).registerLeft known, Table.lookup_put_self _ _ _, known⟩
  have step : importName (.noting T.file) T.provider T.source
      (exportTable (p.session.exports T.provider)) T.name (p.ask T.provider) =
        (.ok (), (p.ask T.provider).register T.name (.foreign T.provider T.last)) := by
    rw [importName, found]
    rfl
  rw [applyImport_noting]
  exact bind_of_ok step

/-- Names are given by the imports of both readings. -/
theorem imports_abreast (fair : T.Fair) (h : T.Naming p q) :
    ∃ p' q', T.left.imports.forM (applyImport (.noting T.file)) p = (.ok (), p') ∧
      T.right.imports.forM (applyImport (.noting T.file)) q = (.ok (), q') ∧ T.Naming p' q' ∧
      p'.registry.lookup T.name = some (.foreign T.provider T.last) ∧
      T.provider ∈ p'.dependencies := by
  obtain ⟨before, after, imports, imports', others⟩ := fair.imports
  have named : ∀ imp ∈ before ++ after, pathIn T.file imp.source ∈ T.left.allSources T.file := by
    intro imp mem
    apply List.mem_append_left
    apply List.mem_map.2 ⟨imp, ?_, rfl⟩
    rw [imports]
    rcases List.mem_append.1 mem with mem | mem
    · exact List.mem_append_left _ mem
    · exact List.mem_append_right _ (List.mem_cons_of_mem _ mem)
  have split (c : Consumer) (xs ys : List ImportDirective) : (xs ++ ys).forM (applyImport c) =
      xs.forM (applyImport c) >>= fun _ => ys.forM (applyImport c) := by
    simp only [List.forM_eq_forM, List.forM_append]
  obtain ⟨p₁, q₁, run₁, run₁', names₁⟩ := applyImports_abreast h before
    (fun imp mem => named imp (List.mem_append_left _ mem))
    (fun imp mem => others imp (List.mem_append_left _ mem))
  obtain ⟨p₂, run₂, naming₂, imported, known⟩ := applyImport_left fair names₁.naming
  obtain ⟨p₃, q₃, run₃, run₃', names₃⟩ := applyImports_abreast naming₂ after
    (fun imp mem => named imp (List.mem_append_right _ mem))
    (fun imp mem => others imp (List.mem_append_right _ mem))
  refine ⟨p₃, q₃, ?_, ?_, names₃.naming, names₃.still.trans imported, names₃.asked known⟩
  · rw [imports, split]
    exact (bind_of_ok run₁).trans ((bind_of_ok run₂).trans run₃)
  · rw [imports', split]
    exact (bind_of_ok run₁').trans run₃'

/-- When names are given the work on blocks begins. -/
theorem Naming.abreast (h : T.Naming p q)
    (imported : p.registry.lookup T.name = some (.foreign T.provider T.last))
    (known : T.provider ∈ p.dependencies) : T.Abreast [] p q where
  left := h.left
  right := h.right
  library := h.library
  library' := h.library'
  asked := h.asked
  asked' := h.asked'
  registry := h.registry
  imported := imported
  known := known
  done i := by rw [h.done, h.done']
  open_ i mem := absurd mem List.not_mem_nil
  untouched i _ _ := ⟨body_own_congr h.sheet, body_own_congr h.sheet'⟩
  same i done := by
    rw [h.done] at done
    exact absurd done List.not_mem_nil

/-! ## Exports -/

/-- Both passes are abreast, and the rules are as they were at first. -/
structure Ready (T : Twins) (p q : Pass) : Prop extends T.Abreast [] p q where
  rules : ∀ i,
    p.body (.rule i) = T.left.block (.rule i) ∧ q.body (.rule i) = T.right.block (.rule i)

/-- An export is resolved in both passes. -/
theorem resolveExport_own (fair : T.Fair) (enough : T.left.allUses.length < depth)
    (h : T.Ready p q) {i : Nat} (inside : i < T.left.exports.length) :
    ∃ p' q', resolveExport (.noting T.file) depth (.own i) p = (.ok (), p') ∧
      resolveExport (.noting T.file) depth (.own i) q = (.ok (), q') ∧ T.Ready p' q' ∧
      .own i ∈ p'.done ∧ p.done ⊆ p'.done := by
  have named : exportName T.left i = some T.left.exports[i].name :=
    congrArg (Option.map ExportBlock.name) (List.getElem?_eq_getElem inside)
  have owner : p.nameOf (.own i) = some T.left.exports[i].name := (h.left.nameOf_eq i).trans named
  have owner' : q.nameOf (.own i) = some T.left.exports[i].name :=
    ((h.right.nameOf_eq i).trans (fair.exportName_right i)).trans named
  have enough' : T.right.allUses.length < depth := by
    rw [fair.allUses_right, List.length_map]
    exact enough
  have watched : Watched T.left [T.left.exports[i].name] (.own i) :=
    ⟨_, List.mem_singleton_self _, named⟩
  have work : T.Working [.own i] depth [T.left.exports[i].name] (.own i) := by
    refine ⟨inside, ?_, watched, ?_, ?_, ?_, ?_⟩
    · rintro _ ⟨⟩
      exact List.mem_singleton_self _
    · intro other mem
      rw [List.mem_singleton.1 mem]
      exact watched
    · exact List.cons_subset.2 ⟨List.mem_map_of_mem (List.getElem_mem inside), List.nil_subset _⟩
    · exact Outset.affords_of_lt enough _
    · exact Outset.affords_of_lt enough' _
  obtain ⟨p', q', settles, settles', abreast, done, others⟩ := settle_export fair (keeps fair depth)
    work (Nat.zero_lt_of_lt enough) h.toAbreast List.not_mem_nil
  refine ⟨p', q', resolveExport_of_settles ?_, resolveExport_of_settles ?_, ⟨abreast, ?_⟩, done⟩
  · rw [owner]
    exact settles
  · rw [owner']
    exact settles'
  · intro j
    obtain ⟨still, still'⟩ := others (.rule j) (by rintro ⟨⟩) trivial
    rw [still, still']
    exact h.rules j

/-- A block of another file is resolved already. -/
theorem resolveExport_foreign {c : Consumer} (depth : Nat) {source : String} {i : Nat}
    (clean : p.session.Clean) (free : (p.body (.foreign source i)).allUses = []) :
    ∃ p', resolveExport c depth (.foreign source i) p = (.ok (), p') ∧
      (p' = p ∨ p' = p.markDone (.foreign source i)) := by
  obtain ⟨p', settles, marked⟩ := settles_foreign (c := c) depth
    (p.nameOf (.foreign source i)).toList clean free
  exact ⟨p', resolveExport_of_settles settles, marked⟩

/-- A block of another file, resolved in the first pass only. -/
theorem resolveExport_left (fair : T.Fair) (depth : Nat) (h : T.Ready p q) (source : String)
    (i : Nat) : ∃ p', resolveExport (.noting T.file) depth (.foreign source i) p = (.ok (), p') ∧
      T.Ready p' q := by
  have free : (p.body (.foreign source i)).allUses = [] := by
    rw [(h.body_foreign source i).1]
    exact fair.free_block source i
  obtain ⟨p', run, rfl | rfl⟩ := resolveExport_foreign (c := .noting T.file) depth
    (h.clean fair).1 free
  · exact ⟨p', run, h⟩
  · exact ⟨_, run, h.toAbreast.markForeign source i, h.rules⟩

theorem resolveExport_right (fair : T.Fair) (depth : Nat) (h : T.Ready p q) (source : String)
    (i : Nat) : ∃ q', resolveExport (.noting T.file) depth (.foreign source i) q = (.ok (), q') ∧
      T.Ready p q' := by
  have free : (q.body (.foreign source i)).allUses = [] := by
    rw [(h.body_foreign source i).2]
    exact fair.free_block source i
  obtain ⟨q', run, rfl | rfl⟩ := resolveExport_foreign (c := .noting T.file) depth
    (h.clean fair).2 free
  · exact ⟨q', run, h⟩
  · exact ⟨_, run, h.toAbreast.markForeign' source i, h.rules⟩

/-- The blocks that names stand for are resolved, in the second pass without the name that it does
not import. -/
theorem registry_abreast (fair : T.Fair) (enough : T.left.allUses.length < depth)
    (entries : List (String × BlockRef)) (stands : ∀ entry ∈ entries,
      MayStandFor T.left (T.left.allSources T.file) entry.1 entry.2) (h : T.Ready p q) :
    ∃ p' q', (entries.forM fun entry => resolveExport (.noting T.file) depth entry.2) p =
        (.ok (), p') ∧
      ((Table.erase T.name entries).forM fun entry =>
        resolveExport (.noting T.file) depth entry.2) q = (.ok (), q') ∧ T.Ready p' q' := by
  induction entries generalizing p q with
  | nil => exact ⟨p, q, rfl, rfl, h⟩
  | cons entry entries ih =>
    obtain ⟨name, ref⟩ := entry
    have others := fun entry mem => stands entry (List.mem_cons_of_mem _ mem)
    have this := stands _ List.mem_cons_self
    by_cases same : T.name = name
    · subst same
      have erased : Table.erase T.name ((T.name, ref) :: entries) = Table.erase T.name entries := by
        simp [Table.erase]
      rw [erased]
      cases ref with
      | own i =>
        have mem : T.name ∈ T.left.exports.map ExportBlock.name := by
          refine List.mem_of_getElem? (i := i) ?_
          rw [List.getElem?_map]
          exact this
        exact absurd mem fair.foreign
      | rule i => exact this.elim
      | foreign source i =>
        obtain ⟨p₁, run, h₁⟩ := resolveExport_left fair depth h source i
        obtain ⟨p', q', rest, rest', h'⟩ := ih others h₁
        exact ⟨p', q', (bind_of_ok run).trans rest, rest', h'⟩
    · have kept : Table.erase T.name ((name, ref) :: entries) =
          (name, ref) :: Table.erase T.name entries := by
        simp [Table.erase, same]
      rw [kept]
      obtain ⟨p₁, q₁, run, run', h₁⟩ : ∃ p₁ q₁,
          resolveExport (.noting T.file) depth ref p = (.ok (), p₁) ∧
          resolveExport (.noting T.file) depth ref q = (.ok (), q₁) ∧ T.Ready p₁ q₁ := by
        cases ref with
        | own i =>
          obtain ⟨p₁, q₁, run, run', h₁, -⟩ :=
            resolveExport_own fair enough h (lt_of_exportName this)
          exact ⟨p₁, q₁, run, run', h₁⟩
        | rule i => exact this.elim
        | foreign source i =>
          obtain ⟨p₁, run, h₁⟩ := resolveExport_left fair depth h source i
          obtain ⟨q₁, run', h₂⟩ := resolveExport_right fair depth h₁ source i
          exact ⟨p₁, q₁, run, run', h₂⟩
      obtain ⟨p', q', rest, rest', h'⟩ := ih others h₁
      exact ⟨p', q', (bind_of_ok run).trans rest, (bind_of_ok run').trans rest', h'⟩

theorem Naming.ready (h : T.Naming p q)
    (imported : p.registry.lookup T.name = some (.foreign T.provider T.last))
    (known : T.provider ∈ p.dependencies) : T.Ready p q := by
  refine ⟨h.abreast imported known, fun i => ⟨?_, ?_⟩⟩
  · exact body_congr_of_ne (p := Pass.start Session.empty T.left) (by rintro _ _ ⟨⟩) h.sheet
  · exact body_congr_of_ne (p := Pass.start Session.empty T.right) (by rintro _ _ ⟨⟩) h.sheet'

/-- In both passes names are given to blocks and all exports are resolved. -/
theorem prepare_abreast (fair : T.Fair) (enough : T.left.allUses.length < depth) :
    ∃ p q, prepare (.noting T.file) depth (Pass.start T.session T.left) = (.ok (), p) ∧
      prepare (.noting T.file) depth (Pass.start T.session T.right) = (.ok (), q) ∧
      T.Ready p q ∧ ∀ i < T.left.exports.length, .own i ∈ p.done := by
  obtain ⟨p₁, q₁, run₁, run₁', naming₁⟩ := registerExports_abreast fair (.start T)
  obtain ⟨p₂, q₂, run₂, run₂', naming₂, imported, known⟩ := imports_abreast fair naming₁
  have stands : ∀ entry ∈ p₂.registry,
      MayStandFor T.left (T.left.allSources T.file) entry.1 entry.2 := fun entry mem =>
    (naming₂.left.registry entry mem).mono naming₂.asked
  obtain ⟨p₃, q₃, run₃, run₃', ready₃⟩ := registry_abreast fair enough p₂.registry stands
    (naming₂.ready imported known)
  obtain ⟨p₄, q₄, run₄, run₄', ready₄, dones⟩ := forM_both
    (fun i => resolveExport (.noting T.file) depth (.own i))
    (fun i => resolveExport (.noting T.file) depth (.own i)) (l := List.range T.left.exports.length)
    (I := fun before p q => T.Ready p q ∧ ∀ i ∈ before, .own i ∈ p.done)
    ⟨ready₃, fun i mem => absurd mem List.not_mem_nil⟩ (by
      rintro before i after split p q ⟨ready, dones⟩
      have inside : i < T.left.exports.length := lt_of_split split
      obtain ⟨p', q', run, run', ready', done, grown⟩ := resolveExport_own fair enough ready inside
      refine ⟨p', q', run, run', ready', fun j mem => ?_⟩
      rcases List.mem_append.1 mem with mem | mem
      · exact grown (dones j mem)
      · exact List.mem_singleton.1 mem ▸ done)
  have exports := ready₃.left.length_exports
  have exports' : q₃.sheet.exports.length = T.left.exports.length := by
    rw [ready₃.right.length_exports, fair.exports, List.length_map]
  refine ⟨p₄, q₄, ?_, ?_, ready₄, fun i inside => dones i (List.mem_range.2 inside)⟩
  · rw [← naming₁.sheet] at run₂
    rw [← exports] at run₄
    exact (bind_of_ok run₁).trans ((bind_of_ok run₂).trans ((bind_of_ok run₃).trans run₄))
  · rw [← naming₁.sheet'] at run₂'
    rw [← naming₂.registry] at run₃'
    rw [← exports'] at run₄'
    exact (bind_of_ok run₁').trans ((bind_of_ok run₂').trans ((bind_of_ok run₃').trans run₄'))

/-! ## Rules -/

/-- While the rules with these indices are resolved: they are the same but for copies, and the
others are as they were at first. -/
structure Ruled (T : Twins) (indices : List Nat) (p q : Pass) : Prop extends T.Abreast [] p q where
  grown : ∀ i ∈ indices, (p.body (.rule i)).allUses = [] ∧
    ∃ k, T.ways.GrownBut k (T.left.block (.rule i)) (p.body (.rule i)) (q.body (.rule i))
  rules : ∀ i, i ∉ indices →
    p.body (.rule i) = T.left.block (.rule i) ∧ q.body (.rule i) = T.right.block (.rule i)
  /-- All exports are resolved. -/
  exported : ∀ i < T.left.exports.length, .own i ∈ p.done

/-- A rule is resolved in both passes. -/
theorem resolveRule_abreast (fair : T.Fair) (enough : T.left.allUses.length < depth)
    {indices : List Nat} (h : T.Ruled indices p q) {i : Nat} (inside : i < T.left.rules.length)
    (new : i ∉ indices) :
    ∃ p' q', resolveBlock (.noting T.file) depth [] (.rule i) p = (.ok (), p') ∧
      resolveBlock (.noting T.file) depth [] (.rule i) q = (.ok (), q') ∧
      T.Ruled (indices ++ [i]) p' q' := by
  have enough' : T.right.allUses.length < depth := by
    rw [fair.allUses_right, List.length_map]
    exact enough
  have work : T.Working [] depth [] (.rule i) := by
    refine ⟨inside, ?_, trivial, ?_, List.nil_subset _, ?_, ?_⟩
    · rintro _ ⟨⟩
    · exact fun other mem => absurd mem List.not_mem_nil
    · exact Outset.affords_of_lt enough []
    · exact Outset.affords_of_lt enough' []
  obtain ⟨body, body'⟩ := h.rules i new
  obtain ⟨p', q', run, run', resolved⟩ := keeps fair depth work (Nat.zero_lt_of_lt enough)
    h.toAbreast body body'
  have others {j : Nat} (ne : j ≠ i) : p'.body (.rule j) = p.body (.rule j) ∧
      q'.body (.rule j) = q.body (.rule j) := by
    have other : BlockRef.rule j ≠ .rule i := fun same => ne (BlockRef.rule.inj same)
    exact ⟨resolved.left.others _ other trivial, resolved.right.others _ other trivial⟩
  refine ⟨p', q', run, run', resolved.abreast, ?_, ?_, fun j inside =>
    resolved.left.done (h.exported j inside)⟩
  · intro j mem
    by_cases same : j = i
    · rw [same]
      exact ⟨resolved.free, resolved.grown⟩
    · have before : j ∈ indices := (List.mem_append.1 mem).resolve_right fun mem =>
        same (List.mem_singleton.1 mem)
      rw [(others same).1, (others same).2]
      exact h.grown j before
  · intro j out
    rw [List.mem_append, List.mem_singleton, not_or] at out
    rw [(others out.2).1, (others out.2).2]
    exact h.rules j out.1

/-- In both passes the rules are resolved one after the other. -/
theorem resolveRules_abreast (fair : T.Fair) (enough : T.left.allUses.length < depth)
    (h : T.Ready p q) (exported : ∀ i < T.left.exports.length, .own i ∈ p.done) :
    ∃ p' q', resolveRules (.noting T.file) depth p = (.ok (), p') ∧
      resolveRules (.noting T.file) depth q = (.ok (), q') ∧
      T.Ruled (List.range T.left.rules.length) p' q' := by
  have start : T.Ruled [] p q :=
    ⟨h.toAbreast, fun i mem => absurd mem List.not_mem_nil, fun i _ => h.rules i, exported⟩
  obtain ⟨p', q', run, run', ruled⟩ := forM_both
    (fun i => resolveBlock (.noting T.file) depth [] (.rule i))
    (fun i => resolveBlock (.noting T.file) depth [] (.rule i))
    (l := List.range T.left.rules.length)
    (I := fun before p q => T.Ruled before p q) start (by
      intro before i after split p q ruled
      have inside : i < T.left.rules.length := lt_of_split split
      have once : (before ++ i :: after).Nodup := split ▸ List.nodup_range
      have new : i ∉ before := fun mem =>
        (List.nodup_append.1 once).2.2 i mem i List.mem_cons_self rfl
      exact resolveRule_abreast fair enough ruled inside new)
  have rules := h.left.length_rules
  have rules' : q.sheet.rules.length = T.left.rules.length := by
    rw [h.right.length_rules, fair.rules, List.length_map]
  refine ⟨p', q', ?_, ?_, ruled⟩
  · rw [← rules] at run
    exact run
  · rw [← rules'] at run'
    exact run'

/-- Both passes over the whole file come to an end, abreast of each other. -/
theorem pass_abreast (fair : T.Fair) (enough : T.left.allUses.length < depth) :
    ∃ p q, resolveAll (.noting T.file) depth (Pass.start T.session T.left) = (.ok (), p) ∧
      resolveAll (.noting T.file) depth (Pass.start T.session T.right) = (.ok (), q) ∧
      T.Ruled (List.range T.left.rules.length) p q := by
  obtain ⟨p₁, q₁, run, run', ready, exported⟩ := prepare_abreast fair enough
  obtain ⟨p, q, rest, rest', ruled⟩ := resolveRules_abreast fair enough ready exported
  exact ⟨p, q, (bind_of_ok run).trans rest, (bind_of_ok run').trans rest', ruled⟩

end Twins

end Reuse

end NestedStyles
