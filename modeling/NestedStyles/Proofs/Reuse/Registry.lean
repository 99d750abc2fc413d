import NestedStyles.Proofs.Reuse.Inlining

/-!
# What names stand for

A pass first lets names stand for blocks: those of the file's own exports one after the other, then
those of its imports. `Outset.Names` says that this is done for a part of the file, and each step
takes it to a part with one export or one imported name more.
-/

namespace NestedStyles

namespace Reuse

namespace Consumer

variable {c : Consumer} {provided : String → List ExportBlock}

/-- The last import comes first. -/
theorem blockNamed_import (sheet : Stylesheet) (before : List ImportDirective)
    (imp : ImportDirective) (n : String) :
    c.blockNamed provided { sheet with imports := before ++ [imp] } n =
      (if n ∈ imp.names then (provided (c.pathOf imp.source)).find? (·.name == n) else none).or
        (c.blockNamed provided { sheet with imports := before } n) := by
  rw [blockNamed, List.reverse_append, List.reverse_singleton, List.singleton_append,
    List.findSome?_cons, blockNamed]
  cases (if n ∈ imp.names then (provided (c.pathOf imp.source)).find? (·.name == n) else none) with
  | none => rw [Option.none_or]
  | some e => rw [Option.some_or, Option.some_or]

/-- An import of no names says nothing. -/
theorem blockNamed_import_nil (sheet : Stylesheet) (before : List ImportDirective)
    (source n : String) :
    c.blockNamed provided { sheet with imports := before ++ [⟨[], source⟩] } n =
      c.blockNamed provided { sheet with imports := before } n := by
  rw [blockNamed_import, if_neg List.not_mem_nil, Option.none_or]

/-- A name that an import has besides says nothing about other names. -/
theorem blockNamed_import_of_ne (sheet : Stylesheet) (before : List ImportDirective)
    (names : List String) (source : String) {name n : String} (ne : n ≠ name) :
    c.blockNamed provided { sheet with imports := before ++ [⟨names ++ [name], source⟩] } n =
      c.blockNamed provided { sheet with imports := before ++ [⟨names, source⟩] } n := by
  have same : n ∈ names ++ [name] ↔ n ∈ names := by simp [ne]
  rw [blockNamed_import, blockNamed_import]
  simp only [same]

/-- Where there is no such block, a name that an import has besides says nothing. -/
theorem blockNamed_import_absent (sheet : Stylesheet) (before : List ImportDirective)
    (names : List String) {source name : String}
    (absent : (provided (c.pathOf source)).find? (·.name == name) = none) (n : String) :
    c.blockNamed provided { sheet with imports := before ++ [⟨names ++ [name], source⟩] } n =
      c.blockNamed provided { sheet with imports := before ++ [⟨names, source⟩] } n := by
  by_cases ne : n = name
  · rw [ne, blockNamed_import, blockNamed_import, absent, ite_self, ite_self]
  · exact blockNamed_import_of_ne sheet before names source ne

/-- Without imports the last export comes first. -/
theorem blockNamed_export (sheet : Stylesheet) (before : List ExportBlock) (e : ExportBlock)
    (n : String) :
    c.blockNamed provided { sheet with exports := before ++ [e], imports := [] } n =
      if e.name = n then some e
      else c.blockNamed provided { sheet with exports := before, imports := [] } n := by
  rw [blockNamed, List.reverse_append, List.reverse_singleton, List.singleton_append,
    List.find?_cons, blockNamed]
  by_cases same : e.name = n
  · simp [same]
  · simp [same, beq_false_of_ne same]

end Consumer

/-! ## Tables of exports -/

/-- The table of exports leads to exports with the name. -/
theorem exists_of_lookup_exportTable {es : List ExportBlock} {name : String} {i : Nat}
    (h : (exportTable es).lookup name = some i) : ∃ e, es[i]? = some e ∧ e.name = name := by
  obtain ⟨⟨e, j⟩, mem, same⟩ := List.mem_map.1 (Table.mem_of_lookup_ofList h)
  obtain ⟨rfl, rfl⟩ := Prod.mk.inj same
  exact ⟨e, List.mk_mem_zipIdx_iff_getElem?.1 mem, rfl⟩

/-- A name that is not in the table of exports is the name of none. -/
theorem find?_of_lookup_exportTable {es : List ExportBlock} {name : String}
    (h : (exportTable es).lookup name = none) : es.find? (·.name == name) = none := by
  rw [List.find?_eq_none]
  intro e he same
  obtain ⟨i, hi⟩ := List.mem_iff_getElem?.1 he
  refine Table.ne_of_lookup_ofList h (e.name, i) ?_ (beq_iff_eq.1 same)
  exact List.mem_map_of_mem (List.mk_mem_zipIdx_iff_getElem?.2 hi)

/-- Where names are different, each export is found by its name. -/
theorem find?_of_distinct {es : List ExportBlock} (distinct : (es.map ExportBlock.name).Nodup)
    {e : ExportBlock} (he : e ∈ es) : es.find? (·.name == e.name) = some e := by
  cases found : es.find? (·.name == e.name) with
  | none => exact absurd (beq_self_eq_true e.name) (List.find?_eq_none.1 found e he)
  | some e' =>
    have same : e'.name = e.name := by simpa using List.find?_some found
    rw [List.inj_on_of_nodup_map distinct (List.mem_of_find?_eq_some found) he same]

/-! ## Letting names stand for blocks -/

/-- A fault of another kind than that of a use is none of the faults of uses. -/
theorem useFaults_other {file : String} {φ : Fault} (h : φ.isOfUse = false) :
    useFaults file [.fault file φ] = [] := by
  simp [useFaults, h]

namespace Outset

/-- Names stand for these blocks instead. -/
def naming (S : Outset) (registry : List (String × BlockRef)) (known : List String) : Outset :=
  { S with registry := registry, known := known }

/-- The pass has come so far, and names stand for what a part of the file says. -/
def Names (S : Outset) (part : Stylesheet) (base : List Fault) (held : BlockRef → Option Body)
    (p : Pass) : Prop :=
  ∃ registry known, (S.naming registry known).Inv base held p ∧
    (S.naming registry known).Registered part

variable {S : Outset} {part part' : Stylesheet} {base : List Fault}
variable {held : BlockRef → Option Body} {p : Pass} {before : List ExportBlock}

namespace Names

/-- Only what names stand for in a part of the file matters. -/
theorem congr (h : S.Names part base held p)
    (same : ∀ n, S.consumer.blockNamed S.provided part' n =
      S.consumer.blockNamed S.provided part n) : S.Names part' base held p := by
  obtain ⟨registry, known, inv, finds, named, asked⟩ := h
  exact ⟨registry, known, inv, fun n => (finds n).trans (same n).symm, named, asked⟩

/-- A fault of another kind than that of a use is written down. -/
theorem report (served : S.consumer.Serves S.provided S.ready) (h : S.Names part base held p)
    {φ : Fault} (other : φ.isOfUse = false) : S.Names part base held (p.report S.consumer φ) := by
  obtain ⟨registry, known, inv, registered⟩ := h
  refine ⟨registry, known, inv.of_session (served.log _ _ inv.ready) inv.asked ?_, registered⟩
  rw [Session.log, useFaults_append]
  change (useFaults _ _ ++ useFaults S.consumer.file [.fault S.consumer.file φ]).Perm _
  rw [useFaults_other other, List.append_nil]
  exact inv.faults

/-- The exports of a file were asked for. -/
theorem exportsOf_runs (served : S.consumer.Serves S.provided S.ready)
    (h : S.Names part base held p) (path : String) :
    Runs (exportsOf S.consumer path) p fun es q =>
      es = S.provided path ∧ path ∈ q.dependencies ∧ S.Names part base held q := by
  obtain ⟨registry, known, inv, registered⟩ := h
  refine (Outset.exportsOf_runs (S := S.naming registry known) served inv path).imp ?_
  rintro es q ⟨same, asked, inv⟩
  exact ⟨same, asked, registry, known, inv, registered⟩

/-- A name gets an export of that name to stand for. -/
theorem register (h : S.Names part base held p) {ref : BlockRef} {e : ExportBlock}
    (he : S.export? ref = some e) (asked : ∀ path i, ref = .foreign path i → path ∈ p.dependencies)
    (this : S.consumer.blockNamed S.provided part' e.name = some e)
    (others : ∀ n, n ≠ e.name →
      S.consumer.blockNamed S.provided part' n = S.consumer.blockNamed S.provided part n) :
    S.Names part' base held (p.register e.name ref) := by
  obtain ⟨registry, known, inv, finds, named, loaded⟩ := h
  refine ⟨Table.put e.name ref registry, p.dependencies, ?_, ?_, ?_, ?_⟩
  · exact { inv with
      registry := congrArg (Table.put e.name ref) inv.registry
      known := fun _ h => h }
  · intro n
    by_cases ne : n = e.name
    · rw [ne]
      change ((Table.put e.name ref registry).lookup e.name).bind S.export? = _
      rw [Table.lookup_put_self, Option.bind_some, he]
      exact this.symm
    · change ((Table.put e.name ref registry).lookup n).bind S.export? = _
      rw [Table.lookup_put_of_ne ne]
      exact (finds n).trans (others n ne).symm
  · intro entry mem
    rcases Table.mem_of_mem_put mem with rfl | mem
    · exact ⟨e, he, rfl⟩
    · exact named entry mem
  · intro entry mem path i same
    rcases Table.mem_of_mem_put mem with rfl | mem
    · exact asked path i same
    · exact inv.known path (loaded entry mem path i same)

/-- One of the file's own exports gets its name. -/
theorem registerExport (h : S.Names { S.sheet with exports := before, imports := [] } base held p)
    {i : Nat} {e : ExportBlock} (he : S.sheet.exports[i]? = some e) :
    S.Names { S.sheet with exports := before ++ [e], imports := [] } base held
      (p.register e.name (.own i)) := by
  refine h.register he (by rintro _ _ ⟨⟩) ?_ ?_
  · rw [Consumer.blockNamed_export, if_pos rfl]
  · intro n ne
    rw [Consumer.blockNamed_export, if_neg ne.symm]

/-- The exports of the file get their names. -/
theorem registerExports_runs (served : S.consumer.Serves S.provided S.ready)
    (h : S.Names { S.sheet with exports := [], imports := [] } base held p)
    (start : p.sheet = S.sheet) : Runs (registerExports S.consumer) p fun _ q =>
      q.sheet = S.sheet ∧ S.Names { S.sheet with imports := [] } base held q := by
  refine .get_bind ?_
  rw [start]
  refine .imp (.forM (I := fun before q => q.sheet = S.sheet ∧
    S.Names { S.sheet with exports := before.map Prod.fst, imports := [] } base held q)
    ⟨start, h⟩ ?_) ?_
  · rintro before ⟨e, i⟩ after split q ⟨same, h⟩
    have he : S.sheet.exports[i]? = some e := getElem?_of_split split
    rw [List.map_append, List.map_singleton]
    refine .get_bind ?_
    split
    · exact .modify_bind (.of_modify ⟨same, (h.report served rfl).registerExport he⟩)
    · exact .of_modify ⟨same, h.registerExport he⟩
  · rintro _ q ⟨same, h⟩
    rw [List.zipIdx_map_fst] at h
    exact ⟨same, h⟩

/-- One name of an import gets its block, if there is one. -/
theorem importName_runs (served : S.consumer.Serves S.provided S.ready)
    (imp : ImportDirective) {before : List ImportDirective} {names : List String} {name : String}
    (asked : S.consumer.pathOf imp.source ∈ p.dependencies)
    (h : S.Names { S.sheet with imports := before ++ [⟨names, imp.source⟩] } base held p) :
    Runs (match (exportTable (S.provided (S.consumer.pathOf imp.source))).lookup name with
      | some i => modify (·.register name (.foreign (S.consumer.pathOf imp.source) i))
      | none => modify (·.report S.consumer (.importNotFound name imp.source
          ((exportTable (S.provided (S.consumer.pathOf imp.source))).map (·.1)))) : PassM Unit) p
      fun _ q => S.consumer.pathOf imp.source ∈ q.dependencies ∧ S.Names
        { S.sheet with imports := before ++ [⟨names ++ [name], imp.source⟩] } base held q := by
  cases found : (exportTable (S.provided (S.consumer.pathOf imp.source))).lookup name with
  | some i =>
    obtain ⟨e, he, rfl⟩ := exists_of_lookup_exportTable found
    refine .of_modify ⟨asked, h.register (e := e) he ?_ ?_ ?_⟩
    · rintro _ _ ⟨⟩
      exact asked
    · have first := find?_of_distinct (served.distinct _) (List.mem_of_getElem? he)
      rw [Consumer.blockNamed_import, if_pos (List.mem_append_right _ (List.mem_singleton_self _)),
        first, Option.some_or]
    · exact fun n ne => Consumer.blockNamed_import_of_ne _ _ _ _ ne
  | none =>
    have absent := find?_of_lookup_exportTable found
    refine .of_modify ⟨asked, (h.report served rfl).congr ?_⟩
    exact Consumer.blockNamed_import_absent _ _ _ absent

/-- The names of an import get their blocks. -/
theorem applyImport_runs (served : S.consumer.Serves S.provided S.ready) (imp : ImportDirective)
    {before : List ImportDirective}
    (h : S.Names { S.sheet with imports := before } base held p) :
    Runs (applyImport S.consumer imp) p fun _ q =>
      S.Names { S.sheet with imports := before ++ [imp] } base held q := by
  refine (h.exportsOf_runs served (S.consumer.pathOf imp.source)).bind ?_
  rintro _ q ⟨rfl, asked, h⟩
  refine .imp (.forM (I := fun names q => S.consumer.pathOf imp.source ∈ q.dependencies ∧
    S.Names { S.sheet with imports := before ++ [⟨names, imp.source⟩] } base held q) ⟨asked, ?_⟩ ?_)
    fun _ q h => h.2
  · exact h.congr (Consumer.blockNamed_import_nil _ _ _)
  · intro names name _ _ q h
    exact importName_runs served imp h.1 h.2

/-- The names of all imports get their blocks. -/
theorem applyImports_runs (served : S.consumer.Serves S.provided S.ready)
    (h : S.Names { S.sheet with imports := [] } base held p) :
    Runs (S.sheet.imports.forM (applyImport S.consumer)) p fun _ q =>
      S.Names S.sheet base held q :=
  .forM (I := fun before q => S.Names { S.sheet with imports := before } base held q) h
    fun _ imp _ _ _ h => applyImport_runs served imp h

end Names

end Outset

end Reuse

end NestedStyles
