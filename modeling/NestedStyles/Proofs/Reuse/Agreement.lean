import NestedStyles.Proofs.Reuse.Invalidation
import NestedStyles.Proofs.Reuse.Readings
import NestedStyles.Proofs.Reuse.Retention

/-!
# Where importing a name and naming its source agree

A block of another file can be used in two ways: under its name, which is imported, or with its
source. Both resolutions come to an end. A rule with such a use is the same in both exactly if the
last block of that name in the other file is the first one: a name that is imported stands for the
last one, and a use with a source asks for the first one (`Stylesheet.imported_eq_named_iff`).
-/

namespace NestedStyles

open Reuse

/-- The file in which each use of a name alone names the source, with other imports. -/
def Stylesheet.naming (sheet : Stylesheet) (name source : String)
    (imports : List ImportDirective) : Stylesheet :=
  { sheet.mapUses (UseDirective.qualify name source) with imports := imports }

/-- The file imports the name alone from the source, between other imports, and has no other block
of that name. Nor has it one whose name is the key of a use of the source. -/
structure Stylesheet.ImportsAlone (sheet : Stylesheet) (file name source : String)
    (before after : List ImportDirective) : Prop where
  imports : sheet.imports = before ++ ⟨[name], source⟩ :: after
  others : ∀ imp ∈ before ++ after, name ∉ imp.names
  foreign : name ∉ sheet.exports.map ExportBlock.name
  apart : pathIn file source ++ "#" ++ name ∉ sheet.exports.map ExportBlock.name
  source : source ≠ ""

/-- The session that knows these blocks of these files. -/
def Session.stocked (paths : List String) (blocks : String → List ExportBlock) : Session :=
  ⟨paths.dedup.map fun path => (path, blocks path), [], []⟩

namespace Reuse

/-! ## The first and the last block of a name -/

theorem exportTable_append (es : List ExportBlock) (e : ExportBlock) :
    exportTable (es ++ [e]) = Table.put e.name es.length (exportTable es) := by
  rw [exportTable, exportTable, List.zipIdx_append, List.map_append, Table.ofList, Table.ofList,
    List.foldl_append]
  simp

/-- The table of exports leads to the last one of a name. -/
theorem find?_reverse_eq (es : List ExportBlock) (name : String) :
    es.reverse.find? (·.name == name) =
      ((exportTable es).lookup name).bind fun i => es[i]? := by
  induction es using List.reverseRecOn with
  | nil => rfl
  | append_singleton es e ih =>
    rw [exportTable_append, List.reverse_append, List.reverse_singleton, List.singleton_append,
      List.find?_cons]
    by_cases same : name = e.name
    · rw [same, Table.lookup_put_self]
      simp
    · have other : (e.name == name) = false := beq_false_of_ne (Ne.symm same)
      rw [Table.lookup_put_of_ne same, other]
      simp only [ih]
      cases found : (exportTable es).lookup name with
      | none => rfl
      | some i =>
        obtain ⟨e', here, -⟩ := exists_of_lookup_exportTable found
        rw [Option.bind_some, Option.bind_some, here, List.getElem?_append_left
          (List.getElem?_eq_some_iff.1 here).1, here]

/-- A name that is exported has a first block and a last one. -/
theorem exists_first_last {es : List ExportBlock} {name : String}
    (exported : name ∈ es.map ExportBlock.name) : ∃ i j first last,
      findExport name es = some i ∧ es[i]? = some first ∧
      (exportTable es).lookup name = some j ∧ es[j]? = some last ∧
      es.find? (·.name == name) = some first ∧ es.reverse.find? (·.name == name) = some last := by
  obtain ⟨e, mem, rfl⟩ := List.mem_map.1 exported
  have some (l : List ExportBlock) (mem : e ∈ l) : ∃ e', l.find? (·.name == e.name) = some e' :=
    Option.isSome_iff_exists.1 (List.find?_isSome.2 ⟨e, mem, beq_self_eq_true _⟩)
  obtain ⟨first, found⟩ := some es mem
  obtain ⟨last, found'⟩ := some es.reverse (List.mem_reverse.2 mem)
  have index := found
  have index' := found'
  rw [Outset.find?_eq_findExport, Option.bind_eq_some_iff] at index
  rw [find?_reverse_eq, Option.bind_eq_some_iff] at index'
  obtain ⟨i, here, this⟩ := index
  obtain ⟨j, here', this'⟩ := index'
  exact ⟨i, j, first, last, here, this, here', this', found, found'⟩

/-! ## A session in which all is known -/

/-- Files are named by their absolute paths. -/
theorem absolute_of_mem_allSources {file path : String} {sheet : Stylesheet}
    (named : path ∈ sheet.allSources file) : Path.absolute none path = path := by
  rcases List.mem_append.1 named with mem | mem
  · obtain ⟨imp, -, rfl⟩ := List.mem_map.1 mem
    exact absolute_pathIn file imp.source
  · obtain ⟨u, -, source⟩ := List.mem_filterMap.1 mem
    by_cases bare : u.source.getD "" = ""
    · rw [sourceOf_bare bare] at source
      cases source
    · rw [sourceOf_qualified bare] at source
      obtain rfl := Option.some.inj source
      exact absolute_pathIn file (u.source.getD "")

section

variable {paths : List String} {blocks : String → List ExportBlock}

theorem keys_stocked (paths : List String) (blocks : String → List ExportBlock) :
    (Session.stocked paths blocks).library.map Prod.fst = paths.dedup := by
  rw [Session.stocked, List.map_map]
  exact List.map_id _

theorem exports_stocked {path : String} (canonical : Path.absolute none path = path)
    (mem : path ∈ paths) : (Session.stocked paths blocks).exports path = blocks path := by
  have keys : ((Session.stocked paths blocks).library.map Prod.fst).Nodup := by
    rw [keys_stocked]
    exact paths.nodup_dedup
  have entry : (path, blocks path) ∈ (Session.stocked paths blocks).library :=
    List.mem_map.2 ⟨path, List.mem_dedup.2 mem, rfl⟩
  rw [Session.exports, Session.exports?, canonical, Table.lookup_of_mem keys entry,
    Option.getD_some]

theorem clean_stocked (free : ∀ path ∈ paths, Inquiry.Free (blocks path)) :
    (Session.stocked paths blocks).Clean := by
  constructor
  · rw [keys_stocked]
    exact paths.nodup_dedup
  · intro entry mem
    obtain ⟨path, named, rfl⟩ := List.mem_map.1 mem
    exact free path (List.mem_dedup.1 named)

end

/-- The two readings of a file that imports a name, when these blocks are known. -/
def Twins.ofSheet (file name source : String) (sheet : Stylesheet)
    (imports : List ImportDirective) (blocks : String → List ExportBlock) (first last : Nat) :
    Twins where
  file := file
  name := name
  source := source
  left := sheet
  right := sheet.naming name source imports
  session := .stocked (sheet.allSources file) blocks
  last := last
  first := first

section

variable {file name source : String} {sheet : Stylesheet} {before after : List ImportDirective}
variable {blocks : String → List ExportBlock} {first last : Nat}

theorem mem_allSources_of_imports
    (alone : sheet.ImportsAlone file name source before after) :
    pathIn file source ∈ sheet.allSources file := by
  apply List.mem_append_left
  have mem : ⟨[name], source⟩ ∈ sheet.imports := mem_of_split alone.imports
  exact List.mem_map.2 ⟨_, mem, rfl⟩

theorem fair_ofSheet (alone : sheet.ImportsAlone file name source before after)
    (free : ∀ path ∈ sheet.allSources file, Inquiry.Free (blocks path))
    (found : findExport name (blocks (pathIn file source)) = some first)
    (found' : (exportTable (blocks (pathIn file source))).lookup name = some last) :
    (Twins.ofSheet file name source sheet (before ++ after) blocks first last).Fair := by
  have named := mem_allSources_of_imports alone
  have exports : (Session.stocked (sheet.allSources file) blocks).exports (pathIn file source) =
      blocks (pathIn file source) := exports_stocked (absolute_pathIn file source) named
  constructor
  case clean => exact clean_stocked free
  case exports => rfl
  case rules => rfl
  case source => exact alone.source
  case foreign => exact alone.foreign
  case apart => exact alone.apart
  case imports => exact ⟨before, after, alone.imports, rfl, alone.others⟩
  case last =>
    show (exportTable ((Session.stocked _ blocks).exports (pathIn file source))).lookup name = _
    rw [exports, found']
    rfl
  case first =>
    show findExport name ((Session.stocked _ blocks).exports (pathIn file source)) = _
    rw [exports, found]
    rfl

end

end Reuse

namespace Files

variable {fs : Files} {file : String} {paths : List String} {blocks : String → List ExportBlock}

/-- A session in which files are loaded as they provide stands in for one in which all is known. -/
structure Supplied (fs : Files) (paths : List String) (blocks : String → List ExportBlock)
    (asked : List String) (s t : Session) : Prop where
  exact : fs.Exact t
  library : s.library = (Session.stocked paths blocks).library
  named : asked ⊆ paths
  exports : ∀ path ∈ asked, t.exports path = blocks path

section

variable (canonical : ∀ path ∈ paths, Path.absolute none path = path)

include canonical

theorem likeness_supplied : Likeness (fs.Supplied paths blocks) where
  mono sub h := ⟨h.exact, h.library, List.Subset.trans sub h.named, fun path mem =>
    h.exports path (sub mem)⟩
  exports h path mem := by
    have named := h.named mem
    rw [h.exports path mem, Session.exports_of_library h.library,
      exports_stocked (canonical path named) named]
  log h events := ⟨h.exact.log events, h.library, h.named, h.exports⟩
  keys h := h.exact.keys

/-- A file is loaded as it provides. -/
theorem echoes_supplied (provides : ∀ path ∈ paths, fs.Provides path (.ok (blocks path)))
    {call : Call} (named : call.path ∈ paths) :
    (Loading.stocked file (.stocked paths blocks)).Echoes fs.load (fs.Supplied paths blocks)
      call := by
  intro asked t supplied
  have loaded := (provides call.path named).loads call.canonical (.start fs call.path)
    supplied.exact
  refine ⟨(fs.load call.path t).2, Prod.ext loaded.result rfl, loaded.exact, supplied.library,
    List.cons_subset.2 ⟨named, supplied.named⟩, fun path mem => ?_⟩
  rcases List.mem_cons.1 mem with rfl | mem
  · exact (loaded.exports _ rfl).2
  · have there := supplied.named mem
    exact loaded.exact.exports_later loaded.later (canonical path there) (provides path there)
      (supplied.exports path mem)

/-- A file that is resolved when all is known is resolved the same when files are loaded. -/
theorem resolve_of_stocked {s : Session} {sheet : Stylesheet} {p : Pass} (exact : fs.Exact s)
    (provides : ∀ path ∈ paths, fs.Provides path (.ok (blocks path)))
    (run : resolveAll (.noting file) (sheet.allUses.length + 1)
      (Pass.start (.stocked paths blocks) sheet) = (.ok (), p)) (asked : p.dependencies ⊆ paths)
    (keep : Bool) :
    ∃ s', sheet.resolve ⟨file, fs.load⟩ keep s = (.ok ⟨p.sheet, p.dependencies⟩, s') := by
  have clean : (Session.stocked paths blocks).Clean :=
    clean_stocked fun path named => (provides path named).free _ rfl
  have lawful := Loading.stocked_lawful (s := .stocked paths blocks) file clean
  obtain ⟨calls, _, q, course, -⟩ := (pass_drains lawful file (.stocked paths blocks)
    (Nat.lt_succ_self sheet.allUses.length)).exists_run rfl
  have same := course.run
  have ran : resolveAll ⟨file, (Loading.stocked file (.stocked paths blocks)).load⟩
      (sheet.allUses.length + 1) (Pass.start (.stocked paths blocks) sheet) = (.ok (), p) := run
  cases same.symm.trans ran
  have echoes : ∀ call ∈ calls, (Loading.stocked file (.stocked paths blocks)).Echoes fs.load
      (fs.Supplied paths blocks) call := fun call mem =>
    echoes_supplied canonical provides (asked (course.called call mem).2.1)
  have start : fs.Supplied paths blocks [] (.stocked paths blocks) s :=
    ⟨exact, rfl, List.nil_subset _, fun path mem => absurd mem List.not_mem_nil⟩
  obtain ⟨s', again, -⟩ := course.again (likeness_supplied canonical) echoes start
  have pass : runPass sheet (fun depth => do
      prepare ⟨file, fs.load⟩ depth
      resolveRules ⟨file, fs.load⟩ depth) s = (.ok ⟨p.sheet, p.dependencies⟩, s') := by
    refine runPass_of_ok (q := { p with session := s' }) ?_
    rw [exact.allUses_start]
    exact again
  cases keep with
  | false => exact ⟨_, bind_of_ok pass⟩
  | true => exact ⟨_, bind_of_ok pass⟩

end

end Files

namespace Reuse.Twins.Ruled

variable {T : Twins} {p q : Pass}

theorem rule_eq (h : T.Ruled (List.range T.left.rules.length) p q)
    (same : T.ways.one = T.ways.other)
    {i : Nat} (inside : i < T.left.rules.length) : p.body (.rule i) = q.body (.rule i) := by
  obtain ⟨free, k, grown⟩ := h.grown i (List.mem_range.2 inside)
  exact (grown.sameBut free).eq_of_same same

/-- Where both ways copy the same, the files are resolved into the same rules. -/
theorem rules_eq (h : T.Ruled (List.range T.left.rules.length) p q) (fair : T.Fair)
    (same : T.ways.one = T.ways.other) : q.sheet.rules = p.sheet.rules := by
  have selectors : q.sheet.rules.map StyleRule.selector = p.sheet.rules.map StyleRule.selector := by
    rw [h.left.selectors, h.right.selectors, fair.rules, List.map_map]
    exact List.map_congr_left fun r _ => r.selector_mapUses T.ways.turn
  have length := congrArg List.length selectors
  rw [List.length_map, List.length_map] at length
  refine List.ext_getElem length fun i inside inside' => ?_
  have selector : q.sheet.rules[i].selector = p.sheet.rules[i].selector := by
    have at_index := congrArg (·[i]?) selectors
    simpa [inside, inside'] using at_index
  have body := h.rule_eq same (h.left.length_rules ▸ inside')
  simp only [Pass.body, List.getElem?_eq_getElem inside, List.getElem?_eq_getElem inside',
    Option.map_some, Option.getD_some] at body
  rw [← StyleRule.toRule_body q.sheet.rules[i], ← StyleRule.toRule_body p.sheet.rules[i], selector,
    body]

/-- And into the same exports. -/
theorem exports_eq (h : T.Ruled (List.range T.left.rules.length) p q) (fair : T.Fair)
    (same : T.ways.one = T.ways.other) : q.sheet.exports = p.sheet.exports := by
  have names : q.sheet.exports.map ExportBlock.name = p.sheet.exports.map ExportBlock.name := by
    rw [h.left.names, h.right.names, fair.exports, List.map_map]
    rfl
  have length := congrArg List.length names
  rw [List.length_map, List.length_map] at length
  refine List.ext_getElem length fun i inside inside' => ?_
  have name : q.sheet.exports[i].name = p.sheet.exports[i].name := by
    have at_index := congrArg (·[i]?) names
    simpa [inside, inside'] using at_index
  obtain ⟨k, alike⟩ := h.same i (h.exported i (h.left.length_exports ▸ inside'))
  have body := alike.eq_of_same same
  simp only [Pass.body, Pass.export?, List.getElem?_eq_getElem inside,
    List.getElem?_eq_getElem inside', Option.map_some, Option.getD_some] at body
  generalize q.sheet.exports[i] = e' at name body
  generalize p.sheet.exports[i] = e at name body
  obtain ⟨_, _⟩ := e
  obtain ⟨_, _⟩ := e'
  cases name
  cases body
  rfl

/-- At a place with a use of the name alone the files are resolved into the same exactly if both
ways copy the same, and what is copied stands there. -/
theorem place_iff (h : T.Ruled (List.range T.left.rules.length) p q) (fair : T.Fair) {i : Nat}
    {path : List Nat} {u : UseDirective}
    (used : u ∈ ((T.left.block (.rule i)).inside path).uses) (bare : u.isBare T.name = true) :
    ((p.body (.rule i)).inside path = (q.body (.rule i)).inside path ↔
        T.ways.one = T.ways.other) ∧
      (∃ before after, (p.body (.rule i)).inside path = before ++ T.ways.one ++ after) ∧
      ∃ before after, (q.body (.rule i)).inside path = before ++ T.ways.other ++ after := by
  have some : ((T.left.block (.rule i)).inside path).uses ≠ [] := List.ne_nil_of_mem used
  have inside : i < T.left.rules.length := by
    by_contra outside
    have empty : T.left.block (.rule i) = .empty := by
      simp [Stylesheet.block, Pass.body, Pass.start, List.getElem?_eq_none (Nat.not_lt.1 outside)]
    rw [empty, Body.inside_empty] at some
    exact some rfl
  obtain ⟨free, k, grown⟩ := h.grown i (List.mem_range.2 inside)
  obtain ⟨m, copied, alike⟩ := grown.exists_copies (Body.mem_places some) free used bare
  have one := fair.uses_block T.provider T.last
  have other := fair.uses_block T.provider T.first
  exact ⟨alike.eq_iff copied one other, alike.exists_append copied one,
    alike.exists_append' copied other⟩

end Reuse.Twins.Ruled

namespace Stylesheet

variable {fs : Files} {s : Session} {file name source : String} {sheet : Stylesheet}
variable {before after : List ImportDirective} {es : List ExportBlock}

/-- A file that imports a name from a file that exports it, and has no other block of that name, is
resolved, and so is the file in which each use of the name alone names the source instead of the
import. Where the last block of that name is the same as the first, both have the same rules and
exports. Otherwise no rule that uses the name itself is the same in both: where it is imported the
last block is copied, and where the source is named the first one. -/
theorem imported_eq_named_iff (exact : fs.Exact s)
    (alone : sheet.ImportsAlone file name source before after)
    (provides : ∀ path ∈ sheet.allSources file, ∃ es, fs.Provides path (.ok es))
    (exports : fs.Provides (pathIn file source) (.ok es))
    (exported : name ∈ es.map ExportBlock.name) (keep : Bool) :
    ∃ first last r r' s₁ s₂, es.find? (·.name == name) = some first ∧
      es.reverse.find? (·.name == name) = some last ∧
      sheet.resolve ⟨file, fs.load⟩ keep s = (.ok r, s₁) ∧
      (sheet.naming name source (before ++ after)).resolve ⟨file, fs.load⟩ keep s = (.ok r', s₂) ∧
      (last.toBody = first.toBody →
        r'.sheet.rules = r.sheet.rules ∧ r'.sheet.exports = r.sheet.exports) ∧
      ∀ i path, (∃ u ∈ ((sheet.block (.rule i)).inside path).uses, u.isBare name = true) →
        ((r.sheet.block (.rule i)).inside path = (r'.sheet.block (.rule i)).inside path ↔
          last.toBody = first.toBody) ∧
        (∃ b a, (r.sheet.block (.rule i)).inside path = b ++ last.toBody ++ a) ∧
        ∃ b a, (r'.sheet.block (.rule i)).inside path = b ++ first.toBody ++ a := by
  choose! blocks blocksOf using provides
  have named := mem_allSources_of_imports alone
  have canonical : ∀ path ∈ sheet.allSources file, Path.absolute none path = path :=
    fun _ => absolute_of_mem_allSources
  have known : blocks (pathIn file source) = es :=
    Except.ok.inj ((blocksOf _ named).unique exports)
  obtain ⟨i, j, first, last, found, here, found', here', first_eq, last_eq⟩ :=
    exists_first_last exported
  have fair := fair_ofSheet alone (fun path mem => (blocksOf path mem).free _ rfl)
    (known.symm ▸ found) (known.symm ▸ found')
  let T := Twins.ofSheet file name source sheet (before ++ after) blocks i j
  have provided : T.session.exports T.provider = es :=
    (exports_stocked (canonical _ named) named).trans known
  have block (k : Nat) :
      T.session.block T.provider k = (es[k]?.map ExportBlock.toBody).getD .empty := by
    rw [Session.block, provided]
  have one : T.ways.one = last.toBody := by
    show T.session.block T.provider j = _
    rw [block, here', Option.map_some, Option.getD_some]
  have other : T.ways.other = first.toBody := by
    show T.session.block T.provider i = _
    rw [block, here, Option.map_some, Option.getD_some]
  obtain ⟨p, q, run, run', ruled⟩ := T.pass_abreast fair (Nat.lt_succ_self sheet.allUses.length)
  have uses : T.right.allUses.length = sheet.allUses.length := by
    rw [fair.allUses_right, List.length_map]
    rfl
  rw [← uses] at run'
  obtain ⟨s₁, resolved⟩ := Files.resolve_of_stocked canonical exact blocksOf run ruled.asked keep
  obtain ⟨s₂, resolved'⟩ := Files.resolve_of_stocked canonical exact blocksOf run' ruled.asked' keep
  refine ⟨first, last, _, _, s₁, s₂, first_eq, last_eq, resolved, resolved', fun same => ?_, ?_⟩
  · have copies : T.ways.one = T.ways.other := by rw [one, other, same]
    exact ⟨ruled.rules_eq fair copies, ruled.exports_eq fair copies⟩
  · rintro k path ⟨u, used, bare⟩
    have place := ruled.place_iff fair used bare
    rw [one, other] at place
    exact place

/-- A file that defines a name twice. -/
def twice : Files where
  contents := [("/p", .text "@export n \x7b\nx\n\x7d\n@export n \x7b\ny\n\x7d")]
  config := ⟨[], [], [], "component"⟩
  styles := some

/-- What that file provides. -/
def twiceBlocks : List ExportBlock := [⟨⟨["x"], [], [], []⟩, "n"⟩, ⟨⟨["y"], [], [], []⟩, "n"⟩]

/-- A file that imports the name and uses it. -/
def twiceUsed : Stylesheet where
  rules := [⟨".a", ["k"], [], [⟨"n", none⟩], []⟩]
  exports := []
  imports := [⟨["n"], "./p"⟩]

/-- The rule is not the same for the import of the name and for the use with its source. -/
theorem imported_ne_named_twice :
    twice.Exact Session.empty ∧ twiceUsed.ImportsAlone "/f" "n" "./p" [] [] ∧
      (∀ path ∈ twiceUsed.allSources "/f", ∃ es, twice.Provides path (.ok es)) ∧
      twice.Provides (pathIn "/f" "./p") (.ok twiceBlocks) ∧
      "n" ∈ twiceBlocks.map ExportBlock.name ∧
      ∃ r r' s₁ s₂, twiceUsed.resolve ⟨"/f", twice.load⟩ true Session.empty = (.ok r, s₁) ∧
        (twiceUsed.naming "n" "./p" []).resolve ⟨"/f", twice.load⟩ true Session.empty =
          (.ok r', s₂) ∧
        (r.sheet.block (.rule 0)).inside [] ≠ (r'.sheet.block (.rule 0)).inside [] := by
  have facts : (∀ p ∈ twice.contents.map Prod.fst, ∀ q ∈ twice.refs p, twice.refs q = []) ∧
      twice.loaded "/p" Session.empty = .ok twiceBlocks := by
    decide +kernel
  obtain ⟨shallow, loaded⟩ := facts
  have path : pathIn "/f" "./p" = "/p" := by decide +kernel
  have sources : twiceUsed.allSources "/f" = ["/p"] := by decide +kernel
  have provides : twice.Provides "/p" (.ok twiceBlocks) := by
    obtain ⟨o, provides⟩ := Files.exists_provides (Files.acyclic_of_shallow shallow)
      (Path.absolute none "/p")
    have same := provides.loaded_eq .empty
    have absolute : Path.absolute none "/p" = "/p" := by decide +kernel
    rwa [← same, loaded, absolute] at provides
  have alone : twiceUsed.ImportsAlone "/f" "n" "./p" [] [] := by
    refine ⟨rfl, ?_, ?_, ?_, ?_⟩ <;> decide
  have all : ∀ path ∈ twiceUsed.allSources "/f", ∃ es, twice.Provides path (.ok es) := by
    rw [sources]
    exact List.forall_mem_singleton.2 ⟨_, provides⟩
  have this : twice.Provides (pathIn "/f" "./p") (.ok twiceBlocks) := path ▸ provides
  have exported : "n" ∈ twiceBlocks.map ExportBlock.name := by decide
  obtain ⟨first, last, r, r', s₁, s₂, firstOf, lastOf, resolved, resolved', -, places⟩ :=
    imported_eq_named_iff .empty alone all this exported true
  refine ⟨.empty, alone, all, this, exported, r, r', s₁, s₂, resolved, resolved', fun same => ?_⟩
  have content := (places 0 [] ⟨⟨"n", none⟩, List.mem_singleton_self _, rfl⟩).1.1 same
  cases firstOf
  cases lastOf
  exact absurd content (by decide)

end Stylesheet

end NestedStyles
