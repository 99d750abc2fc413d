import NestedStyles.Proofs.Reuse.Copies
import NestedStyles.Proofs.Reuse.OwnFirst

/-!
# Two passes abreast

A file that imports a name, and the same file in which each use of that name alone names the source
itself instead (`Twins`). Step by step the two passes enter the same blocks and mark the same
exports as done, and what they make of a block is the same but for copies: of the last block of that
name where it is imported, of the first one where the source is named (`Abreast`). So it is at the
end of both (`Twins.pass_abreast`).

Both passes run with a loader that has nothing to load: the blocks of other files are known from the
start.
-/

namespace NestedStyles

open Reuse

/-- A use of the name alone. -/
def UseDirective.isBare (name : String) (u : UseDirective) : Bool :=
  decide (u.name = name ∧ u.source.getD "" = "")

/-- A use of the name alone names the source too. -/
def UseDirective.qualify (name source : String) (u : UseDirective) : UseDirective :=
  if u.isBare name then ⟨name, some source⟩ else u

/-- The block with this index that a file exports, as far as it is known. -/
def Session.block (s : Session) (path : String) (i : Nat) : Body :=
  ((s.exports path)[i]?.map ExportBlock.toBody).getD .empty

namespace Reuse

variable {file : String} {p q p' q' : Pass} {s : Session} {u : UseDirective}
variable {ref target : BlockRef} {path : List Nat} {active : List String} {i : Nat}

/-! ## Steps with nothing to load -/

/-- A loader that has nothing to load, in sessions with this library. -/
def Loading.stocked (file : String) (s : Session) : Loading where
  load := (Consumer.noting file).load
  ready t := t.library = s.library
  grows _ _ := True

theorem Loading.stocked_lawful (file : String) (clean : s.Clean) :
    (Loading.stocked file s).Lawful where
  refl _ := trivial
  trans _ _ := trivial
  log ready _ := ⟨ready, trivial⟩
  load ready _ := ⟨ready, trivial⟩
  clean {t} ready := by
    have library : t.library = s.library := ready
    constructor
    · rw [library]
      exact clean.keys
    · rw [library]
      exact clean.free

/-- With nothing to load a step succeeds. -/
theorem Proceeds.exists_run {α : Type} {act : Consumer → PassM α} {Q : α → Pass → Prop}
    (h : Proceeds (Loading.stocked file s) file act p Q) (library : p.session.library = s.library) :
    ∃ calls a q, Course (Loading.stocked file s) file act p calls a q ∧ Q a q := by
  refine (h library).resolve_right ?_
  rintro ⟨call, e, q, -, fails, -⟩
  cases fails

/-- What is known of a step whose run is known. -/
theorem Proceeds.of_run {α : Type} {act : Consumer → PassM α} {Q : α → Pass → Prop} {a : α}
    (h : Proceeds (Loading.stocked file s) file act p Q) (library : p.session.library = s.library)
    (run : act (.noting file) p = (.ok a, q)) : Q a q ∧ q.session.library = s.library := by
  obtain ⟨_, _, _, course, hQ⟩ := h.exists_run library
  have same := course.run
  have ran : act ⟨file, (Loading.stocked file s).load⟩ p = (.ok a, q) := run
  rw [ran] at same
  cases same
  exact ⟨hQ, course.ready⟩

/-- A pass that asks for the exports of a file. -/
def Pass.ask (p : Pass) (path : String) : Pass :=
  { p.depend path with session := p.session.log [.asked path] }

theorem pathOf_noting (file source : String) :
    (Consumer.noting file).pathOf source = pathIn file source :=
  rfl

theorem exportsOf_noting (path : String) (p : Pass) :
    exportsOf (.noting file) path p = (.ok (p.session.exports path), p.ask path) :=
  rfl

section

variable {c : Consumer} (owner : Option String)

theorem lookup_named (bare : u.source.getD "" = "") (found : p.registry.lookup u.name = some ref) :
    lookup c owner u p = (.ok (some ref), p) := by
  rw [Outset.lookup_bare bare]
  refine (bind_of_ok (show (get : PassM Pass) p = (.ok p, p) from rfl)).trans ?_
  rw [found]
  rfl

theorem lookup_unnamed (bare : u.source.getD "" = "") (absent : p.registry.lookup u.name = none) :
    lookup c owner u p = (.ok none, p.report c (.usedUndefined owner u.name)) := by
  rw [Outset.lookup_bare bare]
  refine (bind_of_ok (show (get : PassM Pass) p = (.ok p, p) from rfl)).trans ?_
  rw [absent]
  rfl

theorem lookup_exported {i : Nat} (source : u.source.getD "" ≠ "")
    (found : findExport u.name (p.session.exports (pathIn file (u.source.getD ""))) = some i) :
    lookup (.noting file) owner u p =
      (.ok (some (.foreign (pathIn file (u.source.getD "")) i)),
        p.ask (pathIn file (u.source.getD ""))) := by
  rw [Outset.lookup_qualified source]
  refine (bind_of_ok (exportsOf_noting _ p)).trans ?_
  rw [pathOf_noting, found]
  rfl

theorem lookup_unexported (source : u.source.getD "" ≠ "")
    (absent : findExport u.name (p.session.exports (pathIn file (u.source.getD ""))) = none) :
    lookup (.noting file) owner u p =
      (.ok none, (p.ask (pathIn file (u.source.getD ""))).report (.noting file)
        (.usedNotExported owner u.name (u.source.getD ""))) := by
  rw [Outset.lookup_qualified source]
  refine (bind_of_ok (exportsOf_noting _ p)).trans ?_
  rw [pathOf_noting, absent]
  rfl

end

/-- A use of a block that was found is dealt with in three steps. -/
theorem inlineUse_eq {c : Consumer} {enter : List String → BlockRef → PassM Unit}
    {owner : Option String} {place : Place} {p₁ p₂ p₃ : Pass} (new : c.keyOf u ∉ active)
    (looked : lookup c owner u p = (.ok (some target), p₁))
    (settled : target ∈ p₁.done ∧ p₂ = p₁ ∨ target ∉ p₁.done ∧
      (do enter (c.keyOf u :: active) target; modify (·.markDone target) : PassM Unit) p₁ =
        (.ok (), p₂))
    (copied : (do copyBlock place target; inSession (modify (·.log [.inlined c.file u.name])) :
      PassM Unit) p₂ = (.ok (), p₃)) :
    inlineUse c enter active owner place u p = (.ok (), p₃) := by
  rw [inlineUse, if_neg new]
  refine (bind_of_ok looked).trans ?_
  rcases settled with ⟨done, rfl⟩ | ⟨left, settled⟩
  · show (ite (target ∉ p₂.done) (_ : PassM Unit) _) p₂ = _
    rw [if_neg (not_not_intro done)]
    exact copied
  · show (ite (target ∉ p₁.done) (_ : PassM Unit) _) p₁ = _
    rw [if_pos left, ← bind_assoc]
    exact (bind_of_ok settled).trans copied

/-- A block without uses is copied into one of the file, and this is noted. -/
theorem copy_eq {c : Consumer} {name : String} (here : Holds p.sheet ref) (other : target ≠ ref)
    (free : (p.body target).uses = []) :
    (do copyBlock ⟨ref, path⟩ target; inSession (modify (·.log [.inlined c.file name])) :
      PassM Unit) p = (.ok (), { p.append ⟨ref, path⟩ (p.body target) with
        session := p.session.log [.inlined c.file name] }) := by
  have copied : Runs (copyBlock ⟨ref, path⟩ target) p _ := copyBlock_appends here other rfl free
  obtain ⟨_, _, run, rfl⟩ := copied
  refine (bind_of_ok run).trans ?_
  show (Except.ok (), ({ p.append ⟨ref, path⟩ (p.body target) with session := _ } : Pass)) = _
  rw [← Pass.session_append here path (p.body target)]

/-! ## A name that is imported and a name with its source -/

/-- Two readings of a file: in the first one a name is imported, in the second one each use of that
name alone names the source. -/
structure Twins where
  file : String
  name : String
  source : String
  left : Stylesheet
  right : Stylesheet
  /-- What is known of other files. -/
  session : Session
  /-- The index of the block that is imported, in the exports of the source. -/
  last : Nat
  /-- The index of the block that is used with its source. -/
  first : Nat

namespace Twins

variable (T : Twins)

/-- The file that the source is. -/
def provider : String :=
  pathIn T.file T.source

/-- The two ways to ask for the block. -/
def ways : TwoWays where
  asks := UseDirective.isBare T.name
  turn := UseDirective.qualify T.name T.source
  one := T.session.block T.provider T.last
  other := T.session.block T.provider T.first

/-- What is asked of the two readings. -/
structure Fair : Prop where
  clean : T.session.Clean
  exports : T.right.exports = T.left.exports.map (·.mapUses T.ways.turn)
  rules : T.right.rules = T.left.rules.map (·.mapUses T.ways.turn)
  source : T.source ≠ ""
  /-- The file has no export of that name. -/
  foreign : T.name ∉ T.left.exports.map ExportBlock.name
  /-- It has none either whose name is the key of a use of the source. -/
  apart : T.provider ++ "#" ++ T.name ∉ T.left.exports.map ExportBlock.name
  /-- One import of the first reading is for the name alone, and no other one is for it. -/
  imports : ∃ before after, T.left.imports = before ++ ⟨[T.name], T.source⟩ :: after ∧
    T.right.imports = before ++ after ∧ ∀ imp ∈ before ++ after, T.name ∉ imp.names
  last : (exportTable (T.session.exports T.provider)).lookup T.name = some T.last
  first : findExport T.name (T.session.exports T.provider) = some T.first

variable {T}

theorem ways_turn_of_not_bare (other : u.isBare T.name = false) : T.ways.turn u = u := by
  show ite (u.isBare T.name = true) _ u = u
  rw [other, if_neg Bool.false_ne_true]

theorem ways_turn_of_bare (bare : u.isBare T.name = true) :
    T.ways.turn u = ⟨T.name, some T.source⟩ := by
  exact if_pos bare

theorem countP_asks (other : u.isBare T.name = false) : [u].countP T.ways.asks = 0 := by
  have same : T.ways.asks u = false := other
  rw [List.countP_cons_of_neg (by rw [same]; exact Bool.false_ne_true), List.countP_nil]

namespace Fair

theorem exportName_right (fair : T.Fair) (i : Nat) :
    exportName T.right i = exportName T.left i := by
  rw [exportName, exportName, fair.exports, List.getElem?_map, Option.map_map]
  rfl

theorem holds_right (fair : T.Fair) (here : Holds T.left ref) : Holds T.right ref := by
  refine here.congr ?_ ?_
  · rw [fair.exports, List.map_map]
    rfl
  · rw [fair.rules, List.map_map]
    exact List.map_congr_left fun r _ => r.selector_mapUses T.ways.turn

/-- The blocks of the second reading. -/
theorem block_right (fair : T.Fair) (here : Holds T.left ref) :
    T.right.block ref = (T.left.block ref).mapUses T.ways.turn := by
  cases ref with
  | own i =>
    have found : T.left.exports[i]? = some T.left.exports[i] := List.getElem?_eq_getElem here
    simp only [Stylesheet.block, Pass.body, Pass.export?, Pass.start, fair.exports,
      List.getElem?_map, found, Option.map_some, Option.getD_some]
    rfl
  | rule i =>
    have found : T.left.rules[i]? = some T.left.rules[i] := List.getElem?_eq_getElem here
    simp only [Stylesheet.block, Pass.body, Pass.start, fair.rules, List.getElem?_map, found,
      Option.map_some, Option.getD_some, StyleRule.body_mapUses]
  | foreign => exact here.elim

theorem watched_right (fair : T.Fair) (watched : Watched T.left active ref) :
    Watched T.right active ref := by
  cases ref with
  | own i =>
    obtain ⟨n, mem, named⟩ := watched
    exact ⟨n, mem, (fair.exportName_right i).trans named⟩
  | rule i => trivial
  | foreign => exact watched

theorem imported (fair : T.Fair) : T.provider ∈ T.left.allSources T.file := by
  obtain ⟨before, after, imports, -⟩ := fair.imports
  have mem : ⟨[T.name], T.source⟩ ∈ T.left.imports := mem_of_split imports
  exact List.mem_append_left _ (List.mem_map.2 ⟨_, mem, rfl⟩)

/-- Blocks of other files have no uses. -/
theorem free_block (fair : T.Fair) (source : String) (i : Nat) :
    (T.session.block source i).allUses = [] := by
  rw [Session.block]
  cases found : (T.session.exports source)[i]? with
  | none => rfl
  | some e => exact free_exports_of_clean fair.clean source e (List.mem_of_getElem? found)

theorem uses_block (fair : T.Fair) (source : String) (i : Nat) :
    (T.session.block source i).uses = [] :=
  Body.uses_inside_of_free (fair.free_block source i) []

end Fair

/-- How far the two passes have come, while the blocks in `opened` are being worked on. -/
structure Abreast (T : Twins) (opened : List BlockRef) (p q : Pass) : Prop where
  left : Underway T.left p
  right : Underway T.right q
  library : p.session.library = T.session.library
  library' : q.session.library = T.session.library
  asked : p.dependencies ⊆ T.left.allSources T.file
  asked' : q.dependencies ⊆ T.left.allSources T.file
  registry : q.registry = Table.erase T.name p.registry
  imported : p.registry.lookup T.name = some (.foreign T.provider T.last)
  known : T.provider ∈ p.dependencies
  done : ∀ i, .own i ∈ q.done ↔ .own i ∈ p.done
  open_ : ∀ i, .own i ∈ opened → .own i ∉ p.done
  untouched : ∀ i, .own i ∉ p.done → .own i ∉ opened →
    p.body (.own i) = T.left.block (.own i) ∧ q.body (.own i) = T.right.block (.own i)
  same : ∀ i, .own i ∈ p.done → ∃ k, T.ways.SameBut k (p.body (.own i)) (q.body (.own i))

namespace Abreast

variable {opened : List BlockRef}

theorem exports (h : T.Abreast opened p q) (source : String) :
    p.session.exports source = T.session.exports source ∧
      q.session.exports source = T.session.exports source :=
  ⟨Session.exports_of_library h.library source, Session.exports_of_library h.library' source⟩

theorem body_foreign (h : T.Abreast opened p q) (source : String) (i : Nat) :
    p.body (.foreign source i) = T.session.block source i ∧
      q.body (.foreign source i) = T.session.block source i := by
  obtain ⟨exports, exports'⟩ := h.exports source
  constructor
  · show ((p.session.exports source)[i]?.map ExportBlock.toBody).getD .empty = _
    rw [exports, Session.block]
  · show ((q.session.exports source)[i]?.map ExportBlock.toBody).getD .empty = _
    rw [exports', Session.block]

theorem clean (h : T.Abreast opened p q) (fair : T.Fair) :
    p.session.Clean ∧ q.session.Clean := by
  have general {t : Session} (same : t.library = T.session.library) : t.Clean := by
    constructor
    · rw [same]
      exact fair.clean.keys
    · rw [same]
      exact fair.clean.free
  exact ⟨general h.library, general h.library'⟩

/-- The files are the same, and in both passes other things went on as well. -/
theorem of_sheet (h : T.Abreast opened p q) (sheet : p'.sheet = p.sheet)
    (sheet' : q'.sheet = q.sheet) (registry : p'.registry = p.registry)
    (registry' : q'.registry = q.registry) (done : p'.done = p.done) (done' : q'.done = q.done)
    (library : p'.session.library = p.session.library)
    (library' : q'.session.library = q.session.library)
    (more : p.dependencies ⊆ p'.dependencies) (more' : q.dependencies ⊆ q'.dependencies)
    (asked : p'.dependencies ⊆ T.left.allSources T.file)
    (asked' : q'.dependencies ⊆ T.left.allSources T.file) : T.Abreast opened p' q' where
  left := h.left.congr sheet registry done more
  right := h.right.congr sheet' registry' done' more'
  library := library.trans h.library
  library' := library'.trans h.library'
  asked := asked
  asked' := asked'
  registry := by rw [registry', registry, h.registry]
  imported := by rw [registry, h.imported]
  known := more h.known
  done i := by rw [done, done', h.done i]
  open_ := by
    rw [done]
    exact h.open_
  untouched i := by
    rw [done, body_own_congr sheet, body_own_congr sheet']
    exact h.untouched i
  same i := by
    rw [done, body_own_congr sheet, body_own_congr sheet']
    exact h.same i

/-- Both passes write something down. -/
theorem log (h : T.Abreast opened p q) (events events' : List Event) :
    T.Abreast opened { p with session := p.session.log events }
      { q with session := q.session.log events' } :=
  h.of_sheet rfl rfl rfl rfl rfl rfl rfl rfl (List.Subset.refl _) (List.Subset.refl _) h.asked
    h.asked'

/-- An export that is being worked on is done. -/
theorem markOwn (h : T.Abreast (.own i :: opened) p q) (new : .own i ∉ opened)
    (free : (p.body (.own i)).allUses = []) (free' : (q.body (.own i)).allUses = [])
    (same : ∃ k, T.ways.SameBut k (p.body (.own i)) (q.body (.own i))) :
    T.Abreast opened (p.markDone (.own i)) (q.markDone (.own i)) := by
  refine { h with left := ?_, right := ?_, done := ?_, open_ := ?_, untouched := ?_, same := ?_ }
  · exact h.left.markDone fun _ eq => eq ▸ free
  · exact h.right.markDone fun _ eq => eq ▸ free'
  · intro j
    show _ ∈ _ :: _ ↔ _ ∈ _ :: _
    rw [List.mem_cons, List.mem_cons, h.done j]
  · intro j mem done
    rcases List.mem_cons.1 done with eq | done
    · exact new (eq ▸ mem)
    · exact h.open_ j (List.mem_cons_of_mem _ mem) done
  · intro j left out
    have left : .own j ≠ BlockRef.own i ∧ .own j ∉ p.done := not_or.1 (List.mem_cons.not.1 left)
    exact h.untouched j left.2 fun mem => (List.mem_cons.1 mem).elim left.1 out
  · intro j done
    rcases List.mem_cons.1 done with eq | done
    · cases eq
      exact same
    · exact h.same j done

/-- Work on an export begins. -/
theorem enter (h : T.Abreast opened p q) {i : Nat} (left : .own i ∉ p.done) :
    T.Abreast (.own i :: opened) p q :=
  { h with
    open_ := fun j mem => by
      rcases List.mem_cons.1 mem with eq | mem
      · rw [eq]
        exact left
      · exact h.open_ j mem
    untouched := fun j notDone out =>
      h.untouched j notDone fun mem => out (List.mem_cons_of_mem _ mem) }

/-- Both passes ask for the exports of a file that is named. -/
theorem ask (h : T.Abreast opened p q) {source : String}
    (named : source ∈ T.left.allSources T.file) :
    T.Abreast opened (p.ask source) (q.ask source) := by
  have grown {r : Pass} (asked : r.dependencies ⊆ T.left.allSources T.file) :
      (r.ask source).dependencies ⊆ T.left.allSources T.file := by
    intro d mem
    rcases mem_depend_iff mem with rfl | mem
    · exact named
    · exact asked mem
  exact h.of_sheet rfl rfl rfl rfl rfl rfl rfl rfl (subset_depend p source) (subset_depend q source)
    (grown h.asked) (grown h.asked')

/-- Only the second pass asks for the exports of a file that is named. -/
theorem askRight (h : T.Abreast opened p q) {source : String}
    (named : source ∈ T.left.allSources T.file) : T.Abreast opened p (q.ask source) := by
  refine h.of_sheet rfl rfl rfl rfl rfl rfl rfl rfl (List.Subset.refl _) (subset_depend q source)
    h.asked fun d mem => ?_
  rcases mem_depend_iff mem with rfl | mem
  · exact named
  · exact h.asked' mem

end Abreast

/-! ## Asking for blocks -/

/-- What a use asks for in the two passes. -/
inductive Finds (T : Twins) (u : UseDirective) (p q : Pass) :
    Option BlockRef → Option BlockRef → Prop
  | none (other : u.isBare T.name = false) : Finds T u p q none none
  /-- An export of the file. -/
  | own {i : Nat} (other : u.isBare T.name = false) (bare : u.source.getD "" = "")
      (named : exportName T.left i = some u.name) :
    Finds T u p q (some (.own i)) (some (.own i))
  /-- Blocks of one other file. -/
  | foreign {source : String} {i i' k : Nat} (known : source ∈ p.dependencies)
      (known' : source ∈ q.dependencies) (copies : [u].countP T.ways.asks ≤ k)
      (same : T.ways.SameBut k (T.session.block source i) (T.session.block source i')) :
    Finds T u p q (some (.foreign source i)) (some (.foreign source i'))

theorem Finds.of_same (fair : T.Fair) (other : u.isBare T.name = false) {source : String}
    (known : source ∈ p.dependencies) (known' : source ∈ q.dependencies) (i : Nat) :
    T.Finds u p q (some (.foreign source i)) (some (.foreign source i)) := by
  exact .foreign known known' (Nat.le_of_eq (countP_asks other))
    (.self T.ways (fair.free_block source i))

/-- In both passes a use asks for the same, but where it asks for the name alone. -/
theorem lookup_abreast (fair : T.Fair) {opened : List BlockRef} (h : T.Abreast opened p q)
    (used : u ∈ T.left.allUses) (owner owner' : Option String) :
    ∃ found found' p' q', lookup (.noting T.file) owner u p = (.ok found, p') ∧
      lookup (.noting T.file) owner' (T.ways.turn u) q = (.ok found', q') ∧
      T.Abreast opened p' q' ∧ (p'.sheet = p.sheet ∧ q'.sheet = q.sheet) ∧
      (p'.done = p.done ∧ q'.done = q.done) ∧ T.Finds u p' q' found found' := by
  by_cases asks : u.isBare T.name = true
  · -- one pass finds the name, the other one looks into the file
    obtain ⟨name, bare⟩ : u.name = T.name ∧ u.source.getD "" = "" := of_decide_eq_true asks
    have named : p.registry.lookup u.name = some (.foreign T.provider T.last) := name ▸ h.imported
    have exported : findExport T.name (q.session.exports T.provider) = some T.first := by
      rw [(h.exports T.provider).2, fair.first]
    rw [ways_turn_of_bare asks]
    refine ⟨_, _, _, _, lookup_named owner bare named,
      lookup_exported (u := ⟨T.name, some T.source⟩) owner' fair.source exported,
      h.askRight fair.imported, ⟨rfl, rfl⟩, ⟨rfl, rfl⟩, ?_⟩
    refine .foreign (k := 1) h.known (mem_depend q T.provider) List.countP_le_length ?_
    exact .copied (fair.uses_block _ _) (fair.uses_block _ _)
  have other : u.isBare T.name = false := Bool.eq_false_iff.2 asks
  rw [ways_turn_of_not_bare other]
  by_cases bare : u.source.getD "" = ""
  · have ne : u.name ≠ T.name := fun same => of_decide_eq_false other ⟨same, bare⟩
    have names : q.registry.lookup u.name = p.registry.lookup u.name := by
      rw [h.registry, Table.lookup_erase_of_ne ne]
    cases found : p.registry.lookup u.name with
    | none =>
      exact ⟨_, _, _, _, lookup_unnamed owner bare found,
        lookup_unnamed owner' bare (names.trans found), h.log _ _, ⟨rfl, rfl⟩, ⟨rfl, rfl⟩,
        .none other⟩
    | some ref =>
      refine ⟨_, _, _, _, lookup_named owner bare found,
        lookup_named owner' bare (names.trans found), h, ⟨rfl, rfl⟩, ⟨rfl, rfl⟩, ?_⟩
      have stands := h.left.registry _ (Table.mem_of_lookup found)
      have stands' := h.right.registry _ (Table.mem_of_lookup (names.trans found))
      cases ref with
      | own i => exact .own other bare stands
      | rule i => exact stands.elim
      | foreign source i => exact .of_same fair other stands stands' i
  · have named : pathIn T.file (u.source.getD "") ∈ T.left.allSources T.file :=
      mem_allSources_of_use used bare
    obtain ⟨exports, exports'⟩ := h.exports (pathIn T.file (u.source.getD ""))
    cases found : findExport u.name (T.session.exports (pathIn T.file (u.source.getD ""))) with
    | none =>
      exact ⟨_, _, _, _, lookup_unexported owner bare (exports.symm ▸ found),
        lookup_unexported owner' bare (exports'.symm ▸ found), (h.ask named).log _ _, ⟨rfl, rfl⟩,
        ⟨rfl, rfl⟩, .none other⟩
    | some i =>
      exact ⟨_, _, _, _, lookup_exported owner bare (exports.symm ▸ found),
        lookup_exported owner' bare (exports'.symm ▸ found), h.ask named, ⟨rfl, rfl⟩,
        ⟨rfl, rfl⟩,
        .of_same (p := p.ask _) (q := q.ask _) fair other (mem_depend p _) (mem_depend q _) i⟩

end Twins

end Reuse

end NestedStyles
