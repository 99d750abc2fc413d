import NestedStyles.Proofs.Reuse.Provision

/-!
# Loading what files provide

A session is exact when each entry of its library is what the file provides and, for this file and
all those it leads to, everything that is asked for is recorded (`Files.Exact`). In an exact session
loading a file gives what the file provides, and leaves the session exact (`Files.Provides.loads`).
What was known and recorded before still is (`Files.Later`).
-/

namespace NestedStyles

open Relation

namespace Table

variable {α β : Type} [BEq α]

theorem mem_keys_put [LawfulBEq α] {k j : α} {v : β} {t : List (α × β)}
    (h : j ∈ (put k v t).map Prod.fst) : j = k ∨ j ∈ t.map Prod.fst := by
  obtain ⟨e, mem, rfl⟩ := List.mem_map.1 h
  rcases mem_of_mem_put mem with rfl | mem
  · exact .inl rfl
  · exact .inr (List.mem_map_of_mem mem)

/-- In a table each key stands once. -/
theorem nodup_keys_put [LawfulBEq α] {k : α} (v : β) {t : List (α × β)}
    (h : (t.map Prod.fst).Nodup) : ((put k v t).map Prod.fst).Nodup := by
  induction t with
  | nil => exact List.nodup_singleton k
  | cons e rest ih =>
    obtain ⟨j, w⟩ := e
    obtain ⟨fresh, distinct⟩ := List.nodup_cons.1 h
    by_cases same : k = j
    · rw [put, if_pos (beq_iff_eq.2 same)]
      exact List.nodup_cons.2 ⟨fresh, distinct⟩
    · rw [put, if_neg (by simpa using same)]
      refine List.nodup_cons.2 ⟨fun mem => ?_, ih distinct⟩
      rcases mem_keys_put mem with rfl | mem
      · exact same rfl
      · exact fresh mem

theorem nodup_keys_erase (k : α) {t : List (α × β)} (h : (t.map Prod.fst).Nodup) :
    ((erase k t).map Prod.fst).Nodup :=
  h.sublist (List.filter_sublist.map Prod.fst)

end Table

namespace Files

open Reuse

variable {fs : Files} {path q given : String} {o : Answer} {s s' s'' : Session}
variable {depth : Nat} {active : List String} {es : List ExportBlock}

/-! ## Exact sessions -/

/-- All that the file asks for is recorded. -/
def Recorded (fs : Files) (s : Session) (path : String) : Prop :=
  ∀ q, fs.Asks path q → q ∈ (s.dependencies.lookup path).getD []

/-- All that is asked for on the way from the file is recorded. -/
def Tracked (fs : Files) (s : Session) (path : String) : Prop :=
  ∀ r, ReflTransGen fs.Asks path r → fs.Recorded s r

/-- What is known is what files provide, and it is recorded where it comes from. -/
structure Exact (fs : Files) (s : Session) : Prop where
  keys : (s.library.map Prod.fst).Nodup
  canonical : ∀ entry ∈ s.library, Path.absolute none entry.1 = entry.1
  provided : ∀ entry ∈ s.library, fs.Provides entry.1 (.ok entry.2)
  tracked : ∀ entry ∈ s.library, fs.Tracked s entry.1

/-- What was known and recorded before still is. -/
structure Later (fs : Files) (s s' : Session) : Prop where
  known : ∀ path, s'.exports? path = none → s.exports? path = none
  recorded : ∀ path, fs.Recorded s path → fs.Recorded s' path

theorem Later.trans (h : fs.Later s s') (h' : fs.Later s' s'') : fs.Later s s'' :=
  ⟨fun path new => h.known path (h'.known path new), fun path old =>
    h'.recorded path (h.recorded path old)⟩

theorem Later.tracked (h : fs.Later s s') (tracked : fs.Tracked s path) : fs.Tracked s' path :=
  fun r leads => h.recorded r (tracked r leads)

theorem Later.log (events : List Event) : fs.Later s (s.log events) :=
  ⟨fun _ h => h, fun _ h => h⟩

namespace Exact

theorem empty : fs.Exact Session.empty := by
  constructor <;> simp [Session.empty]

theorem log (h : fs.Exact s) (events : List Event) : fs.Exact (s.log events) :=
  ⟨h.keys, h.canonical, h.provided, h.tracked⟩

/-- The entry that is found for a file. -/
theorem mem_of_exports? (canonical : Path.absolute none path = path)
    (known : s.exports? path = some es) : (path, es) ∈ s.library := by
  rw [Session.exports?, canonical] at known
  exact Table.mem_of_lookup known

/-- Whatever was loaded in between, the exports of a file are the same. -/
theorem exports_later (h : fs.Exact s') (later : fs.Later s s')
    (canonical : Path.absolute none path = path) (provides : fs.Provides path (.ok es))
    (before : s.exports path = es) : s'.exports path = es := by
  cases known : s'.exports? path with
  | some es' =>
    have same := (h.provided _ (mem_of_exports? canonical known)).unique provides
    rw [Session.exports, known, Option.getD_some]
    exact Except.ok.inj same
  | none =>
    rw [Session.exports, later.known path known] at before
    rw [Session.exports, known, before]

/-- There are no uses in the library. -/
theorem allUses_start (h : fs.Exact s) (sheet : Stylesheet) :
    (Pass.start s sheet).allUses = sheet.allUses := by
  have none : (s.library.flatMap fun e => e.2.flatMap fun b => b.toBody.allUses) = [] := by
    refine List.flatMap_eq_nil_iff.2 fun entry mem => List.flatMap_eq_nil_iff.2 ?_
    exact (h.provided entry mem).free entry.2 rfl
  exact (congrArg (sheet.allUses ++ ·) none).trans (List.append_nil _)

/-- What a file provides becomes known. -/
theorem store (h : fs.Exact s) (canonical : Path.absolute none path = path)
    (provides : fs.Provides path (.ok es)) (tracked : fs.Tracked s path) :
    fs.Exact (s.store path es) := by
  have entries : ∀ entry ∈ (s.store path es).library, entry = (path, es) ∨ entry ∈ s.library := by
    intro entry mem
    rw [Session.store, canonical] at mem
    exact Table.mem_of_mem_put mem
  constructor
  case keys => exact Table.nodup_keys_put es h.keys
  case canonical =>
    intro entry mem
    rcases entries entry mem with rfl | mem
    · exact canonical
    · exact h.canonical entry mem
  case provided =>
    intro entry mem
    rcases entries entry mem with rfl | mem
    · exact provides
    · exact h.provided entry mem
  case tracked =>
    intro entry mem
    rcases entries entry mem with rfl | mem
    · exact tracked
    · exact h.tracked entry mem

end Exact

theorem Later.store (s : Session) (path : String) (es : List ExportBlock) :
    fs.Later s (s.store path es) := by
  refine ⟨fun q new => ?_, fun _ h => h⟩
  by_cases same : Path.absolute none q = Path.absolute none path
  · rw [Session.exports?, same] at new
    change (Table.put _ es s.library).lookup _ = none at new
    rw [Table.lookup_put_self] at new
    cases new
  · rw [Session.exports?] at new ⊢
    change (Table.put _ es s.library).lookup _ = none at new
    rwa [Table.lookup_put_of_ne same] at new

/-- The files that a file asked for are recorded. -/
theorem lookup_record (canonical : Path.absolute none path = path) (providers : List String) :
    ((s.record path providers).dependencies.lookup path).getD [] = providers := by
  unfold Session.record
  rw [canonical]
  cases providers with
  | nil =>
    change ((Table.erase path s.dependencies).lookup path).getD [] = []
    rw [Table.lookup_erase_self, Option.getD_none]
  | cons first rest =>
    change ((Table.put path (first :: rest) s.dependencies).lookup path).getD [] = _
    rw [Table.lookup_put_self, Option.getD_some]

theorem lookup_record_of_ne (canonical : Path.absolute none path = path) (ne : q ≠ path)
    (providers : List String) :
    (s.record path providers).dependencies.lookup q = s.dependencies.lookup q := by
  unfold Session.record
  rw [canonical]
  cases providers with
  | nil => exact Table.lookup_erase_of_ne ne _
  | cons first rest => exact Table.lookup_put_of_ne ne _ _

theorem Later.record (canonical : Path.absolute none path = path) {providers : List String}
    (all : ∀ q, fs.Asks path q → q ∈ providers) : fs.Later s (s.record path providers) := by
  refine ⟨fun _ h => h, fun q recorded r asks => ?_⟩
  by_cases same : q = path
  · subst same
    rw [lookup_record canonical]
    exact all r asks
  · rw [lookup_record_of_ne canonical same]
    exact recorded r asks

theorem Recorded.record (canonical : Path.absolute none path = path) {providers : List String}
    (all : ∀ q, fs.Asks path q → q ∈ providers) : fs.Recorded (s.record path providers) path := by
  intro q asks
  rw [lookup_record canonical]
  exact all q asks

theorem Exact.record (h : fs.Exact s) (canonical : Path.absolute none path = path)
    {providers : List String} (all : ∀ q, fs.Asks path q → q ∈ providers) :
    fs.Exact (s.record path providers) :=
  ⟨h.keys, h.canonical, h.provided, fun entry mem =>
    (Later.record canonical all).tracked (h.tracked entry mem)⟩

/-- A file is tracked if what it asks for is recorded and tracked. -/
theorem Tracked.of_asks (here : fs.Recorded s path)
    (below : ∀ q, fs.Asks path q → fs.Tracked s q) : fs.Tracked s path := by
  intro r leads
  rcases leads.cases_head with rfl | ⟨q, asks, leads⟩
  · exact here
  · exact below q asks r leads

/-! ## How a file is loaded -/

/-- So many files may still be read, one inside the other: those that are being loaded are different
files that lead to this one. -/
structure Room (fs : Files) (depth : Nat) (active : List String) (path : String) : Prop where
  once : active.Nodup
  files : active ⊆ fs.contents.map Prod.fst
  above : ∀ a ∈ active, TransGen fs.Asks a path
  enough : fs.contents.length < depth + active.length

theorem Room.start (fs : Files) (path : String) : fs.Room (fs.contents.length + 1) [] path :=
  ⟨List.nodup_nil, List.nil_subset _, fun _ mem => absurd mem List.not_mem_nil,
    Nat.lt_succ_self _⟩

theorem Room.pos (room : fs.Room depth active path) : 0 < depth := by
  have short := (room.once.subperm room.files).length_le
  have enough := room.enough
  rw [List.length_map] at short
  omega

theorem Room.not_mem (room : fs.Room depth active path) (provides : fs.Provides path o) :
    path ∉ active :=
  fun mem => provides.not_asks_self (room.above path mem)

theorem Room.enter (room : fs.Room (depth + 1) active path) (provides : fs.Provides path o)
    (asks : fs.Asks path q) : fs.Room depth (path :: active) q := by
  refine ⟨List.nodup_cons.2 ⟨room.not_mem provides, room.once⟩, ?_, ?_, ?_⟩
  · exact List.cons_subset.2 ⟨mem_keys_of_refs asks.mem_refs, room.files⟩
  · intro a mem
    rcases List.mem_cons.1 mem with rfl | mem
    · exact .single asks
    · exact (room.above a mem).tail asks
  · have enough := room.enough
    rw [List.length_cons]
    omega

/-- A file that is known is not read. -/
theorem loadInside_known (absolute : Path.absolute none given = path)
    (known : (s.exports? path).isSome) :
    fs.loadInside (depth + 1) active given s = (.ok (), s.log [.known path]) := by
  subst absolute
  change (ite _ (_ : SessionM Unit) _) s = _
  rw [if_pos known]
  rfl

/-- Whether a file is read is decided by whether there are styles in it. -/
theorem match_blank {α : Type} (text : String) (blank : α) (filled : String → α) :
    (match text with
      | "" => blank
      | text => filled text) = if text = "" then blank else filled text := by
  split
  case h_1 => exact (if_pos rfl).symm
  case h_2 some => exact (if_neg some).symm

theorem sheetOf_of_text {text : String} (content : fs.readText path = .ok (some text)) :
    fs.sheetOf path = if fs.stylesIn text = "" then .ok none
      else .ok (some (Stylesheet.parse fs.config (fs.stylesIn text)).value) := by
  unfold sheetOf
  rw [content]
  exact match_blank _ _ _

section

variable (absolute : Path.absolute none given = path) (unknown : ¬ (s.exports? path).isSome)
variable (new : path ∉ active)

include absolute unknown new

/-- A file that is not known is read, unless it is being loaded. -/
theorem loadInside_unknown : fs.loadInside (depth + 1) active given s =
    (match fs.readText path with
      | .error e => throw e
      | .ok none => modify (·.log [.fault path (.missingFile given)])
      | .ok (some text) =>
        match fs.stylesIn text with
        | "" => modify (·.store path [])
        | styles => fs.readExports (fs.loadInside depth (path :: active)) path styles :
      SessionM Unit) s := by
  subst absolute
  change (ite _ (_ : SessionM Unit) _) s = _
  rw [if_neg unknown]
  exact congrFun (if_neg new) s

theorem loadInside_of_text {text : String} (content : fs.readText path = .ok (some text)) :
    fs.loadInside (depth + 1) active given s =
      if fs.stylesIn text = "" then (.ok (), s.store path [])
      else fs.readExports (fs.loadInside depth (path :: active)) path (fs.stylesIn text) s := by
  rw [loadInside_unknown absolute unknown new, content]
  refine (congrFun (match_blank (fs.stylesIn text) _ _) s).trans ?_
  by_cases blank : fs.stylesIn text = ""
  · rw [if_pos blank, if_pos blank]
    rfl
  · rw [if_neg blank, if_neg blank]

theorem loadInside_of_error {e : Undecodable} (read : fs.sheetOf path = .error e) :
    fs.loadInside (depth + 1) active given s = (.error e, s) := by
  cases content : fs.readText path with
  | error e =>
    unfold sheetOf at read
    rw [content] at read
    cases read
    rw [loadInside_unknown absolute unknown new, content]
    exact rfl
  | ok text? =>
    cases text? with
    | none =>
      unfold sheetOf at read
      rw [content] at read
      cases read
    | some text =>
      rw [sheetOf_of_text content] at read
      split at read <;> cases read

/-- Without styles a file that is there becomes known, and one that is missing does not. -/
theorem loadInside_of_none (read : fs.sheetOf path = .ok none) :
    fs.loadInside (depth + 1) active given s =
        (.ok (), s.log [.fault path (.missingFile given)]) ∨
      fs.loadInside (depth + 1) active given s = (.ok (), s.store path []) := by
  cases content : fs.readText path with
  | error e =>
    unfold sheetOf at read
    rw [content] at read
    cases read
  | ok text? =>
    cases text? with
    | none =>
      left
      rw [loadInside_unknown absolute unknown new, content]
      exact rfl
    | some text =>
      right
      rw [sheetOf_of_text content] at read
      rw [loadInside_of_text absolute unknown new content]
      by_cases blank : fs.stylesIn text = ""
      · exact if_pos blank
      · rw [if_neg blank] at read
        cases read

theorem loadInside_of_sheet {sheet : Stylesheet} (read : fs.sheetOf path = .ok (some sheet)) :
    ∃ styles, (Stylesheet.parse fs.config styles).value = sheet ∧
      fs.loadInside (depth + 1) active given s =
        fs.readExports (fs.loadInside depth (path :: active)) path styles s := by
  cases content : fs.readText path with
  | error e =>
    unfold sheetOf at read
    rw [content] at read
    cases read
  | ok text? =>
    cases text? with
    | none =>
      unfold sheetOf at read
      rw [content] at read
      cases read
    | some text =>
      rw [sheetOf_of_text content] at read
      rw [loadInside_of_text absolute unknown new content]
      by_cases blank : fs.stylesIn text = ""
      · rw [if_pos blank] at read
        cases read
      · rw [if_neg blank] at read
        exact ⟨fs.stylesIn text, Option.some.inj (Except.ok.inj read), if_neg blank⟩

end

/-- What is written down before the exports of a file are resolved. -/
def opening (fs : Files) (path styles : String) : List Event :=
  .loading path :: (Stylesheet.parse fs.config styles).reports.map (.misread path)

theorem not_circular_opening (fs : Files) (path styles : String) (file x : String) :
    .fault file (.circularImport x) ∉ fs.opening path styles := by
  intro mem
  rcases List.mem_cons.1 mem with mem | mem
  · cases mem
  · obtain ⟨_, -, other⟩ := List.mem_map.1 mem
    cases other

/-- The pass over the exports of a file before its first step. -/
def startReading (fs : Files) (path styles : String) (s : Session) : Pass :=
  Pass.start (s.log (fs.opening path styles)) (Stylesheet.parse fs.config styles).value

/-- Reading a file is resolving its exports and keeping what comes of it. -/
theorem readExports_eq (fs : Files) (load : String → SessionM Unit) (path styles : String)
    (s : Session) : fs.readExports load path styles s =
      let start := fs.startReading path styles s
      match prepare ⟨path, load⟩ (start.allUses.length + 1) start with
      | (.ok (), p) => (.ok (), (p.session.record path p.dependencies).store path p.sheet.exports)
      | (.error e, p) => (.error e, p.session) := by
  let parsed := Stylesheet.parse fs.config styles
  let before := s.log (fs.opening path styles)
  dsimp only
  cases outcome : prepare ⟨path, load⟩ ((fs.startReading path styles s).allUses.length + 1)
      (fs.startReading path styles s) with
  | mk result p =>
    cases result with
    | error e =>
      have resolved : parsed.value.resolveExports ⟨path, load⟩ true before =
          (.error e, p.session) := bind_of_error (runPass_of_error outcome)
      exact (bind_of_ok rfl).trans (bind_of_error resolved)
    | ok u =>
      have resolved : parsed.value.resolveExports ⟨path, load⟩ true before =
          (.ok ⟨p.sheet, p.dependencies⟩, p.session.record path p.dependencies) :=
        bind_of_ok (runPass_of_ok outcome)
      exact (bind_of_ok rfl).trans (bind_of_ok resolved)

/-! ## Loading keeps a session exact -/

/-- What loading a file leads to if the file provides `o`. -/
structure Loaded (fs : Files) (path : String) (o : Answer) (s : Session)
    (ran : Except Undecodable Unit × Session) : Prop where
  result : ran.1 = o.map fun _ => ()
  exact : fs.Exact ran.2
  later : fs.Later s ran.2
  exports : ∀ es, o = .ok es → fs.Tracked ran.2 path ∧ ran.2.exports path = es

/-- The answers of a loader that loads each file as it should. -/
def source (fs : Files) (answer : String → Answer) (path : String) (s : Session) : Source where
  answer := answer
  asked q := q ∈ fs.asked answer path
  ready t := fs.Exact t ∧ fs.Later s t
  kept q t := fs.Tracked t q ∧ ∀ es, answer q = .ok es → t.exports q = es

theorem source_answer (answer : String → Answer) :
    (fs.source answer path s).answer = answer :=
  rfl

theorem answers_source {answer : String → Answer} {load : String → SessionM Unit}
    (inner : ∀ q ∈ fs.asked answer path, fs.Provides q (answer q))
    (loads : ∀ q ∈ fs.asked answer path, ∀ t, fs.Exact t → fs.Loaded q (answer q) t (load q t)) :
    (Consumer.mk path load).Answers (fs.source answer path s) where
  load q t asked ready := by
    have canonical := absolute_of_mem_refs ((asks_iff inner).2 asked).mem_refs
    have loaded := loads q asked t ready.1
    refine ⟨(load q t).2, Prod.ext loaded.result rfl, ⟨loaded.exact, ready.2.trans loaded.later⟩,
      fun es h => ?_, fun other asked' kept => ?_⟩
    · obtain ⟨tracked, exports⟩ := loaded.exports es h
      refine ⟨tracked, fun es' h' => ?_⟩
      obtain rfl : es = es' := Except.ok.inj (h.symm.trans h')
      exact exports
    · refine ⟨loaded.later.tracked kept.1, fun es h => ?_⟩
      have canonical' := absolute_of_mem_refs ((asks_iff inner).2 asked').mem_refs
      have provides := inner other asked'
      rw [show answer other = .ok es from h] at provides
      exact loaded.exact.exports_later loaded.later canonical' provides (kept.2 es h)
  exports q t es _ _ kept h := kept.2 es h
  log t events ready := ⟨⟨ready.1.log events, ready.2.trans (.log events)⟩, fun _ kept => kept⟩
  keys t ready := ready.1.keys
  free q es asked h := (inner q asked).free es h

theorem Loaded.of_known (provides : fs.Provides path o) (exact : fs.Exact s)
    (canonical : Path.absolute none path = path) (known : (s.exports? path).isSome)
    (events : List Event) : fs.Loaded path o s (.ok (), s.log events) := by
  obtain ⟨es, found⟩ := Option.isSome_iff_exists.1 known
  have entry := Exact.mem_of_exports? canonical found
  obtain rfl := provides.unique (exact.provided _ entry)
  refine ⟨rfl, exact.log events, .log events, ?_⟩
  rintro _ ⟨⟩
  have here : s.exports path = es := by rw [Session.exports, found, Option.getD_some]
  exact ⟨exact.tracked _ entry, here⟩

theorem Loaded.of_none (provides : fs.Provides path o) (exact : fs.Exact s)
    (canonical : Path.absolute none path = path) (unknown : ¬ (s.exports? path).isSome)
    (read : fs.sheetOf path = .ok none) {ran : Except Undecodable Unit × Session}
    (run : (∃ event, ran = (.ok (), s.log [event])) ∨ ran = (.ok (), s.store path [])) :
    fs.Loaded path o s ran := by
  obtain ⟨answer, comes, inner⟩ := provides
  have empty : o = .ok [] := by
    rw [← comes]
    unfold outcome
    rw [read]
  have alone : ∀ q, ¬ fs.Asks path q := by
    intro q asks
    have mem := (asks_iff inner).1 asks
    unfold asked at mem
    rw [read] at mem
    exact List.not_mem_nil mem
  have tracked (t : Session) : fs.Tracked t path :=
    .of_asks (fun q asks => absurd asks (alone q)) fun q asks => absurd asks (alone q)
  have provides : fs.Provides path (.ok []) := empty ▸ .intro answer comes inner
  subst empty
  rcases run with ⟨event, rfl⟩ | rfl
  · refine ⟨rfl, exact.log _, .log _, ?_⟩
    rintro _ ⟨⟩
    have here : s.exports path = [] := by
      rw [Session.exports, Option.not_isSome_iff_eq_none.1 unknown, Option.getD_none]
    exact ⟨tracked _, here⟩
  · refine ⟨rfl, exact.store canonical provides (tracked s), .store s path [], ?_⟩
    rintro _ ⟨⟩
    refine ⟨tracked _, ?_⟩
    rw [Session.exports, Session.exports?_store_self, Option.getD_some]

/-- The exports of a file are stored after what it asks for was loaded and recorded. -/
theorem Loaded.stored {asked : List String}
    (provides : fs.Provides path (.ok es)) (canonical : Path.absolute none path = path)
    (exact : fs.Exact s') (later : fs.Later s s') (all : ∀ q, fs.Asks path q → q ∈ asked)
    (tracked : ∀ q, fs.Asks path q → fs.Tracked s' q) :
    fs.Loaded path (.ok es) s (.ok (), (s'.record path asked).store path es) := by
  have grown : fs.Later s' (s'.record path asked) := .record canonical all
  have tracked : fs.Tracked (s'.record path asked) path :=
    .of_asks (.record canonical all) fun q asks => grown.tracked (tracked q asks)
  refine ⟨rfl, (exact.record canonical all).store canonical provides tracked,
    (later.trans grown).trans (.store _ _ _), ?_⟩
  rintro _ ⟨⟩
  refine ⟨tracked, ?_⟩
  rw [Session.exports, Session.exports?_store_self, Option.getD_some]

/-- A file is read: its exports are resolved, what it asked for is recorded and they are stored. -/
theorem Loaded.of_sheet {answer : String → Answer} {sheet : Stylesheet} {styles : String}
    {load : String → SessionM Unit} (provides : fs.Provides path (fs.outcome answer path))
    (inner : ∀ q ∈ fs.asked answer path, fs.Provides q (answer q)) (exact : fs.Exact s)
    (canonical : Path.absolute none path = path) (read : fs.sheetOf path = .ok (some sheet))
    (parsed : (Stylesheet.parse fs.config styles).value = sheet)
    (loads : ∀ q ∈ fs.asked answer path, ∀ t, fs.Exact t → fs.Loaded q (answer q) t (load q t)) :
    fs.Loaded path (fs.outcome answer path) s (fs.readExports load path styles s) := by
  have reads := readExports_eq fs load path styles s
  unfold startReading at reads
  generalize fs.opening path styles = events at reads
  have before : fs.Exact (s.log events) := exact.log events
  have questions : fs.asked answer path = (sheet.inquiry path).asked answer := by
    unfold asked
    rw [read]
  have comes : fs.outcome answer path =
      ((sheet.inquiry path).result answer).map fun x => x.2.sheet.exports := by
    unfold outcome
    rw [read]
  have asks : ∀ q ∈ (sheet.inquiry path).asked answer, (fs.source answer path s).asked q := by
    intro q mem
    rwa [← questions] at mem
  have describes := sheet.inquiry_describes path (fs.source answer path s) load (s.log events)
    (answers_source inner loads) asks
    ⟨⟨before, .log events⟩, fun q mem => absurd mem List.not_mem_nil⟩
  rw [source_answer, ← questions] at describes
  dsimp only at reads
  rw [parsed, before.allUses_start] at reads
  rw [reads]
  cases result : (sheet.inquiry path).result answer with
  | error e =>
    rw [result] at describes comes
    obtain ⟨p, run, exact', later⟩ := describes
    have failed : prepare ⟨path, load⟩ (sheet.allUses.length + 1)
        (Pass.start (s.log events) sheet) = (.error e, p) := run
    rw [failed, comes]
    exact ⟨rfl, exact', later, by rintro _ ⟨⟩⟩
  | ok x =>
    obtain ⟨u, p⟩ := x
    rw [result] at describes comes
    obtain ⟨s', run, stands, -, told⟩ := describes
    have resolved : prepare ⟨path, load⟩ (sheet.allUses.length + 1)
        (Pass.start (s.log events) sheet) = (.ok (), { p with session := s' }) := run
    rw [resolved, comes]
    rw [comes] at provides
    have all : ∀ q, fs.Asks path q → q ∈ p.dependencies :=
      fun q asks => told ((asks_iff inner).1 asks)
    obtain ⟨exact', later⟩ := stands.ready
    exact .stored provides canonical exact' later all fun q asks =>
      (stands.known q (all q asks)).2.1.1

/-- Loading a file gives what it provides and keeps the session exact. -/
theorem Provides.loads (h : fs.Provides path o) {depth : Nat} {active : List String}
    {given : String} {s : Session} (absolute : Path.absolute none given = path)
    (room : fs.Room depth active path) (exact : fs.Exact s) :
    fs.Loaded path o s (fs.loadInside depth active given s) := by
  induction h generalizing depth active given s with
  | intro answer comes inner ih =>
    rename_i path o
    have provides : fs.Provides path o := .intro answer comes inner
    have canonical : Path.absolute none path = path := by
      rw [← absolute, Path.absolute_absolute]
    obtain ⟨depth, rfl⟩ := Nat.exists_eq_succ_of_ne_zero (Nat.ne_zero_of_lt room.pos)
    by_cases known : (s.exports? path).isSome
    · rw [loadInside_known absolute known]
      exact .of_known provides exact canonical known _
    have new : path ∉ active := room.not_mem provides
    cases read : fs.sheetOf path with
    | error e =>
      have failed : o = .error e := by
        rw [← comes]
        unfold outcome
        rw [read]
      rw [loadInside_of_error absolute known new read, failed]
      exact ⟨rfl, exact, ⟨fun _ h => h, fun _ h => h⟩, by rintro _ ⟨⟩⟩
    | ok sheet =>
      cases sheet with
      | none =>
        refine .of_none provides exact canonical known read ?_
        exact (loadInside_of_none absolute known new read).imp_left fun run => ⟨_, run⟩
      | some sheet =>
        obtain ⟨styles, parsed, run⟩ := loadInside_of_sheet absolute known new read
        subst comes
        rw [run]
        refine .of_sheet provides inner exact canonical read parsed fun q mem t exact' => ?_
        have asks : fs.Asks path q := ⟨answer, inner, mem⟩
        exact ih q mem (absolute_of_mem_refs asks.mem_refs) (room.enter provides asks) exact'

end Files

end NestedStyles
