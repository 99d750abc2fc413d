import NestedStyles.Proofs.Reuse.Caching

/-!
# Exports that are kept while files change

Files are written and removed while a session goes on. After each such change the exports are
cleared of the file and of all files that are found from it by going back along the recorded
dependencies, again and again. Then what is loaded is always what a new session would load
(`Step.loaded_eq_fresh`).
-/

namespace NestedStyles

open Relation

open Reuse

namespace Files

/-- The files after one of them was written. -/
def write (fs : Files) (path : String) (content : FileContent) : Files :=
  { fs with contents := Table.put (Path.absolute none path) content fs.contents }

/-- The files after one of them was removed. -/
def remove (fs : Files) (path : String) : Files :=
  { fs with contents := Table.erase (Path.absolute none path) fs.contents }

/-- The exports that are returned when a file is loaded. -/
def loaded (fs : Files) (path : String) (s : Session) : Answer :=
  match fs.load path s with
  | (.ok _, s') => .ok (s'.exports path)
  | (.error e, _) => .error e

end Files

namespace Session

/-- Forgets the exports of these files. -/
def clearAll (s : Session) (paths : List String) : Session :=
  paths.foldl (fun s path => s.clear (some path)) s

/-- A file is found from `path` by going back along the recorded dependencies. -/
def LeadsBack (s : Session) (path q : String) : Prop :=
  ReflTransGen (fun p q => q ∈ s.dependents p) path q

end Session

/-- What is done with files and a session. When a file was changed, at least all those are cleared
that are found from it. -/
inductive Step : Files × Session → Files × Session → Prop
  | write {fs : Files} {s : Session} (path : String) (content : FileContent) {stale : List String}
      (all : ∀ q, s.LeadsBack path q → q ∈ stale) :
      Step (fs, s) (fs.write path content, s.clearAll stale)
  | remove {fs : Files} {s : Session} (path : String) {stale : List String}
      (all : ∀ q, s.LeadsBack path q → q ∈ stale) :
      Step (fs, s) (fs.remove path, s.clearAll stale)
  | load {fs : Files} {s : Session} (path : String) (acyclic : fs.Acyclic) :
      Step (fs, s) (fs, (fs.load path s).2)
  | clear {fs : Files} {s : Session} (path : Option String) : Step (fs, s) (fs, s.clear path)

namespace Session

variable {s : Session} {path q : String} {entry : String × List ExportBlock}

theorem dependencies_clearAll (s : Session) (paths : List String) :
    (s.clearAll paths).dependencies = s.dependencies := by
  induction paths generalizing s with
  | nil => rfl
  | cons path paths ih => exact ih (s.clear (some path))

theorem mem_library_clear (h : entry ∈ (s.clear (some path)).library) :
    entry ∈ s.library ∧ Path.absolute none path ≠ entry.1 := by
  obtain ⟨mem, other⟩ := List.mem_filter.1 h
  exact ⟨mem, by simpa using other⟩

theorem mem_library_clearAll {paths : List String} (h : entry ∈ (s.clearAll paths).library) :
    entry ∈ s.library ∧ ∀ path ∈ paths, Path.absolute none path ≠ entry.1 := by
  induction paths generalizing s with
  | nil => exact ⟨h, fun _ mem => absurd mem List.not_mem_nil⟩
  | cons path paths ih =>
    obtain ⟨mem, others⟩ := ih h
    obtain ⟨old, here⟩ := mem_library_clear mem
    exact ⟨old, List.forall_mem_cons.2 ⟨here, others⟩⟩

theorem nodup_keys_clearAll (h : (s.library.map Prod.fst).Nodup) (paths : List String) :
    ((s.clearAll paths).library.map Prod.fst).Nodup := by
  induction paths generalizing s with
  | nil => exact h
  | cons path paths ih => exact ih (Table.nodup_keys_erase _ h)

/-- A file depends on those that are recorded for it. -/
theorem mem_dependents (h : Path.absolute none path ∈ (s.dependencies.lookup q).getD []) :
    q ∈ s.dependents path := by
  cases found : s.dependencies.lookup q with
  | none =>
    rw [found] at h
    exact absurd h List.not_mem_nil
  | some providers =>
    rw [found] at h
    have mem := Table.mem_of_lookup found
    exact List.mem_map.2 ⟨(q, providers), List.mem_filter.2 ⟨mem, decide_eq_true h⟩, rfl⟩

end Session

namespace Files

variable {fs fs' : Files} {s : Session} {path q : String}

theorem sheetOf_write (content : FileContent) (other : q ≠ Path.absolute none path) :
    (fs.write path content).sheetOf q = fs.sheetOf q := by
  have same : (fs.write path content).contents.lookup q = fs.contents.lookup q :=
    Table.lookup_put_of_ne other content fs.contents
  unfold sheetOf
  rw [readText_congr same]
  rfl

theorem sheetOf_remove (other : q ≠ Path.absolute none path) :
    (fs.remove path).sheetOf q = fs.sheetOf q := by
  have same : (fs.remove path).contents.lookup q = fs.contents.lookup q :=
    Table.lookup_erase_of_ne other fs.contents
  unfold sheetOf
  rw [readText_congr same]
  rfl

/-- From a file that another one leads to, this one is found by going back. -/
theorem Tracked.leadsBack (tracked : fs.Tracked s q)
    (leads : ReflTransGen fs.Asks q (Path.absolute none path)) :
    q = Path.absolute none path ∨ s.LeadsBack path q := by
  induction leads using ReflTransGen.head_induction_on with
  | refl => exact .inl rfl
  | head asks rest ih =>
    rename_i q r
    right
    have recorded := tracked q .refl r asks
    have canonical := absolute_of_mem_refs asks.mem_refs
    rcases ih fun t leads => tracked t (.head asks leads) with rfl | back
    · exact .single (Session.mem_dependents recorded)
    · rw [← canonical] at recorded
      exact back.tail (Session.mem_dependents recorded)

/-- After a change of one file what is left in the library is still exact. -/
theorem Exact.edit (h : fs.Exact s) {stale : List String}
    (same : ∀ q, q ≠ Path.absolute none path → fs'.sheetOf q = fs.sheetOf q)
    (all : ∀ q, s.LeadsBack path q → q ∈ stale) : fs'.Exact (s.clearAll stale) := by
  have unaffected : ∀ entry ∈ (s.clearAll stale).library,
      ∀ r, ReflTransGen fs.Asks entry.1 r → fs'.sheetOf r = fs.sheetOf r := by
    intro entry mem r leads
    obtain ⟨old, kept⟩ := Session.mem_library_clearAll mem
    apply same
    rintro rfl
    rcases (h.tracked entry old).leadsBack leads with here | back
    · exact kept path (all path .refl) here.symm
    · exact kept entry.1 (all entry.1 back) (h.canonical entry old)
  have before : ∀ entry ∈ (s.clearAll stale).library, entry ∈ s.library := fun entry mem =>
    (Session.mem_library_clearAll mem).1
  constructor
  case keys => exact Session.nodup_keys_clearAll h.keys stale
  case canonical => exact fun entry mem => h.canonical entry (before entry mem)
  case provided =>
    intro entry mem
    exact (h.provided entry (before entry mem)).congr (unaffected entry mem)
  case tracked =>
    intro entry mem r leads q asks
    have provides := h.provided entry (before entry mem)
    have leads' := provides.leads_congr (unaffected entry mem) leads
    obtain ⟨o, there⟩ := provides.exists_of_leads leads'
    have asks' := (there.asks_congr fun t ht => unaffected entry mem t (leads'.trans ht)).1 asks
    rw [Session.dependencies_clearAll]
    exact h.tracked entry (before entry mem) r leads' q asks'

theorem Exact.clear (h : fs.Exact s) (path : Option String) : fs.Exact (s.clear path) := by
  cases path with
  | none => constructor <;> simp [Session.clear]
  | some path =>
    have before : ∀ entry ∈ (s.clear (some path)).library, entry ∈ s.library := fun entry mem =>
      (Session.mem_library_clear mem).1
    exact ⟨Table.nodup_keys_erase _ h.keys, fun entry mem => h.canonical entry (before entry mem),
      fun entry mem => h.provided entry (before entry mem),
      fun entry mem => h.tracked entry (before entry mem)⟩

/-- In an exact session a file is loaded as in a new one. -/
theorem Provides.loaded_eq {o : Answer} (h : fs.Provides (Path.absolute none path) o)
    (exact : fs.Exact s) : fs.loaded path s = o := by
  have loaded := h.loads rfl (.start fs _) exact
  unfold Files.loaded load
  generalize fs.loadInside (fs.contents.length + 1) [] path s = ran at loaded ⊢
  obtain ⟨result, s'⟩ := ran
  obtain rfl : result = o.map fun _ => () := loaded.result
  cases o with
  | error e => rfl
  | ok es =>
    obtain ⟨-, exports⟩ := loaded.exports es rfl
    have same : s'.exports (Path.absolute none path) = s'.exports path := by
      rw [Session.exports, Session.exports?, Path.absolute_absolute, Session.exports,
        Session.exports?]
    exact congrArg Except.ok (same.symm.trans exports)

end Files

/-- Each step keeps the session exact. -/
theorem Step.exact {fs fs' : Files} {s s' : Session} (step : Step (fs, s) (fs', s'))
    (h : fs.Exact s) : fs'.Exact s' := by
  cases step with
  | write path content all => exact h.edit (fun q other => Files.sheetOf_write content other) all
  | remove path all => exact h.edit (fun q other => Files.sheetOf_remove other) all
  | load path acyclic =>
    obtain ⟨o, provides⟩ := Files.exists_provides acyclic (Path.absolute none path)
    exact (provides.loads rfl (.start fs _) h).exact
  | clear path => exact h.clear path

/-- So a session that began empty is exact after all steps. -/
theorem Step.exact_of_run {fs₀ fs : Files} {s : Session}
    (run : ReflTransGen Step (fs₀, Session.empty) (fs, s)) : fs.Exact s := by
  suffices general : ∀ state : Files × Session,
      ReflTransGen Step (fs₀, Session.empty) state → state.1.Exact state.2 from general _ run
  intro state run
  induction run with
  | refl => exact .empty
  | tail _ step ih => exact Step.exact step ih

/-- Whatever was done before, a file is loaded as in a new session, and what is still known of a
file is what a new session would load. -/
theorem Step.loaded_eq_fresh {fs₀ fs : Files} {s : Session}
    (run : ReflTransGen Step (fs₀, Session.empty) (fs, s)) :
    (fs.Acyclic → ∀ path, fs.loaded path s = fs.loaded path Session.empty) ∧
      ∀ entry ∈ s.library, fs.loaded entry.1 Session.empty = .ok entry.2 := by
  have exact := Step.exact_of_run run
  constructor
  · intro acyclic path
    obtain ⟨o, provides⟩ := Files.exists_provides acyclic (Path.absolute none path)
    rw [provides.loaded_eq exact, provides.loaded_eq .empty]
  · intro entry mem
    have provides := exact.provided entry mem
    rw [← exact.canonical entry mem] at provides
    exact provides.loaded_eq .empty

/-! ## A change of a page's base -/

/-- Going back stays among files that contain all those that depend on them. -/
theorem Session.LeadsBack.mem {s : Session} {path q : String} {paths : List String}
    (h : s.LeadsBack path q) (here : path ∈ paths)
    (closed : ∀ p ∈ paths, ∀ r ∈ s.dependents p, r ∈ paths) : q ∈ paths := by
  induction h with
  | refl => exact here
  | tail _ step ih => exact closed _ ih _ step

/-- Files that refer only to files without references refer to each other in no circle. -/
theorem Files.acyclic_of_shallow {fs : Files}
    (shallow : ∀ p ∈ fs.contents.map Prod.fst, ∀ q ∈ fs.refs p, fs.refs q = []) : fs.Acyclic := by
  intro path circle
  obtain ⟨q, first, rest⟩ := TransGen.head'_iff.1 circle
  have last : fs.refs q = [] := shallow path (mem_keys_of_refs first) q first
  rcases rest.cases_head with rfl | ⟨r, next, -⟩
  · rw [last] at first
    exact List.not_mem_nil first
  · rw [last] at next
    exact List.not_mem_nil next

/-- A page with its base and a file by itself. -/
def pages : Files where
  contents := [
    ("/page", .text "@export c \x7b\n@use b from 'base'\n\x7d"),
    ("/base", .text "@export b \x7b\nm\n\x7d"),
    ("/lone", .text "@export l \x7b\nm\n\x7d")]
  config := ⟨[], [], [], "component"⟩
  styles := some

/-- Both the page and the other file were loaded. -/
def pagesLoaded : Session :=
  (pages.load "lone" (pages.load "page" Session.empty).2).2

/-- The base has changed. -/
def pagesEdited : Files :=
  pages.write "base" (.text "@export b \x7b\nn\n\x7d")

theorem loaded_eq_fresh_pagesEdited :
    let s := pagesLoaded.clearAll ["base", "/page"]
    s.library.map Prod.fst = ["/lone"] ∧ pagesEdited.Acyclic ∧
      pagesEdited.loaded "/page" s = pagesEdited.loaded "/page" Session.empty ∧
      ∀ entry ∈ s.library, pagesEdited.loaded entry.1 Session.empty = .ok entry.2 := by
  -- evaluated at once, since each of these reads the files anew
  have facts : (∀ p ∈ pages.contents.map Prod.fst, ∀ q ∈ pages.refs p, pages.refs q = []) ∧
      (∀ p ∈ pagesEdited.contents.map Prod.fst, ∀ q ∈ pagesEdited.refs p,
        pagesEdited.refs q = []) ∧
      (∀ p ∈ ["base", "/page"], ∀ r ∈ pagesLoaded.dependents p,
        r ∈ ["base", "/page"]) ∧
      (pagesLoaded.clearAll ["base", "/page"]).library.map Prod.fst = ["/lone"] := by
    decide +kernel
  obtain ⟨shallow, shallow', closed, left⟩ := facts
  have before : pages.Acyclic := Files.acyclic_of_shallow shallow
  have after : pagesEdited.Acyclic := Files.acyclic_of_shallow shallow'
  have first : Step (pages, Session.empty) (pages, (pages.load "page" Session.empty).2) :=
    .load "page" before
  have second : Step (pages, (pages.load "page" Session.empty).2) (pages, pagesLoaded) :=
    .load "lone" before
  have third : Step (pages, pagesLoaded)
      (pagesEdited, pagesLoaded.clearAll ["base", "/page"]) :=
    .write "base" _ fun q back => back.mem (by decide) closed
  have run := ((ReflTransGen.single first).tail second).tail third
  exact ⟨left, after, (Step.loaded_eq_fresh run).1 after "/page",
    (Step.loaded_eq_fresh run).2⟩

end NestedStyles
