import Mathlib.Data.Finmap
import NestedStyles.Proofs.Reuse.Retention

/-!
# A session as maps over paths

A session is accessed by paths in whatever spelling (`Access`). It answers as finite maps whose keys
are absolute paths would (`PathMaps`), with one exception: the files that blocks were taken from are
kept as they were spelled, so a file that is spelled otherwise is not found among them
(`Access.agreesAfter_iff`).
-/

namespace NestedStyles

open Reuse

/-! ## Accesses -/

/-- A path in its one spelling. -/
abbrev NormalPath := { p : String // Path.absolute none p = p }

/-- The one spelling of a path that is seen from `/`. -/
def NormalPath.of (path : String) : NormalPath :=
  ⟨Path.absolute none path, Path.absolute_absolute none path⟩

/-- What a session is asked or told about files, given by their paths. -/
inductive Access (α : Type)
  /-- The exports of a file become known. -/
  | store (path : α) (blocks : List ExportBlock)
  /-- The exports of a file are asked for. -/
  | lookup (path : α)
  /-- The exports of a file, or of all files, are forgotten. -/
  | clear (path : Option α)
  /-- A file took blocks from others. -/
  | record (consumer : α) (providers : List α)
  /-- The files that took blocks from a file are asked for. -/
  | dependents (provider : α)

/-- The answer to an access. -/
inductive Reply (α : Type)
  | done
  | exports (found : Option (List ExportBlock))
  | files (found : α)

namespace Access

variable {α β : Type}

/-- Changes all paths. -/
def map (f : α → β) : Access α → Access β
  | store path blocks => store (f path) blocks
  | lookup path => lookup (f path)
  | clear path => clear (path.map f)
  | record consumer providers => record (f consumer) (providers.map f)
  | dependents provider => dependents (f provider)

/-- Changes all paths but those of the files that blocks were taken from. -/
def mapKeys (f : α → α) : Access α → Access α
  | record consumer providers => record (f consumer) providers
  | a => a.map f

end Access

/-- The answer of a session, and the session afterwards. -/
def Session.access (s : Session) : Access String → Reply (List String) × Session
  | .store path blocks => (.done, s.store path blocks)
  | .lookup path => (.exports (s.exports? path), s)
  | .clear path => (.done, s.clear path)
  | .record consumer providers => (.done, s.record consumer providers)
  | .dependents provider => (.files (s.dependents provider), s)

/-- The session after all accesses. -/
def Session.accessAll (s : Session) (as : List (Access String)) : Session :=
  as.foldl (fun s a => (s.access a).2) s

/-- It does not matter whether a path was made absolute before. -/
theorem Session.access_mapKeys (s : Session) (a : Access String) :
    s.access (a.mapKeys (Path.absolute none)) = s.access a := by
  cases a with
  | clear path =>
    cases path with
    | none => rfl
    | some path => simp only [Access.mapKeys, Access.map, Option.map_some, access, clear,
        Path.absolute_absolute]
  | store | lookup | record | dependents =>
    simp only [Access.mapKeys, Access.map, access, store, exports?, record, dependents,
      Path.absolute_absolute]

/-- Finite maps whose keys are paths in their one spelling. -/
structure PathMaps where
  exports : Finmap fun _ : NormalPath => List ExportBlock
  providers : Finmap fun _ : NormalPath => Finset NormalPath

namespace PathMaps

def empty : PathMaps := ⟨∅, ∅⟩

/-- The answer of maps, and the maps afterwards. -/
def access (m : PathMaps) : Access NormalPath → Reply (Finset NormalPath) × PathMaps
  | .store path blocks => (.done, { m with exports := m.exports.insert path blocks })
  | .lookup path => (.exports (m.exports.lookup path), m)
  | .clear none => (.done, { m with exports := ∅ })
  | .clear (some path) => (.done, { m with exports := m.exports.erase path })
  | .record consumer [] => (.done, { m with providers := m.providers.erase consumer })
  | .record consumer providers =>
    (.done, { m with providers := m.providers.insert consumer providers.toFinset })
  | .dependents provider =>
    (.files (m.providers.keys.filter fun c => provider ∈ (m.providers.lookup c).getD ∅), m)

/-- The maps after all accesses. -/
def accessAll (m : PathMaps) (as : List (Access NormalPath)) : PathMaps :=
  as.foldl (fun m a => (m.access a).2) m

end PathMaps

/-- The answers are the same. Files that are listed are listed once. -/
inductive Reply.Agrees : Reply (List String) → Reply (Finset NormalPath) → Prop
  | done : Agrees .done .done
  | exports (found : Option (List ExportBlock)) : Agrees (.exports found) (.exports found)
  | files {found : List String} {keys : Finset NormalPath} (once : found.Nodup)
      (same : ∀ path, path ∈ found ↔ ∃ key ∈ keys, key.1 = path) :
      Agrees (.files found) (.files keys)

/-! ## What maps stand for -/

/-- The maps hold what is kept in the session. Of files that blocks were taken from they hold the
one spelling. -/
structure Session.Shows (s : Session) (m : PathMaps) : Prop where
  exports : ∀ key : NormalPath, s.library.lookup key.1 = m.exports.lookup key
  providers : ∀ key : NormalPath, m.providers.lookup key =
    (s.dependencies.lookup key.1).map fun files => (files.map NormalPath.of).toFinset
  once : (s.dependencies.map Prod.fst).Nodup
  normal : ∀ entry ∈ s.dependencies, Path.absolute none entry.1 = entry.1

namespace NormalPath

theorem ne_absolute {key : NormalPath} {path : String} (ne : key ≠ of path) :
    key.1 ≠ Path.absolute none path :=
  fun same => ne (Subtype.ext same)

theorem val_of (path : String) : (of path).1 = Path.absolute none path :=
  rfl

end NormalPath

namespace Session

variable {s : Session} {m : PathMaps}

theorem shows_empty : empty.Shows .empty where
  exports _ := rfl
  providers _ := rfl
  once := List.nodup_nil
  normal _ mem := absurd mem List.not_mem_nil

/-- A file and what it took blocks from is recorded, or taken out of the record. -/
theorem mem_dependencies_record {entry : String × List String} {consumer : String}
    {files : List String} (mem : entry ∈ (s.record consumer files).dependencies) :
    entry = (Path.absolute none consumer, files) ∨ entry ∈ s.dependencies := by
  unfold record at mem
  cases files with
  | nil => exact .inr (List.mem_filter.1 mem).1
  | cons file files => exact Table.mem_of_mem_put mem

namespace Shows

theorem store (h : s.Shows m) (path : String) (blocks : List ExportBlock) :
    (s.store path blocks).Shows { m with exports := m.exports.insert (.of path) blocks } := by
  refine { h with exports := fun key => ?_ }
  by_cases same : key = .of path
  · subst same
    rw [Finmap.lookup_insert]
    exact Table.lookup_put_self _ _ _
  · rw [Finmap.lookup_insert_of_ne _ same]
    exact (Table.lookup_put_of_ne (NormalPath.ne_absolute same) _ _).trans (h.exports key)

theorem clear (h : s.Shows m) (path : String) :
    (s.clear (some path)).Shows { m with exports := m.exports.erase (.of path) } := by
  refine { h with exports := fun key => ?_ }
  by_cases same : key = .of path
  · subst same
    rw [Finmap.lookup_erase]
    exact Table.lookup_erase_self _ _
  · rw [Finmap.lookup_erase_ne same]
    exact (Table.lookup_erase_of_ne (NormalPath.ne_absolute same) _).trans (h.exports key)

theorem record (h : s.Shows m) (consumer : String) (files : List String) :
    (s.record consumer files).Shows
      (m.access (.record (.of consumer) (files.map NormalPath.of))).2 := by
  have normal : ∀ entry ∈ (s.record consumer files).dependencies,
      Path.absolute none entry.1 = entry.1 := by
    intro entry mem
    rcases mem_dependencies_record mem with rfl | mem
    · exact Path.absolute_absolute none consumer
    · exact h.normal entry mem
  cases files with
  | nil =>
    refine ⟨h.exports, fun key => ?_, Table.nodup_keys_erase _ h.once, normal⟩
    change (m.providers.erase (.of consumer)).lookup key =
      ((Table.erase (Path.absolute none consumer) s.dependencies).lookup key.1).map _
    by_cases same : key = .of consumer
    · subst same
      rw [Finmap.lookup_erase, NormalPath.val_of, Table.lookup_erase_self, Option.map_none]
    · rw [Finmap.lookup_erase_ne same, Table.lookup_erase_of_ne (NormalPath.ne_absolute same),
        h.providers]
  | cons file files =>
    refine ⟨h.exports, fun key => ?_, Table.nodup_keys_put _ h.once, normal⟩
    change (m.providers.insert (.of consumer) ((file :: files).map NormalPath.of).toFinset).lookup
        key = ((Table.put (Path.absolute none consumer) (file :: files) s.dependencies).lookup
          key.1).map _
    by_cases same : key = .of consumer
    · subst same
      rw [Finmap.lookup_insert, NormalPath.val_of, Table.lookup_put_self, Option.map_some]
    · rw [Finmap.lookup_insert_of_ne _ same,
        Table.lookup_put_of_ne (NormalPath.ne_absolute same), h.providers]

/-- An access to the session and to the maps leaves them as they were, one for the other. -/
theorem access (h : s.Shows m) (a : Access String) :
    (s.access a).2.Shows (m.access (a.map .of)).2 := by
  cases a with
  | store path blocks => exact h.store path blocks
  | lookup path => exact h
  | clear path =>
    cases path with
    | none => exact { h with exports := fun _ => rfl }
    | some path => exact h.clear path
  | record consumer files => exact h.record consumer files
  | dependents file => exact h

theorem accessAll (h : s.Shows m) (as : List (Access String)) :
    (s.accessAll as).Shows (m.accessAll (as.map (·.map .of))) := by
  induction as generalizing s m with
  | nil => exact h
  | cons a as ih => exact ih (h.access a)

/-- The maps list a file if one of those it took blocks from has the absolute path. -/
theorem mem_dependents (h : s.Shows m) {key : NormalPath} {file : String} :
    (key ∈ m.providers.keys.filter fun c => NormalPath.of file ∈ (m.providers.lookup c).getD ∅) ↔
      Path.absolute none file ∈
        ((s.dependencies.lookup key.1).getD []).map (Path.absolute none) := by
  rw [Finset.mem_filter, Finmap.mem_keys, Finmap.mem_iff, h.providers]
  cases found : s.dependencies.lookup key.1 with
  | none => simp
  | some files => simp [NormalPath.of, Subtype.ext_iff]

/-- The session and the maps list the same files unless one that blocks were taken from is spelled
otherwise. -/
theorem dependents_agrees_iff (h : s.Shows m) (file : String) :
    (s.access (.dependents file)).1.Agrees (m.access (.dependents (.of file))).1 ↔
      ∀ key : NormalPath, Path.absolute none file ∈
          ((s.dependencies.lookup key.1).getD []).map (Path.absolute none) →
        Path.absolute none file ∈ (s.dependencies.lookup key.1).getD [] := by
  constructor
  · rintro (_ | _ | ⟨-, same⟩) key mem
    rw [← mem_dependents_iff h.once, same]
    exact ⟨key, h.mem_dependents.2 mem, rfl⟩
  · intro spelled
    have once : (s.dependents file).Nodup := h.once.sublist (List.filter_sublist.map Prod.fst)
    refine .files once fun path => ⟨fun mem => ?_, ?_⟩
    · obtain ⟨entry, recorded, rfl⟩ := List.mem_map.1 mem
      have key := h.normal entry (List.mem_filter.1 recorded).1
      rw [mem_dependents_iff h.once] at mem
      refine ⟨⟨entry.1, key⟩, h.mem_dependents.2 (List.mem_map.2 ⟨_, mem, ?_⟩), rfl⟩
      exact Path.absolute_absolute none file
    · rintro ⟨key, mem, rfl⟩
      rw [mem_dependents_iff h.once]
      exact spelled key (h.mem_dependents.1 mem)

end Shows

end Session

/-! ## Sequences of accesses -/

namespace Access

/-- The files that a file took blocks from after an access, if these were they before. -/
def recordedFor (key : NormalPath) (files : List String) : Access String → List String
  | record consumer files' => if NormalPath.of consumer = key then files' else files
  | _ => files

/-- The files that a file took blocks from, as the last access that said so has spelled them. -/
def lastRecord (as : List (Access String)) (key : NormalPath) : List String :=
  as.foldl (recordedFor key) []

theorem recorded_access (s : Session) (a : Access String) (key : NormalPath) :
    ((s.access a).2.dependencies.lookup key.1).getD [] =
      a.recordedFor key ((s.dependencies.lookup key.1).getD []) := by
  cases a with
  | record consumer files =>
    change (((s.record consumer files).dependencies.lookup key.1).getD []) = ite _ _ _
    rw [← Session.record_absolute]
    split
    case isTrue same =>
      subst same
      exact Files.lookup_record (Path.absolute_absolute none consumer) files
    case isFalse other =>
      rw [Files.lookup_record_of_ne (Path.absolute_absolute none consumer)
        (NormalPath.ne_absolute (Ne.symm other))]
  | clear path => cases path <;> rfl
  | store | lookup | dependents => rfl

theorem recorded_accessAll (s : Session) (as : List (Access String)) (key : NormalPath) :
    ((s.accessAll as).dependencies.lookup key.1).getD [] =
      as.foldl (recordedFor key) ((s.dependencies.lookup key.1).getD []) := by
  induction as generalizing s with
  | nil => rfl
  | cons a as ih =>
    rw [List.foldl_cons, ← recorded_access]
    exact ih (s.access a).2

/-- After these accesses a session answers the next one as maps over absolute paths do. -/
def AgreesAfter (before : List (Access String)) (a : Access String) : Prop :=
  ((Session.empty.accessAll before).access a).1.Agrees
    ((PathMaps.empty.accessAll (before.map (·.map .of))).access (a.map .of)).1

/-- After any sequence of accesses a session answers the next one as the maps do, unless it is asked
for the files that took blocks from one that was spelled otherwise when this was recorded. -/
theorem agreesAfter_iff (before : List (Access String)) (a : Access String) :
    a.AgreesAfter before ↔ ∀ file, a = .dependents file → ∀ key,
      Path.absolute none file ∈ (lastRecord before key).map (Path.absolute none) →
        Path.absolute none file ∈ lastRecord before key := by
  have shows := Session.shows_empty.accessAll before
  have recorded := recorded_accessAll Session.empty before
  cases a with
  | dependents file =>
    refine (shows.dependents_agrees_iff file).trans ?_
    simp only [recorded]
    exact ⟨fun h _ same => dependents.inj same ▸ h, fun h => h file rfl⟩
  | store path blocks => exact iff_of_true .done (by rintro _ ⟨⟩)
  | lookup path =>
    refine iff_of_true ?_ (by rintro _ ⟨⟩)
    have found : ((Session.empty.accessAll before).exports? path) = _ := shows.exports (.of path)
    simp only [AgreesAfter, Session.access, PathMaps.access, map, found]
    exact .exports _
  | clear path => cases path <;> exact iff_of_true .done (by rintro _ ⟨⟩)
  | record consumer files => cases files <;> exact iff_of_true .done (by rintro _ ⟨⟩)

/-- A file that was recorded with a relative path is not found. -/
example : (Session.empty.record "/a" ["b"]).dependents "b" = [] ∧
    (Session.empty.record "/a" ["/b"]).dependents "b" = ["/a"] := by
  decide +kernel

end Access

end NestedStyles
