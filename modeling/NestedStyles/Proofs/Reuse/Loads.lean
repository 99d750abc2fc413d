import NestedStyles.Proofs.Reuse.Caching
import NestedStyles.Proofs.Reuse.Draining

/-!
# Loading files that may need each other

Files may import each other in a circle. A file that is being loaded is not known until its exports
are stored, and what is known once stays as it is. So loading only adds to a session
(`Files.Grows`): what was known is known still, and of what is recorded only that of files changes
that become known. It does so also when it fails (`Files.visits`).
-/

namespace NestedStyles

open Reuse

/-- What becomes known keeps the library clean if it has no uses. -/
theorem Session.Clean.store {s : Session} (h : s.Clean) (path : String) {es : List ExportBlock}
    (free : Inquiry.Free es) : (s.store path es).Clean := by
  refine ⟨Table.nodup_keys_put es h.keys, fun entry mem => ?_⟩
  rcases Table.mem_of_mem_put mem with rfl | mem
  · exact free
  · exact h.free entry mem

/-- What holds of a session at any time: it is clean, it knows only files that are there and a file
is recorded once. -/
structure Session.Orderly (contents : List (String × FileContent)) (s : Session) : Prop
    extends s.Clean where
  files : ∀ entry ∈ s.library, contents.lookup entry.1 ≠ none
  consumers : (s.dependencies.map Prod.fst).Nodup

namespace Session.Orderly

variable {contents : List (String × FileContent)} {s : Session} {path : String}

theorem empty : Session.empty.Orderly contents := by
  refine ⟨⟨?_, ?_⟩, ?_, ?_⟩ <;> simp [Session.empty]

theorem log (h : s.Orderly contents) (events : List Event) : (s.log events).Orderly contents :=
  ⟨h.toClean.log events, h.files, h.consumers⟩

theorem record (h : s.Orderly contents) (file : String) (providers : List String) :
    (s.record file providers).Orderly contents := by
  refine ⟨h.toClean.record file providers, h.files, ?_⟩
  unfold Session.record
  split
  · exact Table.nodup_keys_erase _ h.consumers
  · exact Table.nodup_keys_put _ h.consumers

theorem store (h : s.Orderly contents) (canonical : Path.absolute none path = path)
    (there : contents.lookup path ≠ none) {es : List ExportBlock} (free : Inquiry.Free es) :
    (s.store path es).Orderly contents := by
  refine ⟨h.toClean.store path free, fun entry mem => ?_, h.consumers⟩
  rw [Session.store, canonical] at mem
  rcases Table.mem_of_mem_put mem with rfl | mem
  · exact there
  · exact h.files entry mem

/-- A file that is not there is not known. -/
theorem unknown_of_missing (h : s.Orderly contents)
    (missing : contents.lookup (Path.absolute none path) = none) : s.exports? path = none := by
  cases known : s.exports? path with
  | none => rfl
  | some es => exact absurd missing (h.files _ (Table.mem_of_lookup known))

end Session.Orderly

theorem Session.exports?_absolute (s : Session) (path : String) :
    s.exports? (Path.absolute none path) = s.exports? path := by
  rw [Session.exports?, Path.absolute_absolute, Session.exports?]

theorem Session.exports?_store_of_ne {path q : String} (s : Session) (es : List ExportBlock)
    (canonical : Path.absolute none path = path) (ne : Path.absolute none q ≠ path) :
    (s.store path es).exports? q = s.exports? q := by
  rw [← canonical] at ne
  exact Table.lookup_put_of_ne ne es s.library

namespace Files

variable {fs : Files} {path q given : String} {s s' s'' : Session} {depth : Nat}
variable {active : List String} {asked : List String}

/-! ## How a session grows -/

/-- When its exports were resolved the file asked for these files. -/
def AsksFor (fs : Files) (path : String) (asked : List String) : Prop :=
  ∃ sheet depth active s r s', fs.sheetOf path = .ok (some sheet) ∧
    sheet.resolveExports ⟨path, fs.loadInside depth active⟩ true s = (.ok r, s') ∧
    r.dependencies = asked

/-- In between the file became known, and what it asked for is recorded. -/
structure Arrives (fs : Files) (s s' : Session) (path : String) : Prop where
  unknown : s.exports? path = none
  known : s'.exports? path ≠ none
  asks : fs.AsksFor path ((s'.dependencies.lookup path).getD [])

/-- A session has only been added to. -/
structure Grows (fs : Files) (s s' : Session) : Prop where
  known : ∀ {path es}, s.exports? path = some es → s'.exports? path = some es
  recorded : ∀ path, s'.dependencies.lookup path = s.dependencies.lookup path ∨
    fs.Arrives s s' path

namespace Grows

theorem refl (s : Session) : fs.Grows s s :=
  ⟨id, fun _ => .inl rfl⟩

theorem log (s : Session) (events : List Event) : fs.Grows s (s.log events) :=
  ⟨id, fun _ => .inl rfl⟩

/-- What is not known later was not known before. -/
theorem unknown (h : fs.Grows s s') (later : s'.exports? path = none) :
    s.exports? path = none := by
  cases before : s.exports? path with
  | none => rfl
  | some es =>
    rw [h.known before] at later
    cases later

theorem trans (h : fs.Grows s s') (h' : fs.Grows s' s'') : fs.Grows s s'' := by
  refine ⟨fun before => h'.known (h.known before), fun path => ?_⟩
  rcases h'.recorded path with same' | arrives'
  · rcases h.recorded path with same | arrives
    · exact .inl (same'.trans same)
    · obtain ⟨es, known⟩ := Option.ne_none_iff_exists'.1 arrives.known
      have still : s''.exports? path ≠ none := by
        rw [h'.known known]
        exact Option.some_ne_none es
      exact .inr ⟨arrives.unknown, still, same' ▸ arrives.asks⟩
  · exact .inr ⟨h.unknown arrives'.unknown, arrives'.known, arrives'.asks⟩

/-- The exports of a file that was not known become known. -/
theorem store (fs : Files) (canonical : Path.absolute none path = path)
    (unknown : s.exports? path = none) (es : List ExportBlock) : fs.Grows s (s.store path es) := by
  refine ⟨fun {q} _ before => ?_, fun _ => .inl rfl⟩
  by_cases same : Path.absolute none q = path
  · rw [Session.exports?, same] at before
    rw [Session.exports?, canonical] at unknown
    rw [unknown] at before
    cases before
  · rw [Session.exports?_store_of_ne s es canonical same]
    exact before

/-- A file is read: what it asked for is recorded and its exports become known. -/
theorem read (canonical : Path.absolute none path = path) (unknown : s.exports? path = none)
    (asks : fs.AsksFor path asked) (es : List ExportBlock) :
    fs.Grows s ((s.record path asked).store path es) := by
  have unknown' : (s.record path asked).exports? path = none := unknown
  have stored := store fs canonical unknown' es
  refine ⟨stored.known, fun q => ?_⟩
  by_cases same : q = path
  · subst same
    refine .inr ⟨unknown, ?_, ?_⟩
    · rw [Session.exports?_store_self]
      exact Option.some_ne_none es
    · have recorded : ((((s.record q asked).store q es).dependencies).lookup q).getD [] = asked :=
        lookup_record canonical asked
      rwa [recorded]
  · exact .inl (lookup_record_of_ne canonical same asked)

end Grows

/-! ## The ways of loading a file -/

section

variable (absolute : Path.absolute none given = path) (unknown : ¬ (s.exports? path).isSome)

include absolute unknown

/-- A file that is needed to load itself is not read again. -/
theorem loadInside_circular (mem : path ∈ active) : fs.loadInside (depth + 1) active given s =
    (.ok (), s.log [.fault path (.circularImport path)]) := by
  subst absolute
  change (ite _ (_ : SessionM Unit) _) s = _
  rw [if_neg unknown]
  exact congrFun (if_pos mem) s

theorem loadInside_missing (new : path ∉ active) (content : fs.readText path = .ok none) :
    fs.loadInside (depth + 1) active given s =
      (.ok (), s.log [.fault path (.missingFile given)]) := by
  rw [loadInside_unknown absolute unknown new, content]
  rfl

theorem loadInside_undecodable {e : Undecodable} (new : path ∉ active)
    (content : fs.readText path = .error e) :
    fs.loadInside (depth + 1) active given s = (.error e, s) := by
  rw [loadInside_unknown absolute unknown new, content]
  rfl

end

/-- The ways in which the loading of a file can go. -/
inductive Goes (fs : Files) (depth : Nat) (active : List String) (given path : String)
    (s : Session) : Except Undecodable Unit × Session → Prop
  | known (known : (s.exports? path).isSome) :
    fs.Goes depth active given path s (.ok (), s.log [.known path])
  | circular (unknown : ¬ (s.exports? path).isSome) (mem : path ∈ active) :
    fs.Goes depth active given path s (.ok (), s.log [.fault path (.circularImport path)])
  | missing (unknown : ¬ (s.exports? path).isSome) (new : path ∉ active)
      (content : fs.readText path = .ok none) :
    fs.Goes depth active given path s (.ok (), s.log [.fault path (.missingFile given)])
  | undecodable {e : Undecodable} (unknown : ¬ (s.exports? path).isSome) (new : path ∉ active)
      (content : fs.readText path = .error e) :
    fs.Goes depth active given path s (.error e, s)
  | blank {text : String} (unknown : ¬ (s.exports? path).isSome) (new : path ∉ active)
      (content : fs.readText path = .ok (some text)) (none : fs.stylesIn text = "") :
    fs.Goes depth active given path s (.ok (), s.store path [])
  | read {text : String} (unknown : ¬ (s.exports? path).isSome) (new : path ∉ active)
      (content : fs.readText path = .ok (some text)) (some : fs.stylesIn text ≠ "") :
    fs.Goes depth active given path s
      (fs.readExports (fs.loadInside depth (path :: active)) path (fs.stylesIn text) s)

theorem goes (fs : Files) (depth : Nat) (active : List String) (given : String) (s : Session)
    (absolute : Path.absolute none given = path) :
    fs.Goes depth active given path s (fs.loadInside (depth + 1) active given s) := by
  by_cases unknown : (s.exports? path).isSome
  · rw [loadInside_known absolute unknown]
    exact .known unknown
  by_cases new : path ∈ active
  · rw [loadInside_circular absolute unknown new]
    exact .circular unknown new
  cases content : fs.readText path with
  | error e =>
    rw [loadInside_undecodable absolute unknown new content]
    exact .undecodable unknown new content
  | ok text? =>
    cases text? with
    | none =>
      rw [loadInside_missing absolute unknown new content]
      exact .missing unknown new content
    | some text =>
      rw [loadInside_of_text absolute unknown new content]
      by_cases blank : fs.stylesIn text = ""
      · rw [if_pos blank]
        exact .blank unknown new content blank
      · rw [if_neg blank]
        exact .read unknown new content blank

/-! ## Loading adds to a session -/

/-- The loader that reads so many files one inside the other while these are being loaded. They are
not known as long. -/
def loading (fs : Files) (depth : Nat) (active : List String) : Loading where
  load := fs.loadInside depth active
  ready s := s.Orderly fs.contents ∧ ∀ a ∈ active, s.exports? a = none
  grows := fs.Grows

/-- A file that is not known may be read: then it is being loaded itself. -/
theorem ready_enter {depth' : Nat} (ready : (fs.loading depth active).ready s)
    (unknown : ¬ (s.exports? path).isSome) : (fs.loading depth' (path :: active)).ready s :=
  ⟨ready.1, List.forall_mem_cons.2 ⟨Option.not_isSome_iff_eq_none.1 unknown, ready.2⟩⟩

/-- What comes of loading a file. -/
structure Visit (fs : Files) (active : List String) (s : Session)
    (ran : Except Undecodable Unit × Session) : Prop where
  ready : ran.2.Orderly fs.contents ∧ ∀ a ∈ active, ran.2.exports? a = none
  grows : fs.Grows s ran.2

/-- Whatever is loaded this comes of it. -/
def Visits (fs : Files) (depth : Nat) (active : List String) : Prop :=
  ∀ given s, s.Orderly fs.contents → (∀ a ∈ active, s.exports? a = none) →
    fs.Visit active s (fs.loadInside depth active given s)

theorem Visits.lawful (visits : fs.Visits depth active) : (fs.loading depth active).Lawful where
  refl := .refl
  trans := .trans
  log ready events := ⟨⟨ready.1.log events, ready.2⟩, .log _ events⟩
  load ready given := by
    have visit := visits given _ ready.1 ready.2
    exact ⟨visit.ready, visit.grows⟩
  clean ready := ready.1.toClean

/-- The course of reading a file with the loader inside. -/
def ReadCourse (fs : Files) (depth : Nat) (active : List String) (path styles : String)
    (s : Session) (calls : List Call) (p : Pass) : Prop :=
  Course (fs.loading depth active) path
    (fun c => prepare c ((fs.startReading path styles s).allUses.length + 1))
    (fs.startReading path styles s) calls () p

/-- Reading a file is a pass over its exports with the loader inside. It comes to an end, or it
fails in a call that fails. -/
theorem Visits.reading (visits : fs.Visits depth active) (path styles : String)
    (ready : (fs.loading depth active).ready s) :
    (∃ calls p, fs.ReadCourse depth active path styles s calls p ∧ Inquiry.Free p.sheet.exports ∧
      fs.readExports (fs.loadInside depth active) path styles s =
        (.ok (), (p.session.record path p.dependencies).store path p.sheet.exports)) ∨
    ∃ call e t, (fs.loading depth active).ready call.session ∧
      (fs.loading depth active).result call = .error e ∧
      fs.readExports (fs.loadInside depth active) path styles s = (.error e, t) ∧
      (fs.loading depth active).ready t ∧ fs.Grows s t := by
  have enough : (Stylesheet.parse fs.config styles).value.allUses.length <
      (fs.startReading path styles s).allUses.length + 1 := allUses_lt_start _ _
  obtain ⟨before, logged⟩ := visits.lawful.log ready (fs.opening path styles)
  rw [readExports_eq]
  dsimp only
  rcases prepare_drains visits.lawful path _ enough before with
    ⟨calls, ⟨⟩, p, course, -, free⟩ | ⟨call, e, p, ready', fails, run, after, grows⟩
  · have ran : prepare ⟨path, fs.loadInside depth active⟩
        ((fs.startReading path styles s).allUses.length + 1) (fs.startReading path styles s) =
          (.ok (), p) := course.run
    refine .inl ⟨calls, p, course, free, ?_⟩
    rw [ran]
  · have ran : prepare ⟨path, fs.loadInside depth active⟩
        ((fs.startReading path styles s).allUses.length + 1) (fs.startReading path styles s) =
          (.error e, p) := run
    refine .inr ⟨call, e, p.session, ready', fails, ?_, after, logged.trans grows⟩
    rw [ran]

/-- At the end it is recorded what the file asked for, and its exports become known. -/
theorem ReadCourse.grows {text : String} {calls : List Call} {p : Pass}
    (course : fs.ReadCourse depth (path :: active) path (fs.stylesIn text) s calls p)
    (canonical : Path.absolute none path = path)
    (content : fs.readText path = .ok (some text)) (some : fs.stylesIn text ≠ "") :
    fs.Grows p.session ((p.session.record path p.dependencies).store path p.sheet.exports) := by
  obtain ⟨-, unknowns⟩ := course.ready
  have asks : fs.AsksFor path p.dependencies := by
    refine ⟨_, depth, path :: active, _, _, _, ?_, bind_of_ok (runPass_of_ok course.run), rfl⟩
    rw [sheetOf_of_text content, if_neg some]
  exact .read canonical (unknowns path List.mem_cons_self) asks _

/-- A file is read. Those that are being loaded stay unknown, and so does the file itself until its
exports are stored. -/
theorem Visits.read {text : String} (visits : fs.Visits depth (path :: active))
    (canonical : ∀ a ∈ path :: active, Path.absolute none a = a)
    (orderly : s.Orderly fs.contents) (unknowns : ∀ a ∈ active, s.exports? a = none)
    (unknown : s.exports? path = none) (new : path ∉ active)
    (content : fs.readText path = .ok (some text)) (some : fs.stylesIn text ≠ "") :
    fs.Visit active s
      (fs.readExports (fs.loadInside depth (path :: active)) path (fs.stylesIn text) s) := by
  have here : Path.absolute none path = path := canonical path List.mem_cons_self
  have ready : (fs.loading depth (path :: active)).ready s :=
    ⟨orderly, List.forall_mem_cons.2 ⟨unknown, unknowns⟩⟩
  rcases visits.reading path (fs.stylesIn text) ready with
    ⟨calls, p, course, free, run⟩ | ⟨call, e, t, -, -, run, ⟨orderly', unknowns'⟩, grows⟩
  · obtain ⟨orderly', unknowns'⟩ := course.ready
    have there : fs.contents.lookup path ≠ none := lookup_ne_none_of_text content
    rw [run]
    refine ⟨⟨(orderly'.record path _).store here there free, fun a mem => ?_⟩, ?_⟩
    · have other : Path.absolute none a ≠ path := by
        rw [canonical a (List.mem_cons_of_mem path mem)]
        rintro rfl
        exact new mem
      exact (Session.exports?_store_of_ne _ _ here other).trans
        (unknowns' a (List.mem_cons_of_mem path mem))
    · exact Grows.trans (.log s _) (Grows.trans (Course.grows course)
        (ReadCourse.grows course here content some))
  · rw [run]
    exact ⟨⟨orderly', fun a mem => unknowns' a (List.mem_cons_of_mem path mem)⟩, grows⟩

/-- Loading a file adds to the session, whatever comes of it. -/
theorem visits (fs : Files) (depth : Nat) (active : List String)
    (canonical : ∀ a ∈ active, Path.absolute none a = a) : fs.Visits depth active := by
  induction depth generalizing active with
  | zero => exact fun given s orderly unknowns => ⟨⟨orderly, unknowns⟩, .refl s⟩
  | succ depth ih =>
    intro given s orderly unknowns
    have here : Path.absolute none (Path.absolute none given) = Path.absolute none given :=
      Path.absolute_absolute none given
    -- only a file that is read calls the loader inside, and it is being loaded then itself
    have way := fs.goes depth active given s rfl
    generalize fs.loadInside (depth + 1) active given s = ran at way ⊢
    cases way with
    | known | circular | missing =>
      exact ⟨⟨orderly.log _, unknowns⟩, .log s _⟩
    | undecodable => exact ⟨⟨orderly, unknowns⟩, .refl s⟩
    | blank unknown new content =>
      have free : Inquiry.Free [] := fun _ mem => absurd mem List.not_mem_nil
      have there := lookup_ne_none_of_text content
      refine ⟨⟨orderly.store here there free, fun a mem => ?_⟩,
        .store fs here (Option.not_isSome_iff_eq_none.1 unknown) []⟩
      have other : Path.absolute none a ≠ Path.absolute none given := by
        rw [canonical a mem]
        rintro rfl
        exact new mem
      rw [Session.exports?_store_of_ne s [] here other]
      exact unknowns a mem
    | read unknown new content some =>
      have canonical' : ∀ a ∈ Path.absolute none given :: active, Path.absolute none a = a :=
        List.forall_mem_cons.2 ⟨here, canonical⟩
      have inner : fs.Visits depth (Path.absolute none given :: active) := ih _ canonical'
      exact inner.read canonical' orderly unknowns (Option.not_isSome_iff_eq_none.1 unknown) new
        content some

end Files

end NestedStyles
