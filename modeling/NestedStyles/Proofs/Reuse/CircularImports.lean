import NestedStyles.Proofs.Reuse.CircularUses
import NestedStyles.Proofs.Reuse.Sufficiency

/-!
# Files that need each other in a circle

Whatever files refer to each other, the exports of any of them can be loaded, and a circular import
is reported just when references lead from the file to a circle (`Files.load_circular_iff`).

Loading is a search in depth. The files that are being loaded lie on a way of references to the file
that is asked for, so what is reported lies on a circle (`Searched.sound`). As long as nothing is
reported, no way of references from a file that is known is endless (`Files.Grounded`), since a file
becomes known only after all that it refers to was asked for. What a pass does to the session in
between is told from its calls: with a loader that has nothing to do the same pass reports no
circular import (`Alongside`).
-/

namespace NestedStyles

open Relation

namespace Files

open Reuse

variable {fs : Files} {root path given : String} {s s' t before after : Session}
variable {depth : Nat} {active asked : List String}

/-! ## What is known in the course of a search -/

/-- No circular import was reported. -/
def Quiet (s : Session) : Prop :=
  ∀ file x, .fault file (.circularImport x) ∉ s.journal

/-- If no circular import was reported, no way of references from the file is endless. -/
def Grounded (fs : Files) (s : Session) (path : String) : Prop :=
  Quiet s → Acc (fun g f => fs.Refers f g) path

/-- References lead from the root to the file, and from it back to it. -/
def OnCircle (fs : Files) (root path : String) : Prop :=
  ReflTransGen fs.Refers root path ∧ TransGen fs.Refers path path

/-- All files that are known are grounded. -/
def Finished (fs : Files) (s : Session) : Prop :=
  ∀ f, Path.absolute none f = f → s.exports? f ≠ none → fs.Grounded s f

/-- What a search from the root does to a session. -/
structure Searched (fs : Files) (root : String) (s s' : Session) : Prop where
  finished : fs.Finished s'
  quiet : Quiet s' → Quiet s
  sound : ∀ file x, .fault file (.circularImport x) ∈ s'.journal →
    .fault file (.circularImport x) ∈ s.journal ∨ fs.OnCircle root x

/-- The files that are being loaded lie on ways of references from the root to the file. -/
structure OnWay (fs : Files) (root : String) (active : List String) (path : String) : Prop where
  reached : ReflTransGen fs.Refers root path
  leads : ∀ a ∈ active, TransGen fs.Refers a path

theorem OnWay.enter {d : String} (h : fs.OnWay root active path) (refers : fs.Refers path d) :
    fs.OnWay root (path :: active) d where
  reached := h.reached.tail refers
  leads := List.forall_mem_cons.2 ⟨.single refers, fun a mem => (h.leads a mem).tail refers⟩

theorem OnWay.onCircle (h : fs.OnWay root active path) (mem : path ∈ active) :
    fs.OnCircle root path :=
  ⟨h.reached, h.leads path mem⟩

theorem Quiet.of_log {events : List Event} (h : Quiet (s.log events)) : Quiet s :=
  fun file x mem => h file x (List.mem_append_left events mem)

theorem Grounded.later (h : fs.Grounded s path) (quiet : Quiet s' → Quiet s) :
    fs.Grounded s' path :=
  fun silent => h (quiet silent)

theorem Finished.log (h : fs.Finished s) (events : List Event) : fs.Finished (s.log events) :=
  fun f canonical known => (h f canonical known).later .of_log

/-- A file that refers to nothing is grounded. -/
theorem grounded_of_refs (none : fs.refs path = []) (s : Session) : fs.Grounded s path := by
  intro _
  refine Acc.intro path fun d refers => ?_
  rw [Refers, none] at refers
  exact absurd refers List.not_mem_nil

/-- Something was written down, but no circular import. -/
theorem Searched.log {events : List Event} (finished : fs.Finished s)
    (other : ∀ file x, .fault file (.circularImport x) ∉ events) :
    fs.Searched root s (s.log events) where
  finished := finished.log events
  quiet := .of_log
  sound file x mem := .inl ((List.mem_append.1 mem).resolve_right (other file x))

/-- A file becomes known. -/
theorem Searched.store (h : fs.Searched root s s') (canonical : Path.absolute none path = path)
    (grounded : fs.Grounded s' path) (es : List ExportBlock) :
    fs.Searched root s (s'.store path es) where
  finished f there known := by
    by_cases same : f = path
    · rw [same]
      exact grounded
    · rw [Session.exports?_store_of_ne s' es canonical (there.symm ▸ same)] at known
      exact h.finished f there known
  quiet := h.quiet
  sound := h.sound

/-! ## What calls do to a session -/

/-- A loader that has nothing to do. -/
def still : String → SessionM Unit :=
  fun _ => pure ()

theorem quiet_upheld (file : String) : Upheld ⟨file, still⟩ (fun _ => False) Quiet where
  report h f other file' x mem := by
    rcases List.mem_append.1 mem with mem | mem
    · exact h file' x mem
    · cases List.mem_singleton.1 mem
      exact other x rfl
  inlined h name file' x mem := by
    rcases List.mem_append.1 mem with mem | mem
    · exact h file' x mem
    · cases List.mem_singleton.1 mem
  changed h _ _ _ _ := h
  free _ _ kept := kept.elim
  load h _ := h

/-- The session `s` of a pass that has come from `before` and will come to `after`, and the session
`t` of the same pass with a loader that has nothing to do and blocks that are known from the start.
What the first one reports the second one reports too, unless it was there before or comes from a
call. -/
structure Alongside (fs : Files) (root : String) (before after : Session) (asked : List String)
    (s t : Session) : Prop where
  library : t.library = after.library
  exports : ∀ f ∈ asked, s.exports f = after.exports f
  grounded : ∀ f ∈ asked, fs.Grounded s f
  finished : fs.Finished s
  quiet : Quiet s → Quiet before
  sound : ∀ file x, .fault file (.circularImport x) ∈ s.journal →
    .fault file (.circularImport x) ∈ t.journal ∨
      .fault file (.circularImport x) ∈ before.journal ∨ fs.OnCircle root x

theorem alongside_likeness (keys : (after.library.map Prod.fst).Nodup) :
    Likeness (fs.Alongside root before after) where
  mono sub h := { h with
    exports := fun f mem => h.exports f (sub mem)
    grounded := fun f mem => h.grounded f (sub mem) }
  exports h f mem := by
    rw [h.exports f mem, Session.exports, Session.exports?, h.library]
    rfl
  log h events := {
    library := h.library
    exports := h.exports
    grounded := fun f mem => (h.grounded f mem).later .of_log
    finished := h.finished.log events
    quiet := fun silent => h.quiet silent.of_log
    sound := fun file x mem => by
      rcases List.mem_append.1 mem with mem | mem
      · exact (h.sound file x mem).imp_left (List.mem_append_left events)
      · exact .inl (List.mem_append_right _ mem) }
  keys h := h.library ▸ keys

/-- The two sessions before a file is read. -/
theorem alongside_start (finished : fs.Finished s) (path styles : String) (after : Session) :
    fs.Alongside root s after [] (s.log (fs.opening path styles)) { after with journal := [] } := by
  have logged : fs.Searched root s (s.log (fs.opening path styles)) :=
    .log finished (not_circular_opening fs path styles)
  exact ⟨rfl, fun _ mem => absurd mem List.not_mem_nil, fun _ mem => absurd mem List.not_mem_nil,
    logged.finished, logged.quiet, fun file x mem => .inr (logged.sound file x mem)⟩

/-- What the pass reports comes from its calls if it reports nothing by itself. -/
theorem Alongside.searched (h : fs.Alongside root before after asked s t) (silent : Quiet t) :
    fs.Searched root before s :=
  ⟨h.finished, h.quiet, fun file x mem => (h.sound file x mem).resolve_left (silent file x)⟩

/-- A call adds what it reports itself. -/
theorem Alongside.call (h : fs.Alongside root before after asked s t)
    (searched : fs.Searched root s s') (grounded : fs.Grounded s' path)
    (grows : fs.Grows s s') (later : fs.Grows s' after)
    (stays : s'.exports? path = none → after.exports? path = none) :
    fs.Alongside root before after (path :: asked) s' t where
  library := h.library
  exports f mem := by
    cases known : s'.exports? f with
    | some es => rw [Session.exports, Session.exports, known, later.known known]
    | none =>
      rcases List.mem_cons.1 mem with rfl | mem
      · rw [Session.exports, Session.exports, known, stays known]
      · rw [← h.exports f mem, Session.exports, Session.exports, known, grows.unknown known]
  grounded := List.forall_mem_cons.2
    ⟨grounded, fun f mem => (h.grounded f mem).later searched.quiet⟩
  finished := searched.finished
  quiet silent := h.quiet (searched.quiet silent)
  sound file x mem := by
    rcases searched.sound file x mem with mem | circle
    · exact h.sound file x mem
    · exact .inr (.inr circle)

/-! ## Loading is a search -/

/-- A file that was read is known. -/
theorem known_of_read {load : String → SessionM Unit} {styles : String}
    (returns : (fs.readExports load path styles s).1 = .ok ()) :
    (fs.readExports load path styles s).2.exports? path ≠ none := by
  rw [readExports_eq] at returns ⊢
  dsimp only at returns ⊢
  split at returns
  · rw [Session.exports?_store_self]
    exact Option.some_ne_none _
  · cases returns

/-- A file that was loaded and is not known is being loaded or is not there. -/
theorem unknown_after (returns : (fs.loadInside (depth + 1) active given s).1 = .ok ())
    (unknown : (fs.loadInside (depth + 1) active given s).2.exports? given = none) :
    Path.absolute none given ∈ active ∨ fs.readText (Path.absolute none given) = .ok none := by
  have way := fs.goes depth active given s rfl
  generalize fs.loadInside (depth + 1) active given s = ran at way returns unknown
  rw [← Session.exports?_absolute] at unknown
  cases way with
  | known known =>
    have still : (s.exports? (Path.absolute none given)) = none := unknown
    rw [still] at known
    cases known
  | circular _ mem => exact .inl mem
  | missing _ _ content => exact .inr content
  | undecodable => cases returns
  | blank =>
    rw [Session.exports?_store_self] at unknown
    cases unknown
  | read => exact absurd unknown (known_of_read returns)

/-- Whatever is loaded from a file on the way, the search goes on. -/
def Searches (fs : Files) (root : String) (depth : Nat) (active : List String) : Prop :=
  ∀ given s, (fs.loading depth active).ready s → fs.Finished s →
    fs.OnWay root active (Path.absolute none given) →
    (fs.loadInside depth active given s).1 = .ok () →
    fs.Searched root s (fs.loadInside depth active given s).2 ∧
      fs.Grounded (fs.loadInside depth active given s).2 (Path.absolute none given)

/-- When a file was read, it has asked for just those it refers to. -/
theorem ReadCourse.asks {text : String} {calls : List Call} {q : Pass}
    (course : fs.ReadCourse depth active path (fs.stylesIn text) s calls q)
    (visits : fs.Visits depth active) (ready : (fs.loading depth active).ready s)
    (content : fs.readText path = .ok (some text)) (some : fs.stylesIn text ≠ "") (d : String) :
    d ∈ q.dependencies ↔ fs.Refers path d := by
  have before := (visits.lawful.log ready (fs.opening path (fs.stylesIn text))).1
  rcases reading_asks visits.lawful content some s before with
    ⟨_, _, q', course', asked⟩ | ⟨_, _, _, -, -, broken, -⟩
  · cases course.run.symm.trans course'.run
    exact asked d
  · cases course.run.symm.trans broken

/-- Each call while a file is read is a part of the search. -/
theorem Searches.echoes {text : String} {calls : List Call} {q : Pass}
    (searches : fs.Searches root depth (path :: active))
    (visits : fs.Visits depth (path :: active)) (room : fs.Capacity depth (path :: active))
    (onWay : fs.OnWay root active path)
    (course : fs.ReadCourse depth (path :: active) path (fs.stylesIn text) s calls q)
    (asks : ∀ d ∈ q.dependencies, fs.Refers path d) :
    ∀ call ∈ calls, (fs.loading depth (path :: active)).Echoes still
      (fs.Alongside root s q.session) call := by
  intro call mem asked t h
  obtain ⟨before, there, result, later⟩ := course.called call mem
  have way := onWay.enter (asks call.path there)
  rw [← call.canonical] at way
  obtain ⟨searched, grounded⟩ := searches call.path call.session before h.finished way result
  rw [call.canonical] at grounded
  have grows := (visits call.path call.session before.1 before.2).grows
  refine ⟨t, rfl, h.call searched grounded grows later fun unknown => ?_⟩
  obtain ⟨depth, rfl⟩ := room.pos
  rcases unknown_after result unknown with loading | missing
  · rw [call.canonical] at loading
    exact course.ready.2 call.path loading
  · exact course.ready.1.unknown_of_missing (lookup_of_missing missing)

/-- Reading a file is a part of the search. -/
theorem Searches.read {text : String} (searches : fs.Searches root depth (path :: active))
    (visits : fs.Visits depth (path :: active)) (room : fs.Capacity depth (path :: active))
    (canonical : Path.absolute none path = path)
    (ready : (fs.loading depth (path :: active)).ready s) (finished : fs.Finished s)
    (onWay : fs.OnWay root active path)
    (content : fs.readText path = .ok (some text)) (some : fs.stylesIn text ≠ "")
    (returns : (fs.readExports (fs.loadInside depth (path :: active)) path (fs.stylesIn text) s).1 =
      .ok ()) :
    fs.Searched root s
        (fs.readExports (fs.loadInside depth (path :: active)) path (fs.stylesIn text) s).2 ∧
      fs.Grounded
        (fs.readExports (fs.loadInside depth (path :: active)) path (fs.stylesIn text) s).2
          path := by
  rcases visits.reading path (fs.stylesIn text) ready with
    ⟨calls, q, course, -, run⟩ | ⟨_, _, _, -, -, run, -⟩
  case inr =>
    rw [run] at returns
    cases returns
  rw [run]
  have asks := ReadCourse.asks course visits ready content some
  -- the pass is gone through once more with blocks that are known from the start
  obtain ⟨t, replayed, alongside⟩ := Course.again course (alongside_likeness
    (visits.lawful.clean course.ready).keys)
    (searches.echoes visits room onWay course fun d mem => (asks d).1 mem)
    (alongside_start finished path (fs.stylesIn text) q.session)
  have silent : Quiet t := by
    have upholds := (quiet_upheld path).prepare_upholds
      ((fs.startReading path (fs.stylesIn text) s).allUses.length + 1)
      { fs.startReading path (fs.stylesIn text) s with
        session := { q.session with journal := [] } }
    rw [Upholds, replayed] at upholds
    exact upholds fun _ _ mem => absurd mem List.not_mem_nil
  have grounded : fs.Grounded q.session path := fun quiet =>
    .intro path fun d refers => alongside.grounded d ((asks d).2 refers) quiet
  have searched := alongside.searched silent
  have recorded : fs.Searched root s (q.session.record path q.dependencies) :=
    ⟨searched.finished, searched.quiet, searched.sound⟩
  exact ⟨recorded.store canonical grounded _, grounded⟩

theorem searches (fs : Files) (root : String) (room : fs.Capacity depth active)
    (canonical : ∀ a ∈ active, Path.absolute none a = a) : fs.Searches root depth active := by
  induction depth generalizing active with
  | zero =>
    obtain ⟨_, impossible⟩ := room.pos
    cases impossible
  | succ depth ih =>
    intro given s ready finished onWay returns
    have here : Path.absolute none (Path.absolute none given) = Path.absolute none given :=
      Path.absolute_absolute none given
    have way := fs.goes depth active given s rfl
    generalize fs.loadInside (depth + 1) active given s = ran at way returns ⊢
    cases way with
    | known known =>
      have known' : s.exports? (Path.absolute none given) ≠ none := by
        intro unknown
        rw [unknown] at known
        cases known
      have logged : fs.Searched root s (s.log [.known (Path.absolute none given)]) :=
        .log finished fun _ _ mem => by cases List.mem_singleton.1 mem
      exact ⟨logged, (finished _ here known').later logged.quiet⟩
    | circular _ mem =>
      have loud : ¬ Quiet (s.log [.fault (Path.absolute none given)
          (.circularImport (Path.absolute none given))]) :=
        fun quiet => quiet _ _ (List.mem_append_right _ (List.mem_singleton_self _))
      refine ⟨⟨finished.log _, .of_log, fun file x there => ?_⟩, fun quiet => absurd quiet loud⟩
      rcases List.mem_append.1 there with before | new
      · exact .inl before
      · cases List.mem_singleton.1 new
        exact .inr (onWay.onCircle mem)
    | missing _ _ content =>
      have logged : fs.Searched root s
          (s.log [.fault (Path.absolute none given) (.missingFile given)]) :=
        .log finished fun _ _ mem => by cases List.mem_singleton.1 mem
      exact ⟨logged, grounded_of_refs (refs_of_missing content) _⟩
    | undecodable => cases returns
    | blank _ _ content blank =>
      have none := refs_of_text content
      rw [if_pos blank] at none
      have same : fs.Searched root s s := ⟨finished, id, fun _ _ => .inl⟩
      exact ⟨same.store here (grounded_of_refs none s) [], grounded_of_refs none _⟩
    | read unknown new content some =>
      have canonical' : ∀ a ∈ Path.absolute none given :: active, Path.absolute none a = a :=
        List.forall_mem_cons.2 ⟨here, canonical⟩
      have there := lookup_ne_none_of_text content
      have room' := room.enter new there
      have ready' : (fs.loading depth (Path.absolute none given :: active)).ready s :=
        ready_enter ready unknown
      exact (ih room' canonical').read (fs.visits _ _ canonical') room' here ready' finished onWay
        content some returns

/-! ## The whole search -/

/-- The diagnostic says that an import is circular. -/
def IsCircularImport (d : Diagnostic) : Prop :=
  d.rule = "circular-use" ∧ "Circular import detected".toList <+: d.message.toList

/-- A circular use is reported in other words. -/
theorem not_importMessage (owner : Option String) (name : String) :
    ¬ "Circular import detected".toList <+: (Fault.circularUse owner name).message.toList := by
  intro message
  have words : (Fault.circularUse owner name).message = if owner.getD "" = "" then
      "Circular @use detected: \"" ++ name ++ "\" is already being resolved. " ++
        "Skipping to prevent infinite loop."
      else "Circular @use detected" ++ Fault.inExport (owner.getD "") ++ ": \"" ++ name ++
        "\" is already being resolved." :=
    match_blank (owner.getD "") _ _
  have use : "Circular @use detected".toList <+:
      (Fault.circularUse owner name).message.toList := by
    rw [words]
    by_cases unowned : owner.getD "" = ""
    · have start : "Circular @use detected".toList <+: "Circular @use detected: \"".toList := by
        decide
      rw [if_pos unowned]
      simp only [String.toList_append, List.append_assoc]
      exact start.trans (List.prefix_append _ _)
    · rw [if_neg unowned]
      simp only [Fault.inExport, String.toList_append, List.append_assoc]
      exact List.prefix_append _ _
  have shorter := List.prefix_of_prefix_length_le use message (by decide)
  exact absurd shorter (by decide)

/-- Only a file that is needed to load itself is reported so. -/
theorem exists_circularImport_iff {events : List Event} :
    (∃ d ∈ diagnostics events, IsCircularImport d) ↔
      ∃ file x, .fault file (.circularImport x) ∈ events := by
  constructor
  · rintro ⟨d, mem, rule, message⟩
    obtain ⟨e, there, found⟩ := List.mem_filterMap.1 mem
    cases e with
    | inlined | asked | known | loading => cases found
    | misread file report =>
      cases found
      obtain ⟨fault, line⟩ := report
      cases fault <;> simp [Block.Report.toDiagnostic, Block.Fault.rule] at rule
    | fault file φ =>
      cases found
      cases φ with
      | circularImport x => exact ⟨file, x, there⟩
      | circularUse owner name =>
        exact absurd message (not_importMessage owner name)
      | duplicateExport | importNotFound | usedNotExported | usedUndefined | missingFile =>
        simp [Fault.rule] at rule
  · rintro ⟨file, x, mem⟩
    refine ⟨_, List.mem_filterMap.2 ⟨_, mem, rfl⟩, rfl, ?_⟩
    have start : "Circular import detected".toList <+: "Circular import detected: ".toList := by
      decide
    show _ <+: ("Circular import detected: " ++ x ++ " is already being loaded.").toList
    rw [String.toList_append, String.toList_append, List.append_assoc]
    exact start.trans (List.prefix_append _ _)

/-- In an empty session a circular import is reported just when references lead from the file to a
circle of references. -/
theorem exists_fault_iff (run : fs.load path Session.empty = (.ok (), s)) :
    (∃ file x, .fault file (.circularImport x) ∈ s.journal) ↔
      ∃ f, ReflTransGen fs.Refers (Path.absolute none path) f ∧ TransGen fs.Refers f f := by
  have onWay : fs.OnWay (Path.absolute none path) [] (Path.absolute none path) :=
    ⟨.refl, fun _ mem => absurd mem List.not_mem_nil⟩
  have finished : fs.Finished Session.empty := fun _ _ known => absurd rfl known
  have returns : (fs.load path Session.empty).1 = .ok () := by rw [run]
  have search := fs.searches (Path.absolute none path) (.start fs)
    (fun _ mem => absurd mem List.not_mem_nil) path Session.empty (ready_of_orderly .empty) finished
    onWay returns
  rw [show fs.loadInside (fs.contents.length + 1) [] path Session.empty = (.ok (), s) from run]
    at search
  obtain ⟨searched, grounded⟩ := search
  constructor
  · rintro ⟨file, x, mem⟩
    exact ⟨x, (searched.sound file x mem).resolve_left List.not_mem_nil⟩
  · rintro ⟨f, reached, circle⟩
    by_contra silent
    have acc := grounded fun file x mem => silent ⟨file, x, mem⟩
    have ends {g : String} (reached : ReflTransGen fs.Refers (Path.absolute none path) g) :
        Acc (fun g f => fs.Refers f g) g := by
      induction reached with
      | refl => exact acc
      | tail _ refers ih => exact ih.inv refers
    exact not_circle_of_acc (ends reached) circle

/-- There are never more files to be read one inside the other than there are. -/
theorem loadInside_more (orderly : s.Orderly fs.contents) (run : fs.load path s = (.ok (), s'))
    (more : Nat) : fs.loadInside (fs.contents.length + 1 + more) [] path s = (.ok (), s') := by
  have room : fs.Capacity (fs.contents.length + 1 + more) [] :=
    ⟨List.nodup_nil, List.nil_subset _, by rw [List.length_nil]; omega⟩
  have ran : fs.loadInside (fs.contents.length + 1) [] path s = (.ok (), s') := run
  rw [← ran]
  refine loadInside_congr (u := s') ⟨rfl, rfl⟩ (fun _ mem => absurd mem List.not_mem_nil)
    (ready_of_orderly orderly) (.start fs) room (by rw [ran]) ?_ fun _ _ => rfl
  rw [ran]
  exact .refl s'

/-- Files that are texts can be loaded, however they refer to each other, where they name no path
that no file can have. No block that becomes known has uses, and a circular import is reported just
when references lead from the file to a circle of references. To read more files one inside the other
would make no difference. -/
theorem load_circular_iff (texts : ∀ entry ∈ fs.contents, entry.2 ≠ .undecodable) (path : String)
    (plain : ∀ q, ReflTransGen fs.Refers (Path.absolute none path) q → ¬ Path.hasNull q) :
    ∃ s, fs.load path Session.empty = (.ok (), s) ∧ Inquiry.Free (s.exports path) ∧
      (∀ entry ∈ s.library, Inquiry.Free entry.2) ∧
      (∀ more, fs.loadInside (fs.contents.length + 1 + more) [] path Session.empty = (.ok (), s)) ∧
      ((∃ d ∈ diagnostics s.journal, IsCircularImport d) ↔
        ∃ f, ReflTransGen fs.Refers (Path.absolute none path) f ∧ TransGen fs.Refers f f) := by
  have orderly : Session.empty.Orderly fs.contents := .empty
  have returns := load_returns orderly (readable_of_texts texts plain)
  obtain ⟨s, run⟩ : ∃ s, fs.load path Session.empty = (.ok (), s) := ⟨_, Prod.ext returns rfl⟩
  have visit := load_visit orderly path
  rw [run] at visit
  have clean := visit.ready.1.toClean
  refine ⟨s, run, free_exports_of_clean clean path, clean.free, loadInside_more orderly run, ?_⟩
  rw [exists_circularImport_iff]
  exact exists_fault_iff run

/-- A file that leads to two files in a circle, to an empty one and to one that is missing. -/
def intoCircle : Files where
  contents := [
    ("/a", .text "@import y from './b'\n@import e from './empty'"),
    ("/b", .text "@export y \x7b\n&:hover \x7b\n@use x from './c'\n\x7d\n\x7d"),
    ("/c", .text "@export x \x7b\n@use y from './b'\n@use n from './missing'\n\x7d"),
    ("/empty", .text "")]
  config := .standard
  styles := some

theorem load_circular_iff_intoCircle :
    (∀ entry ∈ intoCircle.contents, entry.2 ≠ .undecodable) ∧
      (∀ q, ReflTransGen intoCircle.Refers (Path.absolute none "./a") q → ¬ Path.hasNull q) ∧
      (∃ f, ReflTransGen intoCircle.Refers (Path.absolute none "./a") f ∧
        TransGen intoCircle.Refers f f) ∧
      ∃ s, intoCircle.load "./a" Session.empty = (.ok (), s) ∧ Inquiry.Free (s.exports "./a") ∧
        (∀ entry ∈ s.library, Inquiry.Free entry.2) ∧
        (∀ more, intoCircle.loadInside (5 + more) [] "./a" Session.empty = (.ok (), s)) ∧
        ((∃ d ∈ diagnostics s.journal, IsCircularImport d) ↔
          ∃ f, ReflTransGen intoCircle.Refers (Path.absolute none "./a") f ∧
            TransGen intoCircle.Refers f f) := by
  have texts : ∀ entry ∈ intoCircle.contents, entry.2 ≠ .undecodable := by decide
  have first : intoCircle.Refers (Path.absolute none "./a") "/b" := by
    show "/b" ∈ intoCircle.refs _
    decide +kernel
  have forth : intoCircle.Refers "/b" "/c" := by
    show "/c" ∈ intoCircle.refs _
    decide +kernel
  have back : intoCircle.Refers "/c" "/b" := by
    show "/b" ∈ intoCircle.refs _
    decide +kernel
  have plain : ∀ q, ReflTransGen intoCircle.Refers (Path.absolute none "./a") q →
      ¬ Path.hasNull q := by
    let paths := ["/a", "/b", "/c", "/empty", "/missing"]
    have closed : ∀ a ∈ paths, ∀ b ∈ intoCircle.refs a, b ∈ paths := by decide +kernel
    have start : Path.absolute none "./a" ∈ paths := by decide +kernel
    have among : ∀ q ∈ paths, ¬ Path.hasNull q := by decide +kernel
    exact fun q reached => among q (mem_of_refers closed start reached)
  exact ⟨texts, plain, ⟨"/b", .single first, .tail (.single forth) back⟩,
    load_circular_iff texts "./a" plain⟩

end Files

end NestedStyles
