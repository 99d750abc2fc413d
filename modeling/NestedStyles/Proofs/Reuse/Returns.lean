import NestedStyles.Proofs.Reuse.Accounts
import NestedStyles.Proofs.Reuse.Names
import NestedStyles.Proofs.Reuse.Operations
import NestedStyles.Proofs.Reuse.Totality

/-!
# Where no call fails

A step of a pass fails only in a call of its loader. With a loader that passes over what cannot be
loaded (`Loading.tolerant`) it comes to an end, and it is known which files it asks for then. If none
of these calls fails, the two loaders do the same, and the step succeeds (`Proceeds.returns`).

A file that is read asks for the files it refers to and for no others. So exports are loaded where
references lead only to files that can be read (`Files.loadInside_returns`), and a file is resolved
where the files that it names are such ones (`Stylesheet.resolve_returns`).
-/

namespace NestedStyles

open Relation Reuse

namespace Files

variable {s t : Session}

/-- Sessions that are the same, and know each file once. -/
def Same (_ : List String) (s t : Session) : Prop :=
  t = s ∧ (s.library.map Prod.fst).Nodup

theorem likeness_same : Likeness Same where
  mono _ h := h
  exports h _ _ := by rw [h.1]
  log h events := ⟨by rw [h.1], h.2⟩
  keys h := h.1 ▸ h.2

/-- A call that goes as before is echoed. -/
theorem echoes_of_eq {L : Loading} (lawful : L.Lawful) {load : String → SessionM Unit} {call : Call}
    (ready : L.ready call.session) (result : L.result call = .ok ())
    (same : load call.path call.session = L.load call.path call.session) :
    L.Echoes load Same call := by
  rintro asked _ ⟨rfl, -⟩
  have after : L.ready (L.after call) := (lawful.load ready call.path).1
  exact ⟨L.after call, same.trans (Prod.ext result rfl), rfl, (lawful.clean after).keys⟩

end Files

namespace Reuse

variable {α : Type} {L : Loading} {file : String} {p : Pass} {act : Consumer → PassM α}

/-- The loader that passes over what cannot be loaded. -/
def Loading.tolerant (L : Loading) : Loading :=
  { L with load := fun path s => (.ok (), (L.load path s).2) }

theorem Loading.tolerant_lawful (lawful : L.Lawful) : L.tolerant.Lawful :=
  ⟨lawful.refl, lawful.trans, lawful.log, lawful.load, lawful.clean⟩

/-- A step succeeds if no file that it asks for fails to load. -/
theorem Proceeds.returns {sources : List String}
    (h : Proceeds L.tolerant file act p fun _ q => q.dependencies ⊆ sources) (lawful : L.Lawful)
    (ready : L.ready p.session)
    (loads : ∀ path ∈ sources, Path.absolute none path = path → ∀ s, L.ready s →
      (L.load path s).1 = .ok ()) : ∃ a q, act ⟨file, L.load⟩ p = (.ok a, q) := by
  rcases h ready with ⟨calls, a, q, course, asked⟩ | ⟨_, _, _, -, fails, -⟩
  · have echoes : ∀ call ∈ calls, L.tolerant.Echoes L.load Files.Same call := by
      intro call mem
      obtain ⟨before, there, result, -⟩ := course.called call mem
      have answer := loads call.path (asked there) call.canonical call.session before
      exact Files.echoes_of_eq (Loading.tolerant_lawful lawful) before result (Prod.ext answer rfl)
    have here : Files.Same p.dependencies p.session p.session := ⟨rfl, (lawful.clean ready).keys⟩
    obtain ⟨_, again, -⟩ := course.again Files.likeness_same echoes here
    exact ⟨a, _, again⟩
  · cases fails

end Reuse

namespace Files

variable {fs : Files} {path given text : String} {s : Session} {depth : Nat} {active : List String}

/-- A file refers to another one. -/
def Refers (fs : Files) (f g : String) : Prop :=
  g ∈ fs.refs f

theorem refs_of_missing (content : fs.readText path = .ok none) : fs.refs path = [] := by
  unfold refs sheetOf
  rw [content]

theorem refs_of_text (content : fs.readText path = .ok (some text)) :
    fs.refs path = if fs.stylesIn text = "" then [] else
      (Stylesheet.parse fs.config (fs.stylesIn text)).value.sources path := by
  rw [refs, sheetOf_of_text content]
  by_cases blank : fs.stylesIn text = ""
  · rw [if_pos blank, if_pos blank]
  · rw [if_neg blank, if_neg blank]

/-- When a file is read, it asks for just those it refers to. -/
theorem reading_asks {L : Loading} (lawful : L.Lawful) (content : fs.readText path = .ok (some text))
    (some : fs.stylesIn text ≠ "") (s : Session) :
    Proceeds L path
      (fun c => prepare c ((fs.startReading path (fs.stylesIn text) s).allUses.length + 1))
      (fs.startReading path (fs.stylesIn text) s)
      fun _ q => ∀ d, d ∈ q.dependencies ↔ fs.Refers path d := by
  have enough : (Stylesheet.parse fs.config (fs.stylesIn text)).value.allUses.length <
      (fs.startReading path (fs.stylesIn text) s).allUses.length + 1 := allUses_lt_start _ _
  have notes : Notes L path fun _ => True := ⟨fun _ => id, fun _ _ _ => trivial⟩
  refine (prepare_asks lawful notes (keysApart_parse path fs.config _) _ enough).imp ?_
  intro _ q asked d
  rw [Refers, refs_of_text content, if_neg some]
  exact asked d

/-- References do not lead out of files that contain all they refer to. -/
theorem mem_of_refers {paths : List String} (closed : ∀ a ∈ paths, ∀ b ∈ fs.refs a, b ∈ paths)
    (mem : path ∈ paths) {q : String} (reached : ReflTransGen fs.Refers path q) : q ∈ paths := by
  induction reached with
  | refl => exact mem
  | tail _ refers ih => exact closed _ ih _ refers

/-- References lead from the file only to files that can be read. -/
def Readable (fs : Files) (path : String) : Prop :=
  ∀ q, ReflTransGen fs.Refers path q → ∀ e, fs.readText q ≠ .error e

/-- Among texts only paths that no file can have are in the way. -/
theorem readable_of_texts (texts : fs.AreTexts)
    (plain : ∀ q, ReflTransGen fs.Refers path q → ¬ Path.hasNull q) : fs.Readable path := by
  intro q reached e fails
  obtain ⟨rfl, -⟩ := readText_eq_error_iff.1 fails
  exact plain q reached (Fails.hasNull fails texts)

/-- A file is read if none of those it refers to fails to load. -/
theorem Visits.readExports_returns (visits : fs.Visits depth active)
    (ready : (fs.loading depth active).ready s) (content : fs.readText path = .ok (some text))
    (some : fs.stylesIn text ≠ "")
    (loads : ∀ d, fs.Refers path d → Path.absolute none d = d →
      ∀ t, (fs.loading depth active).ready t → (fs.loadInside depth active d t).1 = .ok ()) :
    (fs.readExports (fs.loadInside depth active) path (fs.stylesIn text) s).1 = .ok () := by
  have lawful := Loading.tolerant_lawful visits.lawful
  have asks := (reading_asks lawful content some s).imp (R := fun _ q =>
    q.dependencies ⊆ fs.refs path) fun _ q asked d mem => (asked d).1 mem
  obtain ⟨before, -⟩ := visits.lawful.log ready (fs.opening path (fs.stylesIn text))
  obtain ⟨⟨⟩, p, run⟩ := asks.returns visits.lawful before loads
  rw [readExports_eq]
  dsimp only
  rw [show prepare ⟨path, fs.loadInside depth active⟩ _ _ = _ from run]

/-- Exports are loaded where references lead only to files that can be read. -/
theorem loadInside_returns (canonical : ∀ a ∈ active, Path.absolute none a = a)
    (ready : (fs.loading depth active).ready s) (readable : fs.Readable (Path.absolute none given)) :
    (fs.loadInside depth active given s).1 = .ok () := by
  induction depth generalizing active given s with
  | zero => rfl
  | succ depth ih =>
    have way := fs.goes depth active given s rfl
    generalize fs.loadInside (depth + 1) active given s = ran at way ⊢
    cases way with
    | known | circular | missing | blank => rfl
    | undecodable _ _ content => exact absurd content (readable _ .refl _)
    | read unknown _ content some =>
      have canonical' : ∀ a ∈ Path.absolute none given :: active, Path.absolute none a = a :=
        List.forall_mem_cons.2 ⟨Path.absolute_absolute none given, canonical⟩
      have ready' : (fs.loading depth (Path.absolute none given :: active)).ready s :=
        ready_enter ready unknown
      refine (fs.visits _ _ canonical').readExports_returns ready' content some ?_
      intro d refers same t ready
      have further : fs.Readable (Path.absolute none d) := by
        rw [same]
        exact fun q reached => readable q (.head refers reached)
      exact ih canonical' ready further

/-- From outside no file is being loaded. -/
theorem load_returns (orderly : s.Orderly fs.contents)
    (readable : fs.Readable (Path.absolute none path)) : (fs.load path s).1 = .ok () :=
  loadInside_returns (fun _ mem => absurd mem List.not_mem_nil) (ready_of_orderly orderly) readable

end Files

/-- A file is resolved where those that it names lead only to files that can be read. -/
theorem Stylesheet.resolve_returns {fs : Files} {s : Session} (orderly : s.Orderly fs.contents)
    {file : String} {sheet : Stylesheet}
    (readable : ∀ q ∈ sheet.allSources file, fs.Readable q) :
    ∃ r s', sheet.resolve ⟨file, fs.load⟩ true s = (.ok r, s') := by
  have lawful := Loading.tolerant_lawful fs.lawful
  have asks := pass_asks lawful file s (Nat.lt_succ_self sheet.allUses.length)
  obtain ⟨⟨⟩, q, run⟩ := asks.returns fs.lawful (Files.ready_of_orderly orderly)
    fun path mem same t ready => Files.load_returns ready.1 (same.symm ▸ readable path mem)
  have uses := allUses_start_of_clean orderly.toClean sheet
  have pass : runPass sheet (resolveAll ⟨file, fs.load⟩) s =
      (.ok ⟨q.sheet, q.dependencies⟩, q.session) :=
    runPass_of_ok (by rw [uses]; exact run)
  exact ⟨_, _, bind_of_ok pass⟩

end NestedStyles
