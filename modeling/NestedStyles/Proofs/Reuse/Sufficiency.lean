import NestedStyles.Proofs.Reuse.Invalidation
import NestedStyles.Proofs.Reuse.Sharing

/-!
# Recorded dependencies suffice

Whatever is looked up in the files while a component is compiled is recorded: for the component
itself, and for each file that is read on the way. Where other files agree with these on all that is
reached along the recorded dependencies, each call of the loader does the same
(`Files.loadInside_congr`), and so does the whole compilation (`Component.compile_congr`).
-/

namespace NestedStyles

open Relation

open Reuse

/-- What is recorded for `path` names `q`. -/
def Session.Names (s : Session) (path q : String) : Prop :=
  q ∈ (s.dependencies.lookup path).getD []

/-- The files are read in the same way. -/
structure Files.ReadAlike (fs fs' : Files) : Prop where
  config : fs'.config = fs.config
  styles : fs'.styles = fs.styles

namespace Files

variable {fs fs' : Files} {path given : String} {s t u : Session} {depth depth' : Nat}
variable {active : List String}

/-- So many files may still be read, one inside the other: those that are being loaded are different
files that are there. -/
structure Capacity (fs : Files) (depth : Nat) (active : List String) : Prop where
  once : active.Nodup
  files : active ⊆ fs.contents.map Prod.fst
  enough : fs.contents.length < depth + active.length

namespace Capacity

theorem start (fs : Files) : fs.Capacity (fs.contents.length + 1) [] :=
  ⟨List.nodup_nil, List.nil_subset _, Nat.lt_succ_self _⟩

theorem pos (h : fs.Capacity depth active) : ∃ less, depth = less + 1 := by
  have short := (h.once.subperm h.files).length_le
  have enough := h.enough
  rw [List.length_map] at short
  exact Nat.exists_eq_succ_of_ne_zero (by omega)

theorem enter (h : fs.Capacity (depth + 1) active) (new : path ∉ active)
    (there : fs.contents.lookup path ≠ none) : fs.Capacity depth (path :: active) := by
  obtain ⟨content, there⟩ := Option.ne_none_iff_exists'.1 there
  have key : path ∈ fs.contents.map Prod.fst := List.mem_map_of_mem (Table.mem_of_lookup there)
  refine ⟨List.nodup_cons.2 ⟨new, h.once⟩, List.cons_subset.2 ⟨key, h.files⟩, ?_⟩
  have enough := h.enough
  rw [List.length_cons]
  omega

end Capacity

/-! ## The same calls -/

theorem stylesIn_congr (alike : fs.ReadAlike fs') (text : String) :
    fs'.stylesIn text = fs.stylesIn text := by
  rw [stylesIn, stylesIn, alike.styles]

/-- The files agree on the file and on all that is recorded on the way from it. -/
def AgreeFrom (fs fs' : Files) (s : Session) (path : String) : Prop :=
  ∀ q, ReflTransGen s.Names path q → fs'.contents.lookup q = fs.contents.lookup q

/-- With a loader that does the same calls a file is read in the same way. -/
theorem readExports_of_course {load : String → SessionM Unit} {styles : String} {calls : List Call}
    {p : Pass} (visits : fs.Visits depth active) (alike : fs.ReadAlike fs')
    (ready : (fs.loading depth active).ready s)
    (course : fs.ReadCourse depth active path styles s calls p)
    (same : ∀ call ∈ calls,
      load call.path call.session = fs.loadInside depth active call.path call.session) :
    fs'.readExports load path styles s =
      (.ok (), (p.session.record path p.dependencies).store path p.sheet.exports) := by
  have echoes : ∀ call ∈ calls, (fs.loading depth active).Echoes load Same call := by
    intro call mem
    obtain ⟨before, -, result, -⟩ := course.called call mem
    exact echoes_of_eq visits.lawful before result (same call mem)
  have before := (visits.lawful.log ready (fs.opening path styles)).1
  have here : Same [] (s.log (fs.opening path styles)) (s.log (fs.opening path styles)) :=
    ⟨rfl, (visits.lawful.clean before).keys⟩
  obtain ⟨_, again, rfl, -⟩ := Course.again course likeness_same echoes here
  have ran : prepare ⟨path, load⟩ ((fs.startReading path styles s).allUses.length + 1)
      (fs.startReading path styles s) = (.ok (), p) := again
  have start : fs'.startReading path styles s = fs.startReading path styles s := by
    rw [startReading, startReading, opening, opening, alike.config]
  rw [readExports_eq, start]
  dsimp only
  rw [ran]

/-- What a file asked for when it was read stays recorded. -/
theorem names_of_grows (canonical : Path.absolute none path = path) {asked : List String}
    {es : List ExportBlock} (grows : fs.Grows ((s.record path asked).store path es) u)
    {q : String} (mem : q ∈ asked) : u.Names path q := by
  have known : ((s.record path asked).store path es).exports? path ≠ none := by
    rw [Session.exports?_store_self]
    exact Option.some_ne_none es
  have same := (grows.recorded path).resolve_right fun arrives => known arrives.unknown
  have recorded : (((s.record path asked).store path es).dependencies.lookup path).getD [] =
      asked := lookup_record canonical asked
  rwa [Session.Names, same, recorded]

/-- A file is loaded in the same way from files that agree on all that is reached from it. -/
theorem loadInside_congr (alike : fs.ReadAlike fs')
    (canonical : ∀ a ∈ active, Path.absolute none a = a) (ready : (fs.loading depth active).ready s)
    (room : fs.Capacity depth active) (room' : fs'.Capacity depth' active)
    (returns : (fs.loadInside depth active given s).1 = .ok ())
    (grows : fs.Grows (fs.loadInside depth active given s).2 u)
    (agree : fs.AgreeFrom fs' u (Path.absolute none given)) :
    fs'.loadInside depth' active given s = fs.loadInside depth active given s := by
  -- the depths need not be the same, since there may be more files or fewer
  induction depth generalizing depth' active given s with
  | zero =>
    obtain ⟨_, impossible⟩ := room.pos
    cases impossible
  | succ depth ih =>
    obtain ⟨depth', rfl⟩ := room'.pos
    have here : Path.absolute none (Path.absolute none given) = Path.absolute none given :=
      Path.absolute_absolute none given
    have content' := readText_congr (agree _ .refl)
    have way := fs.goes depth active given s rfl
    generalize fs.loadInside (depth + 1) active given s = ran at way returns grows ⊢
    cases way with
    | known known => exact loadInside_known rfl known
    | circular unknown mem => exact loadInside_circular rfl unknown mem
    | missing unknown new content =>
      exact loadInside_missing rfl unknown new (content'.trans content)
    | undecodable => cases returns
    | blank unknown new content blank =>
      rw [loadInside_of_text rfl unknown new (content'.trans content), stylesIn_congr alike,
        if_pos blank]
    | read unknown new content some =>
      rename_i text
      rw [loadInside_of_text rfl unknown new (content'.trans content), stylesIn_congr alike,
        if_neg some]
      have canonical' : ∀ a ∈ Path.absolute none given :: active, Path.absolute none a = a :=
        List.forall_mem_cons.2 ⟨here, canonical⟩
      have visits : fs.Visits depth (Path.absolute none given :: active) :=
        fs.visits _ _ canonical'
      have ready' : (fs.loading depth (Path.absolute none given :: active)).ready s :=
        ready_enter ready unknown
      have there := lookup_ne_none_of_text content
      rcases visits.reading (Path.absolute none given) (fs.stylesIn text) ready' with
        ⟨calls, p, course, free, run⟩ | ⟨call, e, t, -, -, run, -⟩
      · rw [run] at grows ⊢
        refine readExports_of_course visits alike ready' course fun call mem => ?_
        obtain ⟨before, asked, result, later⟩ := course.called call mem
        have read := ReadCourse.grows course here content some
        -- whatever is reached from there is reached from the file that is read
        have names : u.Names (Path.absolute none given) call.path := names_of_grows here grows asked
        have beyond : fs.AgreeFrom fs' u (Path.absolute none call.path) := by
          rw [call.canonical]
          exact fun q reached => agree q (.head names reached)
        exact ih canonical' before (room.enter new there)
          (room'.enter new (agree _ .refl ▸ there)) result (later.trans (read.trans grows)) beyond
      · rw [run] at returns
        cases returns

end Files

/-- What is reached from a file that was asked for is reached from the one that asked, as long as
nothing leads back to that one. -/
theorem Session.reaches_of_record {t : Session} {file path q : String} {asked : List String}
    (apart : ¬ TransGen (t.record file asked).Names (Path.absolute none file)
      (Path.absolute none file)) (mem : path ∈ asked) (reached : ReflTransGen t.Names path q) :
    TransGen (t.record file asked).Names (Path.absolute none file) q := by
  have canonical := Path.absolute_absolute none file
  rw [← record_absolute] at apart ⊢
  induction reached with
  | refl =>
    refine .single ?_
    rw [Names, Files.lookup_record canonical]
    exact mem
  | @tail r q _ names ih =>
    have other : r ≠ Path.absolute none file := by
      intro same
      rw [same] at ih
      exact apart ih
    refine ih.tail ?_
    rwa [Names, Files.lookup_record_of_ne canonical other]

namespace Component

variable {fs fs' : Files} {cfg : Config} {c : Component} {S : Session}
variable {result : Except CompileFault Compiled}

/-- Where no file that is reached leads back to the component and each can be decoded, a compilation
depends only on the files that are reached along the recorded dependencies: with files that agree on
these it gives the same, the diagnostics included. -/
theorem compile_congr (alike : fs.ReadAlike fs')
    (compiled : c.compile cfg fs.load Session.empty = (result, S))
    (returned : ∀ e, result ≠ .error (.undecodable e))
    (apart : ¬ TransGen S.Names (Path.absolute none c.file) (Path.absolute none c.file))
    (agree : ∀ q, TransGen S.Names (Path.absolute none c.file) q →
      fs'.contents.lookup q = fs.contents.lookup q) :
    c.compile cfg fs'.load Session.empty = (result, S) := by
  have orderly : Session.empty.Orderly fs.contents := .empty
  have resolves := c.resolves orderly cfg
  generalize resolved : (c.parse cfg).value.resolve ⟨c.file, fs.load⟩ true
    (c.opening cfg Session.empty) = ran at resolves
  cases resolves with
  | failed =>
    rw [compile_of_error resolved] at compiled
    cases compiled
    exact absurd rfl (returned _)
  | @done calls p course =>
    have before := compile_of_ok resolved
    rw [compiled] at before
    have session : S = p.session.record c.file p.dependencies := congrArg Prod.snd before
    have same : ∀ call ∈ calls,
        fs'.load call.path call.session = fs.load call.path call.session := by
      intro call mem
      obtain ⟨ready, asked, answer, grows⟩ := course.called call mem
      refine Files.loadInside_congr alike (fun _ mem => absurd mem List.not_mem_nil) ready
        (.start fs) (.start fs') answer grows fun q reached => agree q ?_
      rw [call.canonical] at reached
      rw [session] at apart ⊢
      exact Session.reaches_of_record apart asked reached
    have echoes : ∀ call ∈ calls, fs.loader.Echoes fs'.load Files.Same call := by
      intro call mem
      obtain ⟨ready, -, answer, -⟩ := course.called call mem
      exact Files.echoes_of_eq fs.lawful ready answer (same call mem)
    have clean : (c.opening cfg Session.empty).Clean := (orderly.log _).toClean
    obtain ⟨_, again, rfl, -⟩ := PassCourse.again course Files.likeness_same echoes clean
      ⟨rfl, clean.keys⟩
    rw [before]
    exact compile_of_ok again

/-- What is reached stays among files that contain all that is recorded for them. -/
theorem mem_of_reached {s : Session} {path q : String} {paths : List String}
    (closed : ∀ a ∈ path :: paths, ∀ b ∈ (s.dependencies.lookup a).getD [], b ∈ paths)
    (reached : TransGen s.Names path q) : q ∈ paths := by
  induction reached with
  | single names => exact closed path List.mem_cons_self _ names
  | tail _ names ih => exact closed _ (List.mem_cons_of_mem path ih) _ names

/-- A file whose base is missing. -/
def baseless : Files where
  contents := [("/p", .text "@import m from './q'\n@export n \x7b\n@use m\nb\n\x7d")]
  config := .standard
  styles := some

/-- The same with a file that nothing asks for. -/
def crowded : Files :=
  baseless.write "/z" .undecodable

/-- A component that uses the file. -/
def baselessUser : Component where
  file := "/f"
  sources := ["@import n from './p'\ndiv \x7b\n@use n\n\x7d"]
  template := .ofTrees [.node { Label.blank with tag := "div" } []]
  hasSlot := false

theorem compile_congr_crowded :
    let S := (baselessUser.compile .standard baseless.load Session.empty).2
    let F := Path.absolute none baselessUser.file
    baseless.ReadAlike crowded ∧ S.dependencies = [("/p", ["/q"]), ("/f", ["/p"])] ∧
      ¬ TransGen S.Names F F ∧
      (∀ q, TransGen S.Names F q → crowded.contents.lookup q = baseless.contents.lookup q) ∧
      baselessUser.compile .standard crowded.load Session.empty =
        baselessUser.compile .standard baseless.load Session.empty := by
  intro S F
  have alike : baseless.ReadAlike crowded := ⟨rfl, rfl⟩
  have recorded : S.dependencies = [("/p", ["/q"]), ("/f", ["/p"])] := by decide +kernel
  have file : F = "/f" := by decide +kernel
  have reaches {q : String} (reached : TransGen S.Names F q) : q ∈ ["/p", "/q"] := by
    refine mem_of_reached ?_ reached
    rw [recorded, file]
    decide
  have apart : ¬ TransGen S.Names F F := by
    intro circle
    have mem := reaches circle
    rw [file] at mem
    exact absurd mem (by decide)
  have agree : ∀ q, TransGen S.Names F q →
      crowded.contents.lookup q = baseless.contents.lookup q := by
    have each : ∀ q ∈ ["/p", "/q"],
      crowded.contents.lookup q = baseless.contents.lookup q := by decide +kernel
    exact fun q reached => each q (reaches reached)
  have ends : ((baselessUser.parse .standard).value.resolve ⟨"/f", baseless.load⟩ true
      (baselessUser.opening .standard Session.empty)).1.isOk = true := by decide +kernel
  have returned : ∀ e, (baselessUser.compile .standard baseless.load Session.empty).1 ≠
      .error (.undecodable e) := by
    generalize resolved : (baselessUser.parse .standard).value.resolve ⟨"/f", baseless.load⟩ true
      (baselessUser.opening .standard Session.empty) = ran at ends
    obtain ⟨⟨e⟩ | ⟨r⟩, s'⟩ := ran
    · cases ends
    · exact compile_ne_undecodable resolved
  exact ⟨alike, recorded, apart, agree, compile_congr alike rfl returned apart agree⟩

end Component

end NestedStyles
