import NestedStyles.Proofs.Reuse.Returns

/-!
# Compilations that share a session

After a file was loaded from outside it is known, or it is not there at all (`Files.load_settles`).
What is known never changes. So a component that is compiled once more finds the blocks it found
before, whatever was done in the session before, in between and afterwards, and gets the same
styles (`Operation.compile_again`).
-/

namespace NestedStyles

open Relation Reuse

namespace Files

variable {fs : Files} {s s' t u : Session} {path : String} {asked : List String}

/-- A file that is loaded from outside is known then, unless it is not there. -/
theorem load_settles (loads : fs.load path s = (.ok (), s')) :
    s'.exports? path ≠ none ∨ fs.readText (Path.absolute none path) = .ok none := by
  have stored (s : Session) (es : List ExportBlock) :
      (s.store (Path.absolute none path) es).exports? path ≠ none := by
    rw [← Session.exports?_absolute, Session.exports?_store_self]
    exact Option.some_ne_none es
  have way := fs.goes fs.contents.length [] path s rfl
  rw [show fs.loadInside (fs.contents.length + 1) [] path s = (.ok (), s') from loads] at way
  generalize ran_eq : (Except.ok (), s') = ran at way
  cases way with
  | known known =>
    cases ran_eq
    rw [Session.exports?_absolute] at known
    exact .inl (Option.isSome_iff_ne_none.1 known)
  | circular unknown mem => exact absurd mem List.not_mem_nil
  | missing unknown new content => exact .inr content
  | undecodable => cases ran_eq
  | blank =>
    cases ran_eq
    exact .inl (stored s [])
  | read =>
    rw [readExports_eq] at ran_eq
    dsimp only at ran_eq
    split at ran_eq
    · cases ran_eq
      exact .inl (stored _ _)
    · cases ran_eq

/-- The blocks of a file stay as they are from `s` on: it is known and so it is in `u`, or it is not
there. -/
def Settled (contents : List (String × FileContent)) (u s : Session) (path : String) : Prop :=
  (∃ es, s.exports? path = some es ∧ u.exports? path = some es) ∨
    contents.lookup (Path.absolute none path) = none

/-- A session with the library of `u` stands in for one before it, as far as the files that were
asked for are settled. -/
structure StandsIn (contents : List (String × FileContent)) (u : Session) (asked : List String)
    (s t : Session) : Prop where
  orderly : s.Orderly contents
  library : t.library = u.library
  settled : ∀ path ∈ asked, Settled contents u s path

variable {contents : List (String × FileContent)}

theorem exports?_of_library (same : t.library = u.library) (path : String) :
    t.exports? path = u.exports? path := by
  rw [Session.exports?, Session.exports?, same]

/-- What is settled looks the same from both sides. -/
theorem Settled.exports (h : Settled contents u s path) (orderly : s.Orderly contents)
    (orderly' : u.Orderly contents) : u.exports path = s.exports path := by
  rw [Session.exports, Session.exports]
  rcases h with ⟨es, before, after⟩ | missing
  · rw [before, after]
  · rw [orderly.unknown_of_missing missing, orderly'.unknown_of_missing missing]

theorem likeness_standsIn (orderly : u.Orderly contents) : Likeness (StandsIn contents u) where
  mono sub h := ⟨h.orderly, h.library, fun path mem => h.settled path (sub mem)⟩
  exports h path mem := by
    rw [Session.exports, exports?_of_library h.library]
    exact (h.settled path mem).exports h.orderly orderly
  log h events := ⟨h.orderly.log events, h.library, h.settled⟩
  keys h := by
    rw [h.library]
    exact orderly.keys

/-- A file is loaded again as before, once all that was known is known. -/
theorem echoes_of_grows (orderly : u.Orderly fs.contents)
    (known : ∀ {path es}, s.exports? path = some es → u.exports? path = some es) {call : Call}
    (ready : fs.loader.ready call.session) (loads : fs.loader.result call = .ok ())
    (grows : fs.Grows (fs.loader.after call) s) : fs.loader.Echoes fs.load (StandsIn fs.contents u)
      call := by
  intro asked t standsIn
  let after := (fs.load call.path call.session).2
  have run : fs.load call.path call.session = (.ok (), after) := Prod.ext loads rfl
  have visit := load_visit ready.1 call.path
  rw [run] at visit
  have orderly' : after.Orderly fs.contents := visit.ready.1
  have kept {path : String} {es : List ExportBlock} (before : after.exports? path = some es) :
      u.exports? path = some es := known (grows.known before)
  have found : (∃ es, after.exports? call.path = some es) ∨
      fs.readText (Path.absolute none call.path) = .ok none :=
    (load_settles run).imp_left Option.ne_none_iff_exists'.1
  have settled : ∀ path ∈ call.path :: asked, Settled fs.contents u after path := by
    intro path mem
    rcases List.mem_cons.1 mem with rfl | mem
    · exact found.imp (fun ⟨es, there⟩ => ⟨es, there, kept there⟩) lookup_of_missing
    · refine (standsIn.settled path mem).imp_left ?_
      rintro ⟨es, before, later⟩
      exact ⟨es, visit.grows.known before, later⟩
  have again : ∃ event, fs.load call.path t = (.ok (), t.log [event]) := by
    have same := exports?_of_library standsIn.library call.path
    rcases found with ⟨es, there⟩ | missing
    · have there' : (t.exports? call.path).isSome := by
        rw [same, kept there]
        rfl
      exact ⟨_, loadInside_known call.canonical there'⟩
    · have unknown : ¬ (t.exports? call.path).isSome := by
        rw [same, orderly.unknown_of_missing (lookup_of_missing missing)]
        exact Bool.false_ne_true
      rw [call.canonical] at missing
      exact ⟨_, loadInside_missing call.canonical unknown List.not_mem_nil missing⟩
  obtain ⟨event, again⟩ := again
  exact ⟨_, again, orderly', standsIn.library, settled⟩

end Files

/-- What a compilation gives, apart from the diagnostics. -/
def Compiled.styles (r : Compiled) : Compiled :=
  { r with diagnostics := [] }

namespace Component

variable {cfg : Config} {c : Component} {load : String → SessionM Unit} {s s' : Session}
variable {r : Resolution}

/-- The diagnostics that were there before are only passed on. -/
theorem finish_styles (cfg : Config) (c : Component) (r : Resolution)
    (earlier earlier' : List Diagnostic) :
    (c.finish cfg r earlier).map Compiled.styles =
      (c.finish cfg r earlier').map Compiled.styles := by
  unfold finish
  cases matched : Matching.ofRules c.template cfg
      (Output.extract Output.isPseudoElement
        (Output.extract Output.isSlotted r.sheet.rules).kept).kept with
  | error e =>
    simp only [matched]
    rfl
  | ok matching =>
    simp only [matched]
    rfl

/-- The session in which the styles of a component are resolved. -/
def opening (cfg : Config) (c : Component) (s : Session) : Session :=
  s.log ((c.parse cfg).reports.map (.misread c.file))

theorem compile_of_ok (resolved : (c.parse cfg).value.resolve ⟨c.file, load⟩ true
    (c.opening cfg s) = (.ok r, s')) : c.compile cfg load s =
      ((c.finish cfg r (diagnostics (s'.journal.drop s.journal.length))).mapError .unmatched,
        s') := by
  dsimp only [compile]
  rw [show s.log _ = c.opening cfg s from rfl, resolved]

/-- Where a file cannot be decoded nothing is compiled. -/
theorem compile_of_error {e : Undecodable} (broken : (c.parse cfg).value.resolve ⟨c.file, load⟩ true
    (c.opening cfg s) = (.error e, s')) :
    c.compile cfg load s = (.error (.undecodable e), s') := by
  dsimp only [compile]
  rw [show s.log _ = c.opening cfg s from rfl, broken]

/-- All files could be decoded where the styles are resolved. -/
theorem compile_ne_undecodable (resolved : (c.parse cfg).value.resolve ⟨c.file, load⟩ true
    (c.opening cfg s) = (.ok r, s')) (e : Undecodable) :
    (c.compile cfg load s).1 ≠ .error (.undecodable e) := by
  rw [compile_of_ok resolved]
  cases c.finish cfg r _ <;> rintro ⟨⟩

/-- A file that is named in the styles of the component is this one, or references lead from it to
this one. -/
def LeadsTo (cfg : Config) (c : Component) (fs : Files) (q : String) : Prop :=
  ∃ path ∈ (c.parse cfg).value.allSources c.file, ReflTransGen fs.Refers path q

/-- From texts the styles are resolved where the component leads to no path that no file can have. -/
theorem resolve_returns {fs : Files} (texts : fs.AreTexts)
    (plain : ∀ q, c.LeadsTo cfg fs q → ¬ Path.hasNull q) (orderly : s.Orderly fs.contents) :
    ∃ r s', (c.parse cfg).value.resolve ⟨c.file, fs.load⟩ true (c.opening cfg s) = (.ok r, s') :=
  Stylesheet.resolve_returns (orderly.log _) fun path mem =>
    Files.readable_of_texts texts fun q reached => plain q ⟨path, mem, reached⟩

/-- How the styles of a component are resolved with exports loaded from files. -/
theorem resolves {fs : Files} (c : Component) (orderly : s.Orderly fs.contents) (cfg : Config) :
    Resolves fs.loader c.file resolveAll (c.parse cfg).value (c.opening cfg s)
      ((c.parse cfg).value.resolve ⟨c.file, fs.load⟩ true (c.opening cfg s)) :=
  have start : (c.opening cfg s).Orderly fs.contents := orderly.log _
  resolve_resolves fs.lawful (Files.ready_of_orderly start) c.file (c.parse cfg).value

/-- From the same resolution the same styles are compiled. -/
theorem compile_styles {t t' : Session}
    (resolved : (c.parse cfg).value.resolve ⟨c.file, load⟩ true (c.opening cfg s) = (.ok r, s'))
    (resolved' : (c.parse cfg).value.resolve ⟨c.file, load⟩ true (c.opening cfg t) = (.ok r, t')) :
    (c.compile cfg load t).1.map Compiled.styles =
      (c.compile cfg load s).1.map Compiled.styles := by
  have pushed (x : Except MatchError Compiled) :
      (x.mapError CompileFault.unmatched).map Compiled.styles =
        (x.map Compiled.styles).mapError .unmatched := by
    cases x <;> rfl
  rw [compile_of_ok resolved, compile_of_ok resolved', pushed, pushed]
  exact congrArg (Except.mapError CompileFault.unmatched) (finish_styles cfg c r _ _)

end Component

namespace Operation

variable {contents : List (String × FileContent)}

/-- A component that was compiled is resolved again as it was before. -/
theorem resolve_again {fs : Files} {cfg : Config} {c : Component} {s : Session}
    {between : List Operation} (orderly : s.Orderly fs.contents)
    (within : Within fs.contents (compile fs cfg c :: between)) {r : Resolution} {s' : Session}
    (resolved : (c.parse cfg).value.resolve ⟨c.file, fs.load⟩ true (c.opening cfg s) =
      (.ok r, s')) : ∃ t', (c.parse cfg).value.resolve ⟨c.file, fs.load⟩ true
        (c.opening cfg (run (compile fs cfg c :: between) s)) = (.ok r, t') := by
  have start : (c.opening cfg s).Orderly fs.contents := orderly.log _
  have after : (compile fs cfg c).after s = s' := by
    rw [after_compile]
    exact congrArg Prod.snd resolved
  have later : s'.Orderly fs.contents := after ▸ after_orderly orderly rfl
  obtain ⟨-, rest⟩ := List.forall_mem_cons.1 within
  let u := run between s'
  have orderly' : u.Orderly fs.contents := run_orderly later rest
  have opened : (c.opening cfg u).Clean := (orderly'.log _).toClean
  have resolves := c.resolves orderly cfg
  rw [resolved] at resolves
  change ∃ t', (c.parse cfg).value.resolve ⟨c.file, fs.load⟩ true
    (c.opening cfg (run between ((compile fs cfg c).after s))) = (.ok r, t')
  rw [after]
  cases resolves with
  | @done calls q course =>
    have known {path : String} {es : List ExportBlock} (there : q.session.exports? path = some es) :
        u.exports? path = some es := run_known later rest there
    -- each file that was loaded then is known in `u`, or it is not there
    have echoes : ∀ call ∈ calls,
        fs.loader.Echoes fs.load (Files.StandsIn fs.contents u) call := by
      intro call mem
      obtain ⟨ready, -, result, grows⟩ := course.called call mem
      exact Files.echoes_of_grows orderly' known ready result grows
    have standsIn : Files.StandsIn fs.contents u [] (c.opening cfg s) (c.opening cfg u) :=
      ⟨start, rfl, fun _ mem => absurd mem List.not_mem_nil⟩
    obtain ⟨t', again, -⟩ := PassCourse.again course (Files.likeness_standsIn orderly') echoes
      opened standsIn
    exact ⟨_, again⟩

/-- Files may need each other or not: what is known of a file never changes, and a component that is
compiled more than once always gets the same styles, whatever else is done before, in between and
afterwards. That all files can be read is assured where they are texts and the component leads to no
path that no file can have. -/
theorem compile_again (contents : List (String × FileContent)) :
    (∀ ops later : List Operation, Within contents (ops ++ later) → ∀ path es,
      (run ops Session.empty).exports? path = some es →
        (run (ops ++ later) Session.empty).exports? path = some es) ∧
    ∀ (before between : List Operation) (fs : Files) (cfg : Config) (c : Component),
      Within contents (before ++ compile fs cfg c :: between) →
      let s := run before Session.empty
      let t := run (before ++ compile fs cfg c :: between) Session.empty
      ((∀ e, (c.compile cfg fs.load s).1 ≠ .error (.undecodable e)) →
        (c.compile cfg fs.load t).1.map Compiled.styles =
          (c.compile cfg fs.load s).1.map Compiled.styles) ∧
      (fs.AreTexts → (∀ q, c.LeadsTo cfg fs q → ¬ Path.hasNull q) →
        ∀ e, (c.compile cfg fs.load s).1 ≠ .error (.undecodable e)) := by
  constructor
  · intro ops later within path es known
    obtain ⟨first, rest⟩ := List.forall_mem_append.1 within
    rw [run_append]
    exact run_known (run_orderly .empty first) rest known
  · intro before between fs cfg c within s t
    obtain ⟨first, rest⟩ := List.forall_mem_append.1 within
    obtain rfl : fs.contents = contents := (List.forall_mem_cons.1 rest).1
    have orderly : s.Orderly fs.contents := run_orderly .empty first
    have course : t = run (compile fs cfg c :: between) s := run_append before _ _
    refine ⟨fun returned => ?_, fun texts plain => ?_⟩
    · rcases resolved : (c.parse cfg).value.resolve ⟨c.file, fs.load⟩ true (c.opening cfg s) with
        ⟨e | r, s'⟩
      · have broken := congrArg Prod.fst (Component.compile_of_error resolved)
        exact absurd broken (returned e)
      · obtain ⟨t', again⟩ := resolve_again orderly rest resolved
        -- only the journals differ, and they go into the diagnostics alone
        rw [course]
        exact Component.compile_styles resolved again
    · obtain ⟨r, s', resolved⟩ := Component.resolve_returns texts plain orderly
      exact Component.compile_ne_undecodable resolved

/-- Two files that import each other. -/
def circularFiles : Files where
  contents := [
    ("/a", .text "@import y from './b'\n@export x \x7b\n@use y\none\n\x7d"),
    ("/b", .text "@import x from './a'\n@export y \x7b\n@use x\ntwo\n\x7d")]
  config := .standard
  styles := some

/-- A component that uses one of them. -/
def circularUser : Component where
  file := "/f"
  sources := ["@import x from './a'\ndiv \x7b\n@use x\n\x7d"]
  template := .ofTrees [.node { Label.blank with tag := "div" } []]
  hasSlot := false

theorem compile_again_circularFiles :
    let op := compile circularFiles .standard circularUser
    let s := run [load circularFiles "/b"] Session.empty
    let t := run ([load circularFiles "/b"] ++ op :: [load circularFiles "/a"]) Session.empty
    Within circularFiles.contents ([load circularFiles "/b"] ++ op :: [load circularFiles "/a"]) ∧
      circularFiles.AreTexts ∧
      (∀ q, circularUser.LeadsTo .standard circularFiles q → ¬ Path.hasNull q) ∧
      op.resolution s = some ("/f", ["/a"]) ∧
      (circularUser.compile .standard circularFiles.load t).1.map Compiled.styles =
        (circularUser.compile .standard circularFiles.load s).1.map Compiled.styles := by
  intro op s t
  have texts : circularFiles.AreTexts := by
    unfold Files.AreTexts
    decide
  have plain : ∀ q, circularUser.LeadsTo .standard circularFiles q → ¬ Path.hasNull q := by
    rintro q ⟨path, named, reached⟩
    have sources : ∀ path ∈ (circularUser.parse .standard).value.allSources "/f",
        path ∈ ["/a", "/b"] := by decide +kernel
    have closed : ∀ a ∈ ["/a", "/b"], ∀ b ∈ circularFiles.refs a, b ∈ ["/a", "/b"] := by
      decide +kernel
    have among : ∀ q ∈ ["/a", "/b"], ¬ Path.hasNull q := by decide +kernel
    exact among q (Files.mem_of_refers closed (sources path named) reached)
  have within : Within circularFiles.contents
      ([load circularFiles "/b"] ++ op :: [load circularFiles "/a"]) := by
    intro op mem
    simp only [List.cons_append, List.nil_append, List.mem_cons, List.not_mem_nil, or_false] at mem
    rcases mem with rfl | rfl | rfl <;> rfl
  have asks : op.resolution s = some ("/f", ["/a"]) := by decide +kernel
  obtain ⟨same, returns⟩ := (compile_again circularFiles.contents).2 _ _ _ _ _ within
  exact ⟨within, texts, plain, asks, same (returns texts plain)⟩

end Operation

end NestedStyles
