import NestedStyles.Proofs.Reuse.PathMaps
import NestedStyles.Proofs.Reuse.Respelled

/-!
# How paths are spelled

Two files whose sources have the same absolute paths give the same when they are resolved, and leave
the same behind, whatever the loader (`SameOutcome`). The loader of files is no exception
(`Files.load_unbiased`).
-/

namespace NestedStyles

open Reuse

namespace Session.Alike

variable {s t : Session}

theorem record (h : s.Alike t) {file file' : String}
    (same : Path.absolute none file' = Path.absolute none file) (providers : List String) :
    (s.record file providers).Alike (t.record file' providers) := by
  refine ⟨h.library, ?_, h.clean.record file providers⟩
  simp only [Session.record, same, h.dependencies]

theorem store (h : s.Alike t) (path : String) {es : List ExportBlock} (free : Inquiry.Free es) :
    (s.store path es).Alike (t.store path es) := by
  refine ⟨?_, h.dependencies, h.clean.store path free⟩
  simp only [Session.store, h.library]

end Session.Alike

namespace Stylesheet

variable {base : String} {sheet : Stylesheet}

theorem allUses_absoluteFrom (base : String) (sheet : Stylesheet) :
    (sheet.absoluteFrom base).allUses = sheet.allUses.map (·.absoluteFrom base) :=
  sheet.allUses_mapUses _

theorem exports_absoluteFrom (free : Inquiry.Free sheet.exports) :
    (sheet.absoluteFrom base).exports = sheet.exports :=
  (List.map_congr_left fun e mem => e.mapUses_of_free _ (free e mem)).trans (List.map_id _)

theorem rules_absoluteFrom (free : StyleRule.usesIn sheet.rules = []) :
    (sheet.absoluteFrom base).rules = sheet.rules :=
  (StyleRule.mapUsesAll_eq_map _ sheet.rules).symm.trans
    (StyleRule.mapUsesAll_of_free _ sheet.rules free)

end Stylesheet

namespace Reuse

variable {base : String} {c c' : Consumer} {sheet sheet' : Stylesheet} {s t : Session}

/-- A resolved file with the absolute paths of all sources. -/
def Resolution.absoluteFrom (base : String) (r : Resolution) : Resolution :=
  ⟨r.sheet.absoluteFrom base, r.dependencies⟩

/-! ## Whole passes -/

theorem Respelled.start (alike : s.Alike t) (base : String) (sheet : Stylesheet) :
    Respelled base (Pass.start s sheet) (Pass.start t (sheet.absoluteFrom base)) :=
  ⟨alike, rfl, rfl, rfl, rfl, fun _ mem => absurd mem List.not_mem_nil⟩

theorem length_allUses_start (alike : s.Alike t) (base : String) (sheet : Stylesheet) :
    (Pass.start t (sheet.absoluteFrom base)).allUses.length =
      (Pass.start s sheet).allUses.length := by
  simp only [Pass.allUses, Pass.start, Stylesheet.allUses_absoluteFrom, alike.library,
    List.length_append, List.length_map]

/-- A pass over a file that is spelled out gives the resolved file spelled out. The files that were
asked for are known by their absolute paths. -/
theorem runPass_absoluteFrom {steps steps' : Nat → PassM Unit}
    (together : ∀ depth, Together (Respelled base) (steps depth) (steps' depth))
    (alike : s.Alike t) (sheet : Stylesheet) :
    (runPass (sheet.absoluteFrom base) steps' t).1 =
        (runPass sheet steps s).1.map (·.absoluteFrom base) ∧
      (runPass sheet steps s).2.Alike (runPass (sheet.absoluteFrom base) steps' t).2 ∧
      ∀ r, (runPass sheet steps s).1 = .ok r →
        ∀ path ∈ r.dependencies, Path.absolute none path = path := by
  have lengths := length_allUses_start alike base sheet
  obtain ⟨same, after⟩ := together ((Pass.start s sheet).allUses.length + 1) _ _
    (Respelled.start alike base sheet)
  cases run : steps ((Pass.start s sheet).allUses.length + 1) (Pass.start s sheet) with
  | mk result p =>
    cases run' : steps' ((Pass.start s sheet).allUses.length + 1)
        (Pass.start t (sheet.absoluteFrom base)) with
    | mk result' q =>
      rw [run, run'] at same after
      rw [← lengths] at run'
      obtain rfl : result' = result := same
      cases result' with
      | error e =>
        rw [runPass_of_error run, runPass_of_error run']
        exact ⟨rfl, after.session, by rintro _ ⟨⟩⟩
      | ok u =>
        rw [runPass_of_ok run, runPass_of_ok run', after.sheet, after.dependencies]
        refine ⟨rfl, after.session, ?_⟩
        rintro _ ⟨⟩
        exact after.normal

/-- The same comes of two resolutions but for how sources are spelled. -/
inductive SameOutcome (base : String) :
    Except Undecodable Resolution × Session → Except Undecodable Resolution × Session → Prop
  | done {r r' : Resolution} {s t : Session}
      (spelled : r'.absoluteFrom base = r.absoluteFrom base) (alike : s.Alike t) :
    SameOutcome base (.ok r, s) (.ok r', t)
  | failed (e : Undecodable) {s t : Session} (alike : s.Alike t) :
    SameOutcome base (.error e, s) (.error e, t)

/-- Files that are the same when they are spelled out give the same, resolved by consumers side by
side. -/
theorem runPass_same (steps : Consumer → Nat → PassM Unit)
    (together : ∀ {c c' : Consumer}, c.Beside base c' →
      ∀ depth, Together (Respelled base) (steps c depth) (steps c' depth))
    (beside : c.Beside base c') (same : sheet'.absoluteFrom base = sheet.absoluteFrom base)
    (alike : s.Alike t) :
    SameOutcome base (runPass sheet (steps c) s) (runPass sheet' (steps c') t) := by
  -- both are compared with the pass over the file that is spelled out
  obtain ⟨result, session, -⟩ := runPass_absoluteFrom (together beside) alike sheet
  obtain ⟨result', session', -⟩ := runPass_absoluteFrom (together beside.refl) (.refl alike.clean')
    sheet'
  rw [same] at result' session'
  have between := session.trans session'.symm
  have spelled := result'.symm.trans result
  generalize runPass sheet (steps c) s = ran at between spelled ⊢
  generalize runPass sheet' (steps c') t = ran' at between spelled ⊢
  obtain ⟨_ | r, s'⟩ := ran <;> obtain ⟨_ | r', t'⟩ := ran'
  case error.error =>
    obtain rfl := Except.error.inj spelled
    exact .failed _ between
  case ok.ok => exact .done (Except.ok.inj spelled) between
  all_goals cases spelled

namespace SameOutcome

variable {ran ran' : Except Undecodable Resolution × Session}

theorem session (h : SameOutcome base ran ran') : ran.2.Alike ran'.2 := by
  cases h with
  | done spelled alike => exact alike
  | failed e alike => exact alike

/-- What is seen of a resolved file is the same if it does not depend on how sources are spelled. -/
theorem map_eq {α : Type} (h : SameOutcome base ran ran') (view : Resolution → α)
    (seen : ∀ r, ran.1 = .ok r → view (r.absoluteFrom base) = view r)
    (seen' : ∀ r, ran'.1 = .ok r → view (r.absoluteFrom base) = view r) :
    ran'.1.map view = ran.1.map view := by
  cases h with
  | failed e alike => rfl
  | @done r r' _ _ spelled alike =>
    have same : view r' = view r := by rw [← seen r rfl, ← seen' r' rfl, spelled]
    exact congrArg Except.ok same

end SameOutcome

/-! ## Resolving a file -/

/-- What comes of a pass once its dependencies are kept in mind. -/
def keeping (c : Consumer) (keep : Bool) :
    Except Undecodable Resolution × Session → Except Undecodable Resolution × Session
  | (.ok r, s) => (.ok r, if keep then s.record c.file r.dependencies else s)
  | (.error e, s) => (.error e, s)

theorem keeping_runPass {steps : Nat → PassM Unit} (c : Consumer) (keep : Bool)
    (sheet : Stylesheet) (s : Session) :
    (do
      let r ← runPass sheet steps
      if keep then modify (·.record c.file r.dependencies)
      return r : SessionM Resolution) s = keeping c keep (runPass sheet steps s) := by
  cases run : runPass sheet steps s with
  | mk result s' =>
    cases result with
    | error e => exact bind_of_error run
    | ok r =>
      refine (bind_of_ok run).trans ?_
      cases keep <;> rfl

theorem fst_keeping (c : Consumer) (keep : Bool)
    (ran : Except Undecodable Resolution × Session) : (keeping c keep ran).1 = ran.1 := by
  obtain ⟨_ | r, s⟩ := ran <;> rfl

theorem SameOutcome.keeping {ran ran' : Except Undecodable Resolution × Session}
    (h : SameOutcome base ran ran') (same : Path.absolute none c'.file = Path.absolute none c.file)
    (keep : Bool) : SameOutcome base (keeping c keep ran) (keeping c' keep ran') := by
  cases h with
  | failed e alike => exact .failed e alike
  | @done r r' s t spelled alike =>
    refine .done spelled ?_
    have asked : r'.dependencies = r.dependencies := (Resolution.mk.inj spelled).2
    cases keep with
    | false => exact alike
    | true =>
      change (s.record c.file r.dependencies).Alike (t.record c'.file r'.dependencies)
      rw [asked]
      exact alike.record same r.dependencies

/-- What holds at the end of a pass that comes to an end. -/
theorem Proceeds.of_runPass (steps : Consumer → Nat → PassM Unit) {Q : Pass → Prop}
    {r : Resolution} (clean : s.Clean)
    (h : Proceeds (Loading.supply c) c.file
      (fun c => steps c ((Pass.start s sheet).allUses.length + 1)) (Pass.start s sheet)
      fun _ q => Q q) (ran : (runPass sheet (steps c) s).1 = .ok r) :
    ∃ q, Q q ∧ q.sheet = r.sheet := by
  rcases h clean with ⟨calls, ⟨⟩, q, course, holds⟩ | ⟨call, e, q, -, -, broken, -⟩
  · have run : runPass sheet (steps c) s = _ := runPass_of_ok course.run
    rw [run] at ran
    cases ran
    exact ⟨q, holds, rfl⟩
  · have run : runPass sheet (steps c) s = _ := runPass_of_error broken
    rw [run] at ran
    cases ran

theorem Unbiased.lawful (unbiased : Unbiased c.load) : (Loading.supply c).Lawful :=
  Loading.supply_lawful fun path _ clean => (unbiased path _ _ (.refl clean)).2.clean

end Reuse

namespace Stylesheet

variable {base : String} {c c' : Consumer} {sheet sheet' : Stylesheet} {s t : Session}
variable {keep : Bool} {r : Resolution}

theorem resolve_keeping (c : Consumer) (keep : Bool) (sheet : Stylesheet) (s : Session) :
    sheet.resolve c keep s = keeping c keep (runPass sheet (resolveAll c) s) :=
  keeping_runPass c keep sheet s

theorem resolveExports_keeping (c : Consumer) (keep : Bool) (sheet : Stylesheet) (s : Session) :
    sheet.resolveExports c keep s = keeping c keep (runPass sheet (prepare c) s) :=
  keeping_runPass c keep sheet s

section

variable (beside : c.Beside base c') (same : sheet'.absoluteFrom base = sheet.absoluteFrom base)
variable (alike : s.Alike t) (keep : Bool)

include beside same alike

theorem resolve_same :
    SameOutcome base (sheet.resolve c keep s) (sheet'.resolve c' keep t) := by
  rw [resolve_keeping, resolve_keeping]
  exact (runPass_same resolveAll together_resolveAll beside same alike).keeping beside.file keep

theorem resolveExports_same :
    SameOutcome base (sheet.resolveExports c keep s) (sheet'.resolveExports c' keep t) := by
  rw [resolveExports_keeping, resolveExports_keeping]
  exact (runPass_same prepare together_prepare beside same alike).keeping beside.file keep

end

section

variable (unbiased : Unbiased c.load) (clean : s.Clean)

include unbiased clean

theorem resolve_free (ran : (sheet.resolve c keep s).1 = .ok r) : r.sheet.allUses = [] := by
  rw [resolve_keeping, fst_keeping] at ran
  have drains := pass_drains unbiased.lawful c.file s (allUses_lt_start s sheet)
  obtain ⟨q, ⟨-, free⟩, same⟩ := Proceeds.of_runPass resolveAll clean drains ran
  rw [← same, free]

theorem resolveExports_free (ran : (sheet.resolveExports c keep s).1 = .ok r) :
    Inquiry.Free r.sheet.exports := by
  rw [resolveExports_keeping, fst_keeping] at ran
  have drains := prepare_drains unbiased.lawful c.file s (allUses_lt_start s sheet)
  obtain ⟨q, ⟨-, free⟩, same⟩ := Proceeds.of_runPass prepare clean drains ran
  rw [← same]
  exact free

end

section

variable (beside : c.Beside base c') (same : sheet'.absoluteFrom base = sheet.absoluteFrom base)
variable (alike : s.Alike t) (keep : Bool)

include beside same alike

/-- The rules, the exports and the dependencies are the same, since no uses are left in them. -/
theorem map_resolve :
    (sheet'.resolve c' keep t).1.map (fun r => (r.sheet.rules, r.sheet.exports, r.dependencies)) =
      (sheet.resolve c keep s).1.map
        fun r => (r.sheet.rules, r.sheet.exports, r.dependencies) := by
  have seen (r : Resolution) (free : r.sheet.allUses = []) :
      ((r.absoluteFrom base).sheet.rules, (r.absoluteFrom base).sheet.exports, r.dependencies) =
        (r.sheet.rules, r.sheet.exports, r.dependencies) := by
    obtain ⟨exports, rules⟩ := List.append_eq_nil_iff.1 free
    rw [Resolution.absoluteFrom, rules_absoluteFrom rules,
      exports_absoluteFrom (List.flatMap_eq_nil_iff.1 exports)]
  refine (resolve_same beside same alike keep).map_eq _ (fun r ran => ?_) fun r ran => ?_
  · exact seen r (resolve_free beside.unbiased alike.clean ran)
  · exact seen r (resolve_free beside.refl.unbiased alike.clean' ran)

/-- Where only the exports are resolved they are the same, and so are the dependencies. -/
theorem map_resolveExports :
    (sheet'.resolveExports c' keep t).1.map (fun r => (r.sheet.exports, r.dependencies)) =
      (sheet.resolveExports c keep s).1.map fun r => (r.sheet.exports, r.dependencies) := by
  have seen (r : Resolution) (free : Inquiry.Free r.sheet.exports) :
      ((r.absoluteFrom base).sheet.exports, r.dependencies) = (r.sheet.exports, r.dependencies) := by
    rw [Resolution.absoluteFrom, exports_absoluteFrom free]
  refine (resolveExports_same beside same alike keep).map_eq _ (fun r ran => ?_) fun r ran => ?_
  · exact seen r (resolveExports_free beside.unbiased alike.clean ran)
  · exact seen r (resolveExports_free beside.refl.unbiased alike.clean' ran)

end

/-- All files that are asked for are known by their absolute paths. -/
theorem dependencies_normal (beside : c.Beside base c') (clean : s.Clean)
    (ran : (sheet.resolve c keep s).1 = .ok r) :
    ∀ path ∈ r.dependencies, Path.absolute none path = path := by
  rw [resolve_keeping, fst_keeping] at ran
  exact (runPass_absoluteFrom (together_resolveAll beside) (.refl clean) sheet).2.2 r ran

end Stylesheet

/-! ## The loader of files -/

namespace Files

variable {fs : Files}

/-- The exports of a file, resolved when it is read. -/
def readResolution (fs : Files) (load : String → SessionM Unit) (path styles : String) (s : Session) :
    Except Undecodable Resolution × Session :=
  (Stylesheet.parse fs.config styles).value.resolveExports ⟨path, load⟩ true
    (s.log (fs.opening path styles))

section

variable {load : String → SessionM Unit} {path styles : String} {s s' : Session}

theorem readExports_of_error {e : Undecodable}
    (run : fs.readResolution load path styles s = (.error e, s')) :
    fs.readExports load path styles s = (.error e, s') :=
  (bind_of_ok rfl).trans (bind_of_error run)

theorem readExports_of_ok {r : Resolution}
    (run : fs.readResolution load path styles s = (.ok r, s')) :
    fs.readExports load path styles s = (.ok (), s'.store path r.sheet.exports) :=
  (bind_of_ok rfl).trans (bind_of_ok run)

end

/-- Reading the exports of a file does the same in sessions that differ in what happened. -/
theorem readExports_together {load : String → SessionM Unit} (unbiased : Unbiased load)
    (path styles : String) : Together Session.Alike (fs.readExports load path styles)
      (fs.readExports load path styles) := by
  intro s t alike
  have start := alike.log (fs.opening path styles) (fs.opening path styles)
  have beside : Consumer.Beside (Path.directory (Path.absolute none path)) ⟨path, load⟩
      ⟨path, load⟩ := ⟨rfl, rfl, rfl, unbiased⟩
  have outcome : SameOutcome _ (fs.readResolution load path styles s)
      (fs.readResolution load path styles t) :=
    Stylesheet.resolveExports_same beside rfl start true
  have exports : (fs.readResolution load path styles t).1.map _ =
      (fs.readResolution load path styles s).1.map _ :=
    Stylesheet.map_resolveExports beside rfl start true
  have free (r : Resolution) (ran : (fs.readResolution load path styles s).1 = .ok r) :
      Inquiry.Free r.sheet.exports :=
    Stylesheet.resolveExports_free beside.unbiased start.clean ran
  generalize run : fs.readResolution load path styles s = ran at outcome exports free
  generalize run' : fs.readResolution load path styles t = ran' at outcome exports
  cases outcome with
  | failed e between =>
    rw [readExports_of_error run, readExports_of_error run']
    exact ⟨rfl, between⟩
  | @done r r' _ _ spelled between =>
    have same : r'.sheet.exports = r.sheet.exports :=
      congrArg Prod.fst (Except.ok.inj exports)
    rw [readExports_of_ok run, readExports_of_ok run', same]
    exact ⟨rfl, between.store path (free r rfl)⟩

theorem loadInside_unbiased (fs : Files) (depth : Nat) (active : List String) :
    Unbiased (fs.loadInside depth active) := by
  induction depth generalizing active with
  | zero => exact fun _ => .pure ()
  | succ depth ih =>
    intro given
    refine .get_bind fun s t alike => ?_
    rw [alike.exports?]
    refine .ite Iff.rfl (together_log _ _) (.ite Iff.rfl (together_log _ _) ?_)
    cases fs.readText (Path.absolute none given) with
    | error e => exact fun _ _ alike => ⟨rfl, alike⟩
    | ok text? =>
      cases text? with
      | none => exact together_log _ _
      | some text =>
        dsimp only
        split
        · refine .modify fun _ _ alike => alike.store _ fun _ mem => ?_
          exact absurd mem List.not_mem_nil
        · exact readExports_together (ih _) _ _

theorem load_unbiased (fs : Files) : Unbiased fs.load :=
  fs.loadInside_unbiased _ []

end Files

/-! ## Spellings -/

/-- The same comes of two files, their uses are watched under the same keys, and what is kept in the
session afterwards is the same. -/
structure Stylesheet.SameResolution (c c' : Consumer) (sheet sheet' : Stylesheet) (keep : Bool)
    (s t : Session) : Prop where
  resolved : (sheet'.resolve c' keep t).1.map
      (fun r => (r.sheet.rules, r.sheet.exports, r.dependencies)) =
    (sheet.resolve c keep s).1.map fun r => (r.sheet.rules, r.sheet.exports, r.dependencies)
  kept : (sheet.resolve c keep s).2.Alike (sheet'.resolve c' keep t).2
  exports : (sheet'.resolveExports c' keep t).1.map (fun r => (r.sheet.exports, r.dependencies)) =
    (sheet.resolveExports c keep s).1.map fun r => (r.sheet.exports, r.dependencies)
  keptExports : (sheet.resolveExports c keep s).2.Alike (sheet'.resolveExports c' keep t).2
  keys : sheet'.allUses.map c'.keyOf = sheet.allUses.map c.keyOf
  normal : ∀ r, (sheet.resolve c keep s).1 = .ok r →
    ∀ path ∈ r.dependencies, Path.absolute none path = path

theorem Stylesheet.keys_absoluteFrom {base : String} {c c' : Consumer}
    (beside : c.Beside base c') (sheet : Stylesheet) :
    (sheet.absoluteFrom base).allUses.map c'.keyOf = sheet.allUses.map c.keyOf := by
  rw [allUses_absoluteFrom, List.map_map]
  exact List.map_congr_left fun u _ => beside.keyOf u

theorem Stylesheet.sameResolution {base : String} {c c' : Consumer} {sheet sheet' : Stylesheet}
    {s t : Session} (beside : c.Beside base c')
    (same : sheet'.absoluteFrom base = sheet.absoluteFrom base) (alike : s.Alike t) (keep : Bool) :
    sheet.SameResolution c c' sheet' keep s t where
  resolved := map_resolve beside same alike keep
  kept := (resolve_same beside same alike keep).session
  exports := map_resolveExports beside same alike keep
  keptExports := (resolveExports_same beside same alike keep).session
  keys := by rw [← keys_absoluteFrom beside sheet, ← keys_absoluteFrom beside.refl sheet', same]
  normal _ ran := dependencies_normal beside alike.clean ran

/-- The spelling of a path does not matter: to make a path absolute once more changes nothing, and
the directory that a path is seen from may be spelled in any way; files that are the same when their
sources are spelled out give the same and leave the same behind, whatever the loader, of which that
of files is one; and a session takes a key in any spelling. So whatever was done before it answers
as maps over absolute paths do, but for one thing: the files that blocks were taken from are kept as
they were spelled, and one that is spelled otherwise is not found among them. -/
theorem spelling_immaterial {base : String} {c c' : Consumer} {sheet sheet' : Stylesheet}
    {s t : Session} (beside : c.Beside base c')
    (same : sheet'.absoluteFrom base = sheet.absoluteFrom base) (alike : s.Alike t) (keep : Bool)
    (before : List (Access String)) (a : Access String) :
    (∀ (b b' : Option String) (p : String),
        Path.absolute b (Path.absolute b' p) = Path.absolute b' p) ∧
      (∀ b p : String,
        Path.absolute (some (Path.absolute none b)) p = Path.absolute (some b) p) ∧
      sheet.SameResolution c c' sheet' keep s t ∧
      (∀ fs : Files, Unbiased fs.load) ∧
      (∀ u : Session, u.access (a.mapKeys (Path.absolute none)) = u.access a) ∧
      (a.AgreesAfter before ↔ ∀ file, a = .dependents file → ∀ key,
        Path.absolute none file ∈ (Access.lastRecord before key).map (Path.absolute none) →
          Path.absolute none file ∈ Access.lastRecord before key) :=
  ⟨Path.absolute_from, Path.absolute_of_base, Stylesheet.sameResolution beside same alike keep,
    Files.load_unbiased, fun u => u.access_mapKeys a, Access.agreesAfter_iff before a⟩

/-- A directory with one file. -/
def neighbour : Files where
  contents := [("/b/p", .text "@export n \x7b\nm\n\x7d")]
  config := ⟨[], [], [], "component"⟩
  styles := some

/-- A file in this directory that names the other one from there. -/
def spelledShort : Stylesheet where
  rules := [⟨".a", [], [], [⟨"n", none⟩, ⟨"n", some "p"⟩], []⟩]
  exports := []
  imports := [⟨["n"], "./p"⟩]

/-- The same file with other spellings. -/
def spelledLong : Stylesheet where
  rules := [⟨".a", [], [], [⟨"n", none⟩, ⟨"n", some "../b//p"⟩], []⟩]
  exports := []
  imports := [⟨["n"], "/../b/./p"⟩]

/-- The directory and the file itself are spelled in two ways, too. In the session a file is asked
for that was recorded with a relative path. -/
theorem spelling_immaterial_neighbour :
    Consumer.Beside "b" ⟨"/b/f", neighbour.load⟩ ⟨"b/./f", neighbour.load⟩ ∧
      spelledLong.absoluteFrom "b" = spelledShort.absoluteFrom "b" ∧
      Session.empty.Alike Session.empty ∧
      spelledShort.SameResolution ⟨"/b/f", neighbour.load⟩ ⟨"b/./f", neighbour.load⟩ spelledLong
        true .empty .empty ∧
      ¬ (Access.dependents "b").AgreesAfter [.record "/a" ["b"]] := by
  have beside : Consumer.Beside "b" ⟨"/b/f", neighbour.load⟩ ⟨"b/./f", neighbour.load⟩ :=
    ⟨by decide +kernel, by decide +kernel, rfl, neighbour.load_unbiased⟩
  have same : spelledLong.absoluteFrom "b" = spelledShort.absoluteFrom "b" := by decide +kernel
  have alike : Session.empty.Alike Session.empty :=
    .refl (Session.Orderly.empty : Session.empty.Orderly []).toClean
  obtain ⟨-, -, resolution, -, -, agrees⟩ := spelling_immaterial beside same alike true
    [.record "/a" ["b"]] (.dependents "b")
  refine ⟨beside, same, alike, resolution, fun answered => ?_⟩
  have found := agrees.1 answered "b" rfl (.of "/a")
  exact absurd (found (by decide +kernel)) (by decide +kernel)

end NestedStyles
