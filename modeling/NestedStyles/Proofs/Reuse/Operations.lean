import NestedStyles.Compile
import NestedStyles.Proofs.Reuse.Loads

/-!
# What is done in a session

In a session files are loaded, resolved and compiled in any order (`Operation`). Each resolution is
a pass that loads exports and, when it comes to an end, records what it asked for; this is all that
an operation does to a session (`Operation.step`). So what is known of a file never changes
(`run_known`).
-/

namespace NestedStyles

open Reuse

/-- A file is recorded under its absolute path. -/
theorem Session.record_absolute (s : Session) (file : String) (providers : List String) :
    s.record (Path.absolute none file) providers = s.record file providers := by
  unfold Session.record
  rw [Path.absolute_absolute]

namespace Reuse

variable {L : Loading} {file : String} {sheet : Stylesheet} {s t : Session}
variable {steps : Consumer → Nat → PassM Unit}

/-! ## Resolving a file -/

/-- The steps that resolve a file with its rules. -/
def resolveAll (c : Consumer) (depth : Nat) : PassM Unit := do
  prepare c depth
  resolveRules c depth

/-- Runs a pass over a file and keeps its dependencies in mind. -/
def resolving (steps : Consumer → Nat → PassM Unit) (c : Consumer) (sheet : Stylesheet) :
    SessionM Resolution := do
  let r ← runPass sheet (steps c)
  modify (·.record c.file r.dependencies)
  return r

/-- Where no block has uses, those of the file decide how many blocks can be entered. -/
theorem allUses_start_of_clean (clean : s.Clean) (sheet : Stylesheet) :
    (Pass.start s sheet).allUses = sheet.allUses := by
  have none : (s.library.flatMap fun e => e.2.flatMap fun b => b.toBody.allUses) = [] :=
    List.flatMap_eq_nil_iff.2 fun entry mem => List.flatMap_eq_nil_iff.2 (clean.free entry mem)
  exact (congrArg (sheet.allUses ++ ·) none).trans (List.append_nil _)

/-- The course of a pass over a file. -/
def PassCourse (L : Loading) (file : String) (steps : Consumer → Nat → PassM Unit)
    (sheet : Stylesheet) (s : Session) (calls : List Call) (q : Pass) : Prop :=
  Course L file (fun c => steps c (sheet.allUses.length + 1)) (Pass.start s sheet) calls () q

/-- How the resolution of a file can go. -/
inductive Resolves (L : Loading) (file : String) (steps : Consumer → Nat → PassM Unit)
    (sheet : Stylesheet) (s : Session) : Except Undecodable Resolution × Session → Prop
  | done {calls : List Call} {q : Pass} (course : PassCourse L file steps sheet s calls q) :
    Resolves L file steps sheet s
      (.ok ⟨q.sheet, q.dependencies⟩, q.session.record file q.dependencies)
  | failed {call : Call} {e : Undecodable} {t : Session} (before : L.ready call.session)
      (fails : L.result call = .error e) (ready : L.ready t) (grows : L.grows s t) :
    Resolves L file steps sheet s (.error e, t)

/-- A resolution is a pass, and it fails only in a call that fails. -/
theorem Resolves.of_proceeds {Q : Unit → Pass → Prop} (lawful : L.Lawful) (ready : L.ready s)
    (h : Proceeds L file (fun c => steps c (sheet.allUses.length + 1)) (Pass.start s sheet) Q) :
    Resolves L file steps sheet s (resolving steps ⟨file, L.load⟩ sheet s) := by
  have uses := allUses_start_of_clean (lawful.clean ready) sheet
  rcases h ready with ⟨calls, ⟨⟩, q, course, -⟩ | ⟨call, e, q, before, fails, run, after, grows⟩
  · have pass : runPass sheet (steps ⟨file, L.load⟩) s =
        (.ok ⟨q.sheet, q.dependencies⟩, q.session) :=
      runPass_of_ok (by rw [uses]; exact course.run)
    have resolved : resolving steps ⟨file, L.load⟩ sheet s = _ := bind_of_ok pass
    rw [resolved]
    exact .done course
  · have pass : runPass sheet (steps ⟨file, L.load⟩) s = (.error e, q.session) :=
      runPass_of_error (by rw [uses]; exact run)
    have broken : resolving steps ⟨file, L.load⟩ sheet s = _ := bind_of_error pass
    rw [broken]
    exact .failed before fails after grows

theorem resolve_resolves (lawful : L.Lawful) (ready : L.ready s) (file : String)
    (sheet : Stylesheet) :
    Resolves L file resolveAll sheet s (sheet.resolve ⟨file, L.load⟩ true s) :=
  .of_proceeds lawful ready (pass_drains lawful file s (Nat.lt_succ_self _))

theorem resolveExports_resolves (lawful : L.Lawful) (ready : L.ready s) (file : String)
    (sheet : Stylesheet) :
    Resolves L file prepare sheet s (sheet.resolveExports ⟨file, L.load⟩ true s) :=
  .of_proceeds lawful ready (prepare_drains lawful file s (Nat.lt_succ_self _))

/-- Where its calls are echoed, a pass is resolved again as before. -/
theorem PassCourse.again {calls : List Call} {q : Pass}
    {alike : List String → Session → Session → Prop} {load : String → SessionM Unit}
    (course : PassCourse L file steps sheet s calls q) (likeness : Likeness alike)
    (echoes : ∀ call ∈ calls, L.Echoes load alike call) (clean : t.Clean) (same : alike [] s t) :
    ∃ t', resolving steps ⟨file, load⟩ sheet t =
        (.ok ⟨q.sheet, q.dependencies⟩, t'.record file q.dependencies) ∧
      alike q.dependencies q.session t' := by
  have uses := allUses_start_of_clean clean sheet
  obtain ⟨t', run, same'⟩ := Course.again course likeness echoes same
  have pass : runPass sheet (steps ⟨file, load⟩) t = (.ok ⟨q.sheet, q.dependencies⟩, t') :=
    runPass_of_ok (q := { q with session := t' }) (by rw [uses]; exact run)
  exact ⟨t', bind_of_ok pass, same'⟩

end Reuse

/-! ## Operations -/

/-- What is done in a session. Each time the exports of other files are loaded from `fs`. -/
inductive Operation
  /-- The exports of a file are loaded. -/
  | load (fs : Files) (path : String)
  /-- A file is resolved with its rules. -/
  | resolve (fs : Files) (file : String) (sheet : Stylesheet)
  /-- The exports of a file are resolved. -/
  | resolveExports (fs : Files) (file : String) (sheet : Stylesheet)
  /-- A component is compiled. -/
  | compile (fs : Files) (cfg : Config) (component : Component)

namespace Operation

/-- The files that exports are loaded from. -/
def files : Operation → Files
  | load fs _ | resolve fs _ _ | resolveExports fs _ _ | compile fs _ _ => fs

/-- The session after the operation. -/
def after : Operation → Session → Session
  | load fs path, s => (fs.load path s).2
  | resolve fs file sheet, s => (sheet.resolve ⟨file, fs.load⟩ true s).2
  | resolveExports fs file sheet, s => (sheet.resolveExports ⟨file, fs.load⟩ true s).2
  | compile fs cfg component, s => (component.compile cfg fs.load s).2

/-- A resolved file, if it could be resolved, and what it asked for. -/
def outcome (file : String) : Except Undecodable Resolution → Option (String × List String)
  | .ok r => some (Path.absolute none file, r.dependencies)
  | .error _ => none

/-- The file that is resolved, if it can be, and what it asks for. -/
def resolution : Operation → Session → Option (String × List String)
  | load _ _, _ => none
  | resolve fs file sheet, s => outcome file (sheet.resolve ⟨file, fs.load⟩ true s).1
  | resolveExports fs file sheet, s =>
    outcome file (sheet.resolveExports ⟨file, fs.load⟩ true s).1
  | compile fs cfg c, s =>
    let start := s.log ((c.parse cfg).reports.map (.misread c.file))
    outcome c.file ((c.parse cfg).value.resolve ⟨c.file, fs.load⟩ true start).1

/-- The session after all operations. -/
def run (ops : List Operation) (s : Session) : Session :=
  ops.foldl (fun s op => op.after s) s

/-- All operations find the same texts. -/
def Within (contents : List (String × FileContent)) (ops : List Operation) : Prop :=
  ∀ op ∈ ops, op.files.contents = contents

end Operation

namespace Files

variable {fs : Files} {s : Session} {path : String}

/-- The loader of files, in orderly sessions. -/
def loader (fs : Files) : Loading :=
  fs.loading (fs.contents.length + 1) []

theorem lawful (fs : Files) : fs.loader.Lawful :=
  (fs.visits _ [] (fun _ mem => absurd mem List.not_mem_nil)).lawful

theorem ready_of_orderly (h : s.Orderly fs.contents) : fs.loader.ready s :=
  ⟨h, fun _ mem => absurd mem List.not_mem_nil⟩

theorem load_visit (h : s.Orderly fs.contents) (path : String) :
    fs.Visit [] s (fs.load path s) :=
  fs.visits _ [] (fun _ mem => absurd mem List.not_mem_nil) path s h
    fun _ mem => absurd mem List.not_mem_nil

end Files

namespace Operation

variable {contents : List (String × FileContent)} {op : Operation} {s : Session}
variable {ops : List Operation}

/-- What an operation does to a session. -/
inductive Does (op : Operation) (contents : List (String × FileContent)) (s : Session) : Prop
  /-- Exports are loaded. -/
  | loads (none : op.resolution s = none) (grows : op.files.Grows s (op.after s))
      (orderly : (op.after s).Orderly contents)
  /-- Exports are loaded, and then it is recorded what a file asked for. -/
  | records (file : String) (asked : List String) (t : Session)
      (some : op.resolution s = some (Path.absolute none file, asked))
      (grows : op.files.Grows s t) (orderly : t.Orderly contents)
      (after : op.after s = t.record file asked)

/-- A compilation leaves the session in which its styles were resolved. -/
theorem after_compile (fs : Files) (cfg : Config) (c : Component) (s : Session) :
    let start := s.log ((c.parse cfg).reports.map (.misread c.file))
    (compile fs cfg c).after s =
      ((c.parse cfg).value.resolve ⟨c.file, fs.load⟩ true start).2 := by
  dsimp only [after, Component.compile]
  split
  · next failed => rw [failed]
  · next resolved => rw [resolved]

/-- An operation that resolves a file loads exports first, and records what the file asked for if it
comes to an end. -/
theorem Does.of_resolves {steps : Consumer → Nat → PassM Unit} {file : String}
    {sheet : Stylesheet} {start : Session} {ran : Except Undecodable Resolution × Session}
    (within : op.files.contents = contents)
    (resolves : Resolves op.files.loader file steps sheet start ran)
    (before : op.files.Grows s start) (resolution : op.resolution s = outcome file ran.1)
    (after : op.after s = ran.2) : op.Does contents s := by
  cases resolves with
  | done course =>
    exact .records file _ _ resolution (before.trans course.grows) (within ▸ course.ready.1) after
  | failed called fails ready grows =>
    have orderly : (op.after s).Orderly contents := by
      rw [after]
      exact within ▸ ready.1
    exact .loads resolution (after ▸ before.trans grows) orderly

/-- Each operation only loads exports and then at most records what one file asked for. -/
theorem step (orderly : s.Orderly contents) (within : op.files.contents = contents) :
    op.Does contents s := by
  have ready : s.Orderly op.files.contents := within ▸ orderly
  have lawful := op.files.lawful
  cases op with
  | load fs path =>
    have visit := Files.load_visit ready path
    exact .loads rfl visit.grows (within ▸ visit.ready.1)
  | resolve fs file sheet =>
    have resolves := resolve_resolves lawful (Files.ready_of_orderly ready) file sheet
    exact .of_resolves within resolves (.refl s) rfl rfl
  | resolveExports fs file sheet =>
    have resolves := resolveExports_resolves lawful (Files.ready_of_orderly ready) file sheet
    exact .of_resolves within resolves (.refl s) rfl rfl
  | compile fs cfg c =>
    have start := ready.log ((c.parse cfg).reports.map (.misread c.file))
    have resolves := resolve_resolves lawful (Files.ready_of_orderly start) c.file
      (c.parse cfg).value
    exact .of_resolves within resolves (.log s _) rfl (after_compile fs cfg c s)

theorem after_orderly (orderly : s.Orderly contents) (within : op.files.contents = contents) :
    (op.after s).Orderly contents := by
  cases step orderly within with
  | loads none grows orderly => exact orderly
  | records file asked t some grows orderly after =>
    rw [after]
    exact orderly.record file asked

/-- What is known of a file stays. -/
theorem after_known (orderly : s.Orderly contents) (within : op.files.contents = contents)
    {path : String} {es : List ExportBlock} (known : s.exports? path = some es) :
    (op.after s).exports? path = some es := by
  cases step orderly within with
  | loads none grows orderly => exact grows.known known
  | records file asked t some grows orderly after =>
    rw [after]
    exact grows.known known

theorem run_append (ops more : List Operation) (s : Session) :
    run (ops ++ more) s = run more (run ops s) :=
  List.foldl_append

/-- Sessions stay orderly in the course of all operations. -/
theorem run_orderly (orderly : s.Orderly contents) (within : Within contents ops) :
    (run ops s).Orderly contents := by
  induction ops generalizing s with
  | nil => exact orderly
  | cons op ops ih =>
    obtain ⟨here, rest⟩ := List.forall_mem_cons.1 within
    exact ih (after_orderly orderly here) rest

/-- What is known of a file never changes. -/
theorem run_known (orderly : s.Orderly contents) (within : Within contents ops) {path : String}
    {es : List ExportBlock} (known : s.exports? path = some es) :
    (run ops s).exports? path = some es := by
  induction ops generalizing s with
  | nil => exact known
  | cons op ops ih =>
    obtain ⟨here, rest⟩ := List.forall_mem_cons.1 within
    exact ih (after_orderly orderly here) rest (after_known orderly here known)

end Operation

end NestedStyles
