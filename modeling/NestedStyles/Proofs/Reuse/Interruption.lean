import NestedStyles.Proofs.Reuse.Dialogue
import NestedStyles.Proofs.Reuse.Leavings

/-!
# Loads that fail

A load fails at a file that is no text, and that file may be needed far inside of others that are
being loaded. Each of these has marked a file as being loaded, and what comes next in each is given
up on the way out, but for taking the mark away.

`Files.loadInside` is told which files are being loaded. `Files.loadMarking` keeps this in a state
instead, with the mark taken away `finally`, and a pass talks to it by its `Dialogue`. The two do
the same (`Files.loadMarking_ends`), so the marks after a load are those before it. What else is
left is told by `Files.Leaves`, and put together it is that nothing unfinished stays
(`Files.loadInside_interrupted`).
-/

namespace NestedStyles

open Reuse

/-- A session, and the files that a loader has marked because it is loading them. -/
structure Marked where
  session : Session
  marks : List String
  deriving DecidableEq, Repr

/-- A load broken off at a file that is no text, and what was marked by then. -/
structure Interruption where
  error : Undecodable
  marks : List String
  deriving DecidableEq, Repr

/-- Something a loader does that keeps its marks. -/
abbrev MarkedM := ExceptT Interruption (StateM Marked)

namespace Marked

/-- Changes the session. -/
def onSession (change : Session → Session) (t : Marked) : Marked :=
  { t with session := change t.session }

def mark (path : String) (t : Marked) : Marked :=
  { t with marks := path :: t.marks }

def unmark (path : String) (t : Marked) : Marked :=
  { t with marks := t.marks.erase path }

end Marked

/-- What comes of a dialogue with a loader that keeps marks. -/
def Reuse.Dialogue.converse {α : Type} (load : String → MarkedM Unit) :
    Dialogue α → MarkedM (α × Pass)
  | done a p => do
    modify (·.onSession fun _ => p.session)
    return (a, p)
  | ask path p next => do
    modify (·.onSession fun _ => p.session)
    load path
    (next (← get).session).converse load

namespace Files

/-- What a pass over the exports of a file says to its loader. -/
noncomputable def telling (file : String) (p : Pass) : Dialogue Unit :=
  Classical.choose (prepare_told file (p.allUses.length + 1) p)

/-- Reads the exports of a file with a loader that keeps marks. While it is read the file is marked,
and whether reading fails or not the mark is taken away. -/
noncomputable def readMarking (fs : Files) (load : String → MarkedM Unit) (path styles : String) :
    MarkedM Unit := do
  let start := fs.startReading path styles (← get).session
  modify (·.mark path)
  let ((), p) ← try (telling path start).converse load finally modify (·.unmark path)
  modify (·.onSession fun _ => (p.session.record path p.dependencies).store path p.sheet.exports)

/-- `loadInside` with a loader that keeps marks itself. -/
noncomputable def loadMarking (fs : Files) : Nat → String → MarkedM Unit
  | 0, _ => return
  | depth + 1, given => do
    let path := Path.absolute none given
    if ((← get).session.exports? path).isSome then
      modify (·.onSession (·.log [.known path]))
    else if path ∈ (← get).marks then
      modify (·.onSession (·.log [.fault path (.circularImport path)]))
    else
      match fs.readText path with
      | .error e => throw ⟨e, (← get).marks⟩
      | .ok none => modify (·.onSession (·.log [.fault path (.missingFile given)]))
      | .ok (some text) =>
        match fs.stylesIn text with
        | "" => modify (·.onSession (·.store path []))
        | styles => fs.readMarking (loadMarking fs depth) path styles

theorem telling_run (file : String) (p : Pass) (load : String → SessionM Unit) :
    prepare ⟨file, load⟩ (p.allUses.length + 1) p = (telling file p).run load :=
  Classical.choose_spec (prepare_told file (p.allUses.length + 1) p) load

end Files

/-- What is done in the end is done whether the step fails or not. -/
theorem finally_of_run {ε σ α : Type} {act : ExceptT ε (StateM σ) α} {s s' : σ}
    {result : Except ε α} (last : σ → σ) (run : act s = (result, s')) :
    (try act finally modify last : ExceptT ε (StateM σ) α) s = (result, last s') := by
  unfold tryFinally
  simp only [tryFinally', Functor.map, ExceptT.map, ExceptT.mk, bind, StateT.bind, run]
  cases result with
  | ok a => rfl
  | error e => rfl

namespace Files

variable {fs : Files} {depth : Nat} {active opened : List String} {given path styles : String}
variable {s : Session} {t u : Marked} {p : Pass} {i : Interruption}

/-! ## Step by step -/

section

variable {load : String → MarkedM Unit}

theorem converse_ask_of_ok {α : Type} {next : Session → Dialogue α}
    (run : load path { t with session := p.session } = (.ok (), u)) :
    (Dialogue.ask path p next).converse load t = (next u.session).converse load u :=
  bind_of_ok run

theorem converse_ask_of_error {α : Type} {next : Session → Dialogue α}
    (run : load path { t with session := p.session } = (.error i, u)) :
    (Dialogue.ask path p next).converse load t = (.error i, u) :=
  (bind_of_ok rfl).trans (bind_of_error run)

/-- Once the file is marked, the rest of the reading goes on from there. -/
theorem readMarking_eq :
    fs.readMarking load path styles t =
      ((try (telling path (fs.startReading path styles t.session)).converse load
        finally modify (·.unmark path)) >>= fun ((), p) => modify (·.onSession fun _ =>
          (p.session.record path p.dependencies).store path p.sheet.exports) :
        MarkedM Unit) (t.mark path) :=
  rfl

theorem readMarking_of_ok
    (run : (telling path (fs.startReading path styles t.session)).converse load (t.mark path) =
      (.ok ((), p), u)) :
    fs.readMarking load path styles t = (.ok (),
      { session := (p.session.record path p.dependencies).store path p.sheet.exports
        marks := u.marks.erase path }) :=
  readMarking_eq.trans (bind_of_ok (finally_of_run (Marked.unmark path) run))

theorem readMarking_of_error
    (run : (telling path (fs.startReading path styles t.session)).converse load (t.mark path) =
      (.error i, u)) :
    fs.readMarking load path styles t = (.error i, u.unmark path) :=
  readMarking_eq.trans (bind_of_error (finally_of_run (Marked.unmark path) run))

end

section

variable (absolute : Path.absolute none given = path)

include absolute

theorem loadMarking_known (known : (s.exports? path).isSome) :
    fs.loadMarking (depth + 1) given ⟨s, active⟩ = (.ok (), ⟨s.log [.known path], active⟩) := by
  subst absolute
  change (ite _ (_ : MarkedM Unit) _) _ = _
  rw [if_pos known]
  rfl

variable (unknown : ¬ (s.exports? path).isSome)

include unknown

theorem loadMarking_circular (mem : path ∈ active) :
    fs.loadMarking (depth + 1) given ⟨s, active⟩ =
      (.ok (), ⟨s.log [.fault path (.circularImport path)], active⟩) := by
  subst absolute
  change (ite _ (_ : MarkedM Unit) _) _ = _
  rw [if_neg unknown]
  exact congrFun (if_pos mem) _

variable (new : path ∉ active)

include new

theorem loadMarking_unknown : fs.loadMarking (depth + 1) given ⟨s, active⟩ =
    (match fs.readText path with
      | .error e => throw ⟨e, active⟩
      | .ok none => modify (·.onSession (·.log [.fault path (.missingFile given)]))
      | .ok (some text) =>
        match fs.stylesIn text with
        | "" => modify (·.onSession (·.store path []))
        | styles => fs.readMarking (fs.loadMarking depth) path styles :
      MarkedM Unit) ⟨s, active⟩ := by
  subst absolute
  change (ite _ (_ : MarkedM Unit) _) _ = _
  rw [if_neg unknown]
  refine (congrFun (if_neg new) _).trans ?_
  rcases fs.readText (Path.absolute none given) with _ | _ | _ <;> rfl

theorem loadMarking_of_text {text : String} (content : fs.readText path = .ok (some text)) :
    fs.loadMarking (depth + 1) given ⟨s, active⟩ =
      if fs.stylesIn text = "" then (.ok (), ⟨s.store path [], active⟩)
      else fs.readMarking (fs.loadMarking depth) path (fs.stylesIn text) ⟨s, active⟩ := by
  rw [loadMarking_unknown absolute unknown new, content]
  refine (congrFun (match_blank (fs.stylesIn text) _ _) _).trans ?_
  by_cases blank : fs.stylesIn text = ""
  · rw [if_pos blank, if_pos blank]
    rfl
  · rw [if_neg blank, if_neg blank]

end

/-! ## The marks -/

/-- A load was broken off. The files that were marked on the way to the one that cannot be read, the
file itself among them, are not known. -/
structure Breaks (fs : Files) (active : List String) (path : String) (i : Interruption)
    (opened : List String) (s : Session) : Prop where
  content : fs.readText i.error.path = .error i.error
  marks : i.marks = opened ++ active
  first : path ∈ i.error.path :: opened
  unknown : ∀ f ∈ i.error.path :: opened, s.exports? f = none

/-- It was broken off inside of another file. -/
theorem Breaks.outer {inner : String} (h : fs.Breaks (path :: active) inner i opened s)
    (unknown : s.exports? path = none) : fs.Breaks active path i (opened ++ [path]) s where
  content := h.content
  marks := by rw [h.marks, List.append_assoc, List.singleton_append]
  first := List.mem_cons_of_mem _ (List.mem_append_right opened (List.mem_singleton_self path))
  unknown f mem := by
    rw [← List.cons_append] at mem
    rcases List.mem_append.1 mem with mem | mem
    · exact h.unknown f mem
    · rw [List.mem_singleton.1 mem]
      exact unknown

/-- The ends of a load with a loader that is told which files are being loaded, and with one that
keeps its marks. -/
inductive Ends (fs : Files) (active : List String) (path : String) :
    Except Undecodable Unit × Session → Except Interruption Unit × Marked → Prop
  | returned (s : Session) : fs.Ends active path (.ok (), s) (.ok (), ⟨s, active⟩)
  | broken {i : Interruption} {opened : List String} {s : Session}
    (breaks : fs.Breaks active path i opened s) :
    fs.Ends active path (.error i.error, s) (.error i, ⟨s, active⟩)

section

variable {load : String → SessionM Unit} {load' : String → MarkedM Unit}

/-- A dialogue ends alike with loaders that do. -/
theorem converse_ends {α : Type} (inner : ∀ given s,
      fs.Ends active (Path.absolute none given) (load given s) (load' given ⟨s, active⟩))
    (d : Dialogue α) (s : Session) :
    (∃ a p, d.run load = (.ok a, p) ∧
      d.converse load' ⟨s, active⟩ = (.ok (a, p), ⟨p.session, active⟩)) ∨
    ∃ given i opened p, fs.Breaks active (Path.absolute none given) i opened p.session ∧
      d.run load = (.error i.error, p) ∧
      d.converse load' ⟨s, active⟩ = (.error i, ⟨p.session, active⟩) := by
  induction d generalizing s with
  | done a p => exact .inl ⟨a, p, rfl, rfl⟩
  | ask path p next ih =>
    have ends := inner path p.session
    generalize answer : load path p.session = ran, answer' : load' path ⟨p.session, active⟩ = ran'
      at ends
    rw [Dialogue.run, answer]
    cases ends with
    | returned t =>
      rw [converse_ask_of_ok answer']
      exact ih t t
    | @broken i opened t breaks =>
      exact .inr ⟨path, i, opened, { p with session := t }, breaks, rfl,
        converse_ask_of_error answer'⟩

/-- While a file is read it is marked, and the mark is taken away in the end. -/
theorem readMarking_ends (inner : ∀ given s, fs.Ends (path :: active) (Path.absolute none given)
      (load given s) (load' given ⟨s, path :: active⟩))
    (leaves : ∀ given s, Leaves (path :: active) s (load given s).2)
    (fresh : s.exports? path = none) :
    fs.Ends active path (fs.readExports load path styles s)
      (fs.readMarking load' path styles ⟨s, active⟩) := by
  have unmarked : (path :: active).erase path = active := List.erase_cons_head path active
  have passed := fs.prepare_leaves path leaves styles s
  rw [readExports_eq]
  dsimp only
  rw [telling_run] at passed ⊢
  rcases converse_ends inner (telling path (fs.startReading path styles s)) s with
    ⟨⟨⟩, p, run, run'⟩ | ⟨given, i, opened, p, breaks, run, run'⟩
  · rw [run, readMarking_of_ok (t := ⟨s, active⟩) run', unmarked]
    exact .returned _
  · rw [run] at passed ⊢
    rw [readMarking_of_error (t := ⟨s, active⟩) run', Marked.unmark, unmarked]
    exact .broken (breaks.outer (passed.unknown path List.mem_cons_self fresh))

end

/-- A loader that keeps its marks does what the one does that is told which files are being loaded.
However a load ends, the marks are in the end what they were at its start. -/
theorem loadMarking_ends (fs : Files) (depth : Nat) (active : List String)
    (canonical : ∀ a ∈ active, Path.absolute none a = a) (given : String) (s : Session) :
    fs.Ends active (Path.absolute none given) (fs.loadInside depth active given s)
      (fs.loadMarking depth given ⟨s, active⟩) := by
  induction depth generalizing active given s with
  | zero => exact .returned s
  | succ depth ih =>
    obtain ⟨path, absolute⟩ : ∃ path, Path.absolute none given = path := ⟨_, rfl⟩
    have here : Path.absolute none path = path := by
      rw [← absolute, Path.absolute_absolute]
    have way := fs.goes depth active given s absolute
    rw [absolute]
    generalize fs.loadInside (depth + 1) active given s = ran at way ⊢
    cases way with
    | known known =>
      rw [loadMarking_known absolute known]
      exact .returned _
    | circular unknown mem =>
      rw [loadMarking_circular absolute unknown mem]
      exact .returned _
    | missing unknown new content =>
      rw [loadMarking_unknown absolute unknown new, content]
      exact .returned _
    | undecodable unknown new content =>
      rw [loadMarking_unknown absolute unknown new, content]
      have fresh := Option.not_isSome_iff_eq_none.1 unknown
      have unmarked : active = [] ++ active := (List.nil_append active).symm
      obtain ⟨rfl, -⟩ := readText_eq_error_iff.1 content
      refine .broken (i := ⟨⟨path⟩, active⟩) ⟨content, unmarked, List.mem_cons_self, ?_⟩
      intro f mem
      rw [List.mem_singleton.1 mem]
      exact fresh
    | blank unknown new content none =>
      rw [loadMarking_of_text absolute unknown new content, if_pos none]
      exact .returned _
    | read unknown new content some =>
      have canonical' : ∀ a ∈ path :: active, Path.absolute none a = a :=
        List.forall_mem_cons.2 ⟨here, canonical⟩
      rw [loadMarking_of_text absolute unknown new content, if_neg some]
      exact readMarking_ends (ih _ canonical') (fs.loadInside_leaves depth _ canonical')
        (Option.not_isSome_iff_eq_none.1 unknown)

/-! ## A load that fails -/

/-- What is to say of a load that met a file that cannot be read. -/
structure Interrupted (fs : Files) (depth : Nat) (active : List String) (given : String)
    (s : Session) (e : Undecodable) (s' : Session) : Prop where
  content : fs.readText e.path = .error e
  /-- A loader with marks ends with those it had, and had marked some more when it met the file.
  Neither the file nor one that was marked has become known or been recorded. -/
  unfinished : ∃ opened,
    fs.loadMarking depth given ⟨s, active⟩ = (.error ⟨e, opened ++ active⟩, ⟨s', active⟩) ∧
      Path.absolute none given ∈ e.path :: opened ∧
      (∀ f ∈ e.path :: opened, s.exports? f = none) ∧
      ∀ f ∈ e.path :: opened ++ active, (s.exports? f = none → s'.exports? f = none) ∧
        s'.dependencies.lookup f = s.dependencies.lookup f
  /-- Blocks that were known are known, and they are the same unless there are uses in them. -/
  known : ∀ f es, s.exports? f = some es → ∃ es', s'.exports? f = some es' ∧
    es'.map ExportBlock.name = es.map ExportBlock.name ∧ (Inquiry.Free es → es' = es)
  /-- Whatever the files hold the next time, a circular import is then reported only of a file that
  is begun then, or that was being loaded already before the load that failed. -/
  next : ∀ (fs' : Files) (depth' : Nat), ∃ events,
    (fs'.loadMarking depth' given ⟨s', active⟩).2.session.journal = s'.journal ++ events ∧
      Explained active events

/-- A load that fails leaves nothing unfinished, whatever the session and wherever it fails. -/
theorem loadInside_interrupted {e : Undecodable} {s' : Session}
    (canonical : ∀ a ∈ active, Path.absolute none a = a)
    (fails : fs.loadInside depth active given s = (.error e, s')) :
    fs.Interrupted depth active given s e s' := by
  have leaves := fs.loadInside_leaves depth active canonical given s
  have ends := fs.loadMarking_ends depth active canonical given s
  rw [fails] at leaves ends
  generalize marking : fs.loadMarking depth given ⟨s, active⟩ = ran at ends
  cases ends with
  | @broken i opened _ breaks =>
    refine ⟨breaks.content, ⟨opened, ?_, breaks.first, ?_, ?_⟩, fun f es => leaves.known, ?_⟩
    · rw [marking, ← breaks.marks]
    · exact fun f mem => leaves.unknown_before (breaks.unknown f mem)
    · intro f mem
      have still : s.exports? f = none → s'.exports? f = none := by
        rw [List.mem_append] at mem
        exact mem.elim (fun mem _ => breaks.unknown f mem) (leaves.unknown f)
      exact ⟨still, leaves.not_recorded f still⟩
    · intro fs' depth'
      have again := fs'.loadInside_leaves depth' active canonical given s'
      have ends' := fs'.loadMarking_ends depth' active canonical given s'
      generalize fs'.loadInside depth' active given s' = told,
        fs'.loadMarking depth' given ⟨s', active⟩ = kept at again ends' ⊢
      cases ends' with
      | returned | broken => exact again.explained

/-- Two files one inside the other that need one that is no text. -/
def aboveBroken : Files where
  contents := [
    ("/top", .text "@import x from './p'"),
    ("/p", .text "@export x \x7b\n@use n from './f'\n@use z from './bad'\n\x7d"),
    ("/f", .text "@export n \x7b\na\n\x7d"),
    ("/bad", .undecodable)]
  config := .standard
  styles := some

/-- A session in which blocks of one file are known that has uses in them. -/
def withUses : Session where
  library := [("/q", [⟨⟨[], [], [⟨"m", none⟩], []⟩, "n"⟩])]
  dependencies := [("/top", ["/q"])]
  journal := []

theorem loadInside_interrupted_aboveBroken :
    (∀ a ∈ ["/outer"], Path.absolute none a = a) ∧
      ∃ s', aboveBroken.loadInside 5 ["/outer"] "./top" withUses = (.error ⟨"/bad"⟩, s') ∧
        aboveBroken.Interrupted 5 ["/outer"] "./top" withUses ⟨"/bad"⟩ s' := by
  have canonical : ∀ a ∈ ["/outer"], Path.absolute none a = a := by decide
  have broken : (aboveBroken.loadInside 5 ["/outer"] "./top" withUses).1 = .error ⟨"/bad"⟩ := by
    decide +kernel
  exact ⟨canonical, _, Prod.ext broken rfl, loadInside_interrupted canonical (Prod.ext broken rfl)⟩

/-- A file that uses a block with a use in it, and then one of a file that is no text. -/
def usingUses : Files where
  contents := [
    ("/p", .text ("@export m \x7b\nk\n\x7d\n@export a \x7b\n@use n from './q'\n\x7d\n" ++
      "@export b \x7b\n@use z from './bad'\n\x7d")),
    ("/bad", .undecodable)]
  config := .standard
  styles := some

/-- A use that was left in a block gives way to the content it asks for, in its place, even when the
load that does this fails. -/
theorem load_error_inlines :
    (usingUses.load "/p" withUses).1 = .error ⟨"/bad"⟩ ∧
      withUses.exports? "/q" = some [⟨⟨[], [], [⟨"m", none⟩], []⟩, "n"⟩] ∧
      (usingUses.load "/p" withUses).2.exports? "/q" = some [⟨⟨["k"], [], [], []⟩, "n"⟩] := by
  decide +kernel

end Files

end NestedStyles
