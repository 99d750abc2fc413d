import NestedStyles.Proofs.Reuse.Steps
import NestedStyles.Reuse.Loader

/-!
# Steps that fail only for a reason

A step of a session or of a pass fails only if its loader does, in every session and whatever names
stand for and blocks use (`Stylesheet.resolve_failsOnly`). The loader of files fails only at one
that cannot be read (`Files.load_failsOnly`). Among files that are all texts that is a path with
U+0000 in it.
-/

namespace NestedStyles

namespace Reuse

/-- The step fails only with faults of which `P` holds. -/
def FailsOnly {σ ε α : Type} (P : ε → Prop) (act : ExceptT ε (StateM σ) α) : Prop :=
  ∀ s e s', act s = (.error e, s') → P e

namespace FailsOnly

variable {σ ε α β : Type} {P : ε → Prop} {act : ExceptT ε (StateM σ) α}

theorem pure (a : α) : FailsOnly P (Pure.pure a : ExceptT ε (StateM σ) α) := by
  rintro s e s' ⟨⟩

theorem modify (change : σ → σ) : FailsOnly P (MonadState.modifyGet fun s => ((), change s) :
    ExceptT ε (StateM σ) Unit) := by
  rintro s e s' ⟨⟩

theorem get : FailsOnly P (MonadState.get : ExceptT ε (StateM σ) σ) := by
  rintro s e s' ⟨⟩

theorem throw {e : ε} (h : P e) : FailsOnly P (MonadExcept.throw e : ExceptT ε (StateM σ) α) := by
  rintro s _ s' ⟨⟩
  exact h

theorem bind {next : α → ExceptT ε (StateM σ) β} (h : FailsOnly P act)
    (step : ∀ a, FailsOnly P (next a)) : FailsOnly P (act >>= next) := by
  intro s e s' fails
  rcases run : act s with ⟨e' | a, t⟩
  · obtain ⟨⟩ := (bind_of_error run).symm.trans fails
    exact h s _ _ run
  · exact step a t e s' ((bind_of_ok run).symm.trans fails)

theorem forM {γ : Type} {step : γ → ExceptT ε (StateM σ) Unit} (l : List γ)
    (h : ∀ x ∈ l, FailsOnly P (step x)) : FailsOnly P (l.forM step) := by
  induction l with
  | nil => exact pure ()
  | cons x l ih =>
    have rest := ih fun y hy => h y (List.mem_cons_of_mem x hy)
    exact (h x List.mem_cons_self).bind fun _ => rest

/-- A step of the session as a step of the pass. -/
theorem inSession {P : Undecodable → Prop} {act : SessionM α} (h : FailsOnly P act) :
    FailsOnly P (inSession act) := by
  intro p e p' fails
  rcases run : act p.session with ⟨e' | a, s⟩
  · obtain ⟨⟩ := (inSession_of_run run).symm.trans fails
    exact h _ _ _ run
  · cases (inSession_of_run run).symm.trans fails

end FailsOnly

/-! ## Steps of a pass -/

section

variable {P : Undecodable → Prop} {c : Consumer} (load : ∀ path, FailsOnly P (c.load path))

include load

theorem failsOnly_exportsOf (path : String) : FailsOnly P (exportsOf c path) :=
  (FailsOnly.modify _).bind fun _ => (load path).inSession.bind fun _ =>
    FailsOnly.get.bind fun _ => .pure _

theorem failsOnly_applyImport (imp : ImportDirective) : FailsOnly P (applyImport c imp) := by
  refine (failsOnly_exportsOf load _).bind fun es => .forM _ fun name _ => ?_
  split
  · exact .modify _
  · exact .modify _

theorem failsOnly_lookup (owner : Option String) (u : UseDirective) :
    FailsOnly P (lookup c owner u) := by
  unfold lookup
  split
  · refine FailsOnly.get.bind fun p => ?_
    split
    · exact .pure _
    · exact (FailsOnly.modify _).bind fun _ => .pure _
  · refine (failsOnly_exportsOf load _).bind fun es => ?_
    split
    · exact .pure _
    · exact (FailsOnly.modify _).bind fun _ => .pure _

omit load in
theorem failsOnly_copyBlock (place : Place) (target : BlockRef) :
    FailsOnly P (copyBlock place target) :=
  FailsOnly.get.bind fun _ => (FailsOnly.modify _).bind fun _ => .forM _ fun _ _ => .modify _

theorem failsOnly_inlineUse {enter : List String → BlockRef → PassM Unit}
    (entered : ∀ active block, FailsOnly P (enter active block)) (active : List String)
    (owner : Option String) (place : Place) (u : UseDirective) :
    FailsOnly P (inlineUse c enter active owner place u) := by
  unfold inlineUse
  dsimp only
  split
  · exact .modify _
  · refine (failsOnly_lookup load owner u).bind fun found => ?_
    split
    · exact .pure _
    · next target =>
      have copied : FailsOnly P (do
          copyBlock place target
          inSession (modify (·.log [.inlined c.file u.name])) : PassM Unit) :=
        (failsOnly_copyBlock place target).bind fun _ => (FailsOnly.modify _).inSession
      refine FailsOnly.get.bind fun p => ?_
      split
      · refine (entered _ _).bind fun _ => (FailsOnly.modify _).bind fun _ => copied
      · exact copied

theorem failsOnly_resolveBlock (depth : Nat) (active : List String) (block : BlockRef) :
    FailsOnly P (resolveBlock c depth active block) := by
  induction depth generalizing active block with
  | zero => exact .pure _
  | succ depth ih =>
    refine FailsOnly.get.bind fun p => .forM _ fun path _ => FailsOnly.get.bind fun q => ?_
    have uses := FailsOnly.forM (q.content ⟨block, path⟩).uses fun u _ =>
      failsOnly_inlineUse load ih active (p.nameOf block) ⟨block, path⟩ u
    exact uses.bind fun _ => .modify _

theorem failsOnly_resolveExport (depth : Nat) (block : BlockRef) :
    FailsOnly P (resolveExport c depth block) := by
  refine FailsOnly.get.bind fun p => ?_
  split
  · exact (failsOnly_resolveBlock load depth _ block).bind fun _ => .modify _
  · exact .pure _

theorem failsOnly_prepare (depth : Nat) : FailsOnly P (prepare c depth) := by
  have registered : FailsOnly P (registerExports c) := by
    refine FailsOnly.get.bind fun p => .forM _ fun entry _ => FailsOnly.get.bind fun q => ?_
    split
    · exact (FailsOnly.modify _).bind fun _ => .modify _
    · exact .modify _
  refine registered.bind fun _ => FailsOnly.get.bind fun p => ?_
  refine (FailsOnly.forM _ fun imp _ => failsOnly_applyImport load imp).bind fun _ =>
    FailsOnly.get.bind fun p => ?_
  refine (FailsOnly.forM _ fun entry _ =>
    failsOnly_resolveExport load depth entry.2).bind fun _ => ?_
  exact FailsOnly.get.bind fun p => .forM _ fun i _ => failsOnly_resolveExport load depth (.own i)

theorem failsOnly_resolveRules (depth : Nat) : FailsOnly P (resolveRules c depth) :=
  FailsOnly.get.bind fun _ => .forM _ fun i _ => failsOnly_resolveBlock load depth [] (.rule i)

omit load in
theorem failsOnly_runPass (sheet : Stylesheet) {steps : Nat → PassM Unit}
    (h : ∀ depth, FailsOnly P (steps depth)) : FailsOnly P (runPass sheet steps) := by
  intro s e s' fails
  rcases run : steps ((Pass.start s sheet).allUses.length + 1) (Pass.start s sheet) with
    ⟨e' | ⟨⟩, p⟩
  · obtain ⟨⟩ := (runPass_of_error run).symm.trans fails
    exact h _ _ _ _ run
  · cases (runPass_of_ok run).symm.trans fails

end

end Reuse

open Reuse

namespace Stylesheet

variable {P : Undecodable → Prop} {c : Consumer} (load : ∀ path, FailsOnly P (c.load path))

include load

/-- In any session a file can be resolved unless the loader fails. -/
theorem resolve_failsOnly (keep : Bool) (sheet : Stylesheet) :
    FailsOnly P (sheet.resolve c keep) := by
  have pass := failsOnly_runPass sheet fun depth =>
    (failsOnly_prepare load depth).bind fun _ => failsOnly_resolveRules load depth
  refine pass.bind fun r => ?_
  cases keep with
  | true => exact (FailsOnly.modify _).bind fun _ => .pure _
  | false => exact .pure _

theorem resolveExports_failsOnly (keep : Bool) (sheet : Stylesheet) :
    FailsOnly P (sheet.resolveExports c keep) := by
  refine (failsOnly_runPass sheet (failsOnly_prepare load)).bind fun r => ?_
  cases keep with
  | true => exact (FailsOnly.modify _).bind fun _ => .pure _
  | false => exact .pure _

end Stylesheet

namespace Files

variable {fs : Files} {path : String} {e : Undecodable}

/-- The fault is met where its file is read. -/
def Fails (fs : Files) (e : Undecodable) : Prop :=
  fs.readText e.path = .error e

theorem fails_of_readText (fails : fs.readText path = .error e) : fs.Fails e := by
  obtain ⟨rfl, -⟩ := readText_eq_error_iff.1 fails
  exact fails

theorem loadInside_failsOnly (fs : Files) (depth : Nat) (active : List String) (given : String) :
    FailsOnly fs.Fails (fs.loadInside depth active given) := by
  induction depth generalizing active given with
  | zero => exact .pure _
  | succ depth ih =>
    refine FailsOnly.get.bind fun s => ?_
    split
    · exact .modify _
    split
    · exact .modify _
    split
    · next fails => exact .throw (fails_of_readText fails)
    · exact .modify _
    · split
      · exact .modify _
      · refine (FailsOnly.modify _).bind fun _ => ?_
        refine (Stylesheet.resolveExports_failsOnly (fun path => ih _ path) true _).bind fun r => ?_
        exact .modify _

/-- Exports can be loaded in any session unless a file cannot be read. -/
theorem load_failsOnly (fs : Files) (path : String) : FailsOnly fs.Fails (fs.load path) :=
  fs.loadInside_failsOnly _ [] path

/-- No file holds bytes that are no text. -/
def AreTexts (fs : Files) : Prop :=
  ∀ entry ∈ fs.contents, entry.2 ≠ .undecodable

/-- Texts can be read by all paths that files can have. -/
theorem Fails.hasNull (fails : fs.Fails e) (texts : fs.AreTexts) : Path.hasNull e.path := by
  refine (readText_eq_error_iff.1 fails).2.resolve_right fun found => ?_
  exact absurd rfl (texts _ (Table.mem_of_lookup found))

end Files

end NestedStyles
