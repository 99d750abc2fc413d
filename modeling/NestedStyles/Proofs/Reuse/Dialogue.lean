import NestedStyles.Proofs.Reuse.Exporting

/-!
# What a pass says to its loader

A pass knows its loader only by its answers. Up to the first call it does the same with every
loader, and what it does behind a call depends on the session the loader leaves and on nothing else.
A `Dialogue` is such a step without the loader: it comes to an end, or it asks for a file and goes
on from any session. `prepare_told` says that resolving exports is one, so that it can be followed
call by call and run with a loader that keeps a state of its own.
-/

namespace NestedStyles

namespace Reuse

variable {α β : Type}

/-- A step up to its end or to its next call, and what it does behind that call. -/
inductive Dialogue (α : Type)
  | done (result : α) (p : Pass)
  | ask (path : String) (p : Pass) (next : Session → Dialogue α)

namespace Dialogue

variable {load : String → SessionM Unit}

/-- What comes of a dialogue with a loader. A call that fails ends it. -/
def run (load : String → SessionM Unit) : Dialogue α → Except Undecodable α × Pass
  | done a p => (.ok a, p)
  | ask path p next =>
    match load path p.session with
    | (.ok (), s) => (next s).run load
    | (.error e, s) => (.error e, { p with session := s })

/-- One dialogue after the other. -/
def bind (f : α → Pass → Dialogue β) : Dialogue α → Dialogue β
  | done a p => f a p
  | ask path p next => ask path p fun s => (next s).bind f

theorem run_bind_of_ok {d : Dialogue α} (f : α → Pass → Dialogue β) {a : α} {p : Pass}
    (h : d.run load = (.ok a, p)) : (d.bind f).run load = (f a p).run load := by
  induction d with
  | done a' p' =>
    cases h
    rfl
  | ask path q next ih =>
    rw [run] at h
    rw [bind, run]
    rcases answer : load path q.session with ⟨_ | ⟨⟩, s⟩
    · rw [answer] at h
      cases h
    · rw [answer] at h
      exact ih s h

theorem run_bind_of_error {d : Dialogue α} (f : α → Pass → Dialogue β) {e : Undecodable} {p : Pass}
    (h : d.run load = (.error e, p)) : (d.bind f).run load = (.error e, p) := by
  induction d with
  | done a' p' => cases h
  | ask path q next ih =>
    rw [run] at h
    rw [bind, run]
    rcases answer : load path q.session with ⟨_ | ⟨⟩, s⟩
    · rw [answer] at h
      cases h
      rfl
    · rw [answer] at h
      exact ih s h

end Dialogue

/-- With every loader the step of a pass does what one dialogue says. -/
def Told (act : (String → SessionM Unit) → PassM α) (p : Pass) : Prop :=
  ∃ d : Dialogue α, ∀ load, act load p = d.run load

namespace Told

variable {file : String} {p : Pass} {act : (String → SessionM Unit) → PassM α}

theorem of_pure (a : α) : Told (fun _ => pure a) p :=
  ⟨.done a p, fun _ => rfl⟩

theorem of_modify (change : Pass → Pass) : Told (fun _ => modify change) p :=
  ⟨.done () (change p), fun _ => rfl⟩

/-- The loader makes no difference to what is reported. -/
theorem of_report (f : Fault) : Told (fun load => modify (·.report ⟨file, load⟩ f)) p :=
  of_modify fun p => { p with session := p.session.log [.fault file f] }

theorem bind {next : (String → SessionM Unit) → α → PassM β} (first : Told act p)
    (rest : ∀ a q, Told (fun load => next load a) q) :
    Told (fun load => act load >>= next load) p := by
  obtain ⟨d, runs⟩ := first
  choose f follows using rest
  refine ⟨d.bind f, fun load => ?_⟩
  rcases ran : d.run load with ⟨e | a, q⟩
  · exact (bind_of_error ((runs load).trans ran)).trans (Dialogue.run_bind_of_error f ran).symm
  · rw [Dialogue.run_bind_of_ok f ran, ← follows a q load]
    exact bind_of_ok ((runs load).trans ran)

theorem get_bind {next : (String → SessionM Unit) → Pass → PassM α}
    (h : Told (fun load => next load p) p) : Told (fun load => get >>= next load) p :=
  h

theorem ite {cond : Prop} [Decidable cond] {no : (String → SessionM Unit) → PassM α}
    (h : Told act p) (h' : Told no p) :
    Told (fun load => if cond then act load else no load) p := by
  by_cases holds : cond
  · simp only [if_pos holds]
    exact h
  · simp only [if_neg holds]
    exact h'

theorem forM {γ : Type} {step : (String → SessionM Unit) → γ → PassM Unit} (l : List γ)
    (turn : ∀ x q, Told (fun load => step load x) q) (p : Pass) :
    Told (fun load => l.forM (step load)) p := by
  induction l generalizing p with
  | nil => exact of_pure ()
  | cons x l ih => exact (turn x p).bind fun _ q => ih q

/-- A call of the loader. -/
theorem of_load (path : String) : Told (fun load => inSession (load path)) p := by
  refine ⟨.ask path p fun s => .done () { p with session := s }, fun load => ?_⟩
  rw [Dialogue.run]
  rcases answer : load path p.session with ⟨_ | ⟨⟩, s⟩
  · exact inSession_of_run answer
  · exact inSession_of_run answer

end Told

/-! ## The steps of a pass -/

section

variable {file : String}

/-- The loader makes no difference to what a path means. -/
theorem pathOf_told (source : String) (load : String → SessionM Unit) :
    Consumer.pathOf ⟨file, load⟩ source = pathIn file source :=
  rfl

theorem exportsOf_told (path : String) (p : Pass) :
    Told (fun load => exportsOf ⟨file, load⟩ path) p :=
  .bind (.of_modify _) fun _ _ => .bind (.of_load path) fun _ _ => .get_bind (.of_pure _)

theorem lookup_told (owner : Option String) (u : UseDirective) (p : Pass) :
    Told (fun load => lookup ⟨file, load⟩ owner u) p := by
  by_cases bare : u.source.getD "" = ""
  · simp only [Outset.lookup_bare bare]
    refine .get_bind ?_
    cases p.registry.lookup u.name with
    | some ref => exact .of_pure _
    | none => exact (Told.of_report _).bind fun _ _ => .of_pure _
  · simp only [Outset.lookup_qualified bare, pathOf_told]
    refine (exportsOf_told _ p).bind fun es q => ?_
    cases findExport u.name es with
    | some i => exact .of_pure _
    | none => exact (Told.of_report _).bind fun _ _ => .of_pure _

theorem copyBlock_told (place : Place) (target : BlockRef) (p : Pass) :
    Told (fun _ => copyBlock place target) p :=
  .get_bind (.bind (.of_modify _) fun _ => .forM _ fun _ _ => .of_modify _)

variable {enter : (String → SessionM Unit) → List String → BlockRef → PassM Unit}

theorem inlineUse_told (entered : ∀ active ref q, Told (fun load => enter load active ref) q)
    (active : List String) (owner : Option String) (place : Place) (u : UseDirective) (p : Pass) :
    Told (fun load => inlineUse ⟨file, load⟩ (enter load) active owner place u) p := by
  have copied (target : BlockRef) (q : Pass) : Told (fun _ => do
      copyBlock place target
      inSession (modify (·.log [.inlined file u.name]))) q :=
    (copyBlock_told place target q).bind fun _ r =>
      ⟨.done () { r with session := r.session.log [.inlined file u.name] }, fun _ => rfl⟩
  obtain ⟨key, same⟩ : ∃ key, ∀ load, Consumer.keyOf ⟨file, load⟩ u = key :=
    ⟨Consumer.keyOf ⟨file, fun _ => pure ()⟩ u, fun _ => rfl⟩
  simp only [inlineUse, same]
  refine .ite (.of_report _) ((lookup_told owner u p).bind fun found q => ?_)
  cases found with
  | none => exact .of_pure ()
  | some target =>
    refine .get_bind (.ite ?_ (copied target q))
    exact (entered _ target q).bind fun _ r => .bind (.of_modify _) fun _ => copied target

theorem inlineAt_told (entered : ∀ active ref q, Told (fun load => enter load active ref) q)
    (active : List String) (owner : Option String) (ref : BlockRef) (path : List Nat) (p : Pass) :
    Told (fun load => inlineAt ⟨file, load⟩ (enter load) active owner ref path) p :=
  .get_bind (.bind (.forM _ (inlineUse_told entered active owner _) p) fun _ _ => .of_modify _)

theorem resolveBlock_told (depth : Nat) (active : List String) (ref : BlockRef) (p : Pass) :
    Told (fun load => resolveBlock ⟨file, load⟩ depth active ref) p := by
  induction depth generalizing active ref p with
  | zero => exact .of_pure ()
  | succ depth ih => exact .get_bind (.forM _ (inlineAt_told ih active _ ref) p)

theorem resolveExport_told (depth : Nat) (ref : BlockRef) (p : Pass) :
    Told (fun load => resolveExport ⟨file, load⟩ depth ref) p := by
  refine .get_bind (.ite ?_ (.of_pure ()))
  exact (resolveBlock_told depth _ ref p).bind fun _ _ => .of_modify _

theorem applyImport_told (imp : ImportDirective) (p : Pass) :
    Told (fun load => applyImport ⟨file, load⟩ imp) p := by
  simp only [applyImport, pathOf_told]
  refine (exportsOf_told _ p).bind fun es => .forM _ fun name q => ?_
  cases (exportTable es).lookup name with
  | some i => exact .of_modify _
  | none => exact .of_report _

/-- Resolving the exports of a file is a dialogue with its loader. -/
theorem prepare_told (file : String) (depth : Nat) (p : Pass) :
    Told (fun load => prepare ⟨file, load⟩ depth) p := by
  have register : ∀ (entry : ExportBlock × Nat) q, Told (fun load => do
      if ((← get).registry.lookup entry.1.name).isSome then
        modify (·.report ⟨file, load⟩ (.duplicateExport entry.1.name))
      modify (·.register entry.1.name (.own entry.2))) q := by
    rintro ⟨e, i⟩ q
    have last (r : Pass) : Told (fun _ => modify (·.register e.name (.own i))) r := .of_modify _
    exact .get_bind (.ite (.bind (.of_report _) fun _ => last) (last q))
  refine .bind (.get_bind (.forM _ register p)) fun _ q => .get_bind ?_
  refine .bind (.forM _ applyImport_told q) fun _ q => .get_bind ?_
  refine .bind (.forM _ (fun ⟨_, ref⟩ => resolveExport_told depth ref) q) ?_
  exact fun _ q => .get_bind (.forM _ (fun i => resolveExport_told depth _) q)

end

end Reuse

end NestedStyles
