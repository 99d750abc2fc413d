import NestedStyles.Proofs.Reuse.Exporting

/-!
# What a pass does to the session

A pass writes faults and inlined uses down, changes the blocks of other files and calls its loader.
So a property of sessions that survives each of these survives the pass, whatever the file is like
and whether the pass fails or not (`Upheld.prepare_upholds`).

Blocks of other files are changed where they have uses. Of files whose blocks are known to have none
(`K`) only those changes come up that change nothing.
-/

namespace NestedStyles

namespace Reuse

variable {α β : Type} {c : Consumer} {K : String → Prop} {I : Session → Prop} {p : Pass}

/-- The change of the block with this index among the exports of a file. -/
def changeAt (i : Nat) (change : Body → Body) (es : List ExportBlock) : List ExportBlock :=
  es.modify i (ExportBlock.modifyBody change)

/-- The session has a property still after what a step of a pass can do to it, where the blocks of
some files have no uses. -/
structure Upheld (c : Consumer) (K : String → Prop) (I : Session → Prop) : Prop where
  report : ∀ {s}, I s → ∀ f : Fault, (∀ path, f ≠ .circularImport path) →
    I (s.log [.fault c.file f])
  inlined : ∀ {s}, I s → ∀ name, I (s.log [.inlined c.file name])
  changed : ∀ {s}, I s → ∀ path i change,
    (K path → changeAt i change (s.exports path) = s.exports path) →
    I (s.modifyExports path (changeAt i change))
  free : ∀ {s}, I s → ∀ path, K path → Inquiry.Free (s.exports path)
  load : ∀ {s}, I s → ∀ path, I (c.load path s).2

/-- From this pass the step upholds the property. -/
def Upholds (I : Session → Prop) (act : PassM α) (p : Pass) : Prop :=
  I p.session → I (act p).2.session

namespace Upholds

theorem of_pure (a : α) : Upholds I (pure a) p :=
  id

theorem of_modify {change : Pass → Pass} (keeps : I p.session → I (change p).session) :
    Upholds I (modify change) p :=
  keeps

theorem bind {act : PassM α} {next : α → PassM β} (first : Upholds I act p)
    (rest : ∀ a q, Upholds I (next a) q) : Upholds I (act >>= next) p := by
  intro here
  have after := first here
  rcases run : act p with ⟨_ | a, q⟩
  · rw [run] at after
    rw [bind_of_error run]
    exact after
  · rw [run] at after
    rw [bind_of_ok run]
    exact rest a q after

theorem get_bind {next : Pass → PassM α} (h : Upholds I (next p) p) :
    Upholds I (get >>= next) p :=
  h

theorem ite {cond : Prop} [Decidable cond] {yes no : PassM α} (h : Upholds I yes p)
    (h' : Upholds I no p) : Upholds I (if cond then yes else no) p := by
  split
  case isTrue => exact h
  case isFalse => exact h'

theorem forM {γ : Type} {step : γ → PassM Unit} (l : List γ)
    (turn : ∀ x q, Upholds I (step x) q) (p : Pass) : Upholds I (l.forM step) p := by
  induction l generalizing p with
  | nil => exact of_pure ()
  | cons x l ih => exact (turn x p).bind fun _ q => ih q

end Upholds

/-- The session does not notice a change of the file itself, and of a block of another file only that
block. -/
theorem Pass.session_modifyBody (p : Pass) (change : Body → Body) (ref : BlockRef) :
    (∀ path i, ref ≠ .foreign path i) ∧ (p.modifyBody change ref).session = p.session ∨
      ∃ path i, ref = .foreign path i ∧
        (p.modifyBody change ref).session = p.session.modifyExports path (changeAt i change) := by
  cases ref with
  | own | rule => exact .inl ⟨by rintro _ _ ⟨⟩, rfl⟩
  | foreign path i => exact .inr ⟨path, i, rfl, rfl⟩

/-- The block is none of those that are known to have no uses. -/
def BlockRef.Open (K : String → Prop) (ref : BlockRef) : Prop :=
  ∀ path i, ref = .foreign path i → ¬ K path

theorem free_body_foreign {path : String} {i : Nat} (free : Inquiry.Free (p.session.exports path)) :
    (p.body (.foreign path i)).allUses = [] := by
  rw [Pass.body, Pass.export?]
  · cases here : (p.session.exports path)[i]? with
    | none => rfl
    | some e => exact free e (List.mem_of_getElem? here)
  · rintro _ ⟨⟩

namespace Upheld

variable (upheld : Upheld c K I)

include upheld

theorem report_upholds (f : Fault) (pass : ∀ path, f ≠ .circularImport path) (p : Pass) :
    Upholds I (modify (·.report c f)) p :=
  .of_modify fun here => upheld.report here f pass

theorem modifyContent_upholds {place : Place} (opened : place.block.Open K) (change : Body → Body)
    (p : Pass) : Upholds I (modify fun p => p.modifyContent place change) p := by
  refine .of_modify fun here => ?_
  rcases p.session_modifyBody (Body.modifyAt change place.path) place.block with
    ⟨-, still⟩ | ⟨path, i, foreign, still⟩
  · rw [Pass.modifyContent, still]
    exact here
  · rw [Pass.modifyContent, still]
    exact upheld.changed here path i _ fun kept => absurd kept (opened path i foreign)

/-- Where there are no uses, taking them away changes nothing. -/
theorem clearUses_upholds (place : Place) (p : Pass) :
    Upholds I (modify (·.clearUses place)) p := by
  refine .of_modify fun here => ?_
  rcases p.session_modifyBody (Body.modifyAt (fun b => { b with uses := [] }) place.path)
    place.block with ⟨-, still⟩ | ⟨path, i, foreign, still⟩
  · rw [Pass.clearUses, Pass.modifyContent, still]
    exact here
  · rw [Pass.clearUses, Pass.modifyContent, still]
    refine upheld.changed here path i _ fun kept => modify_eq_self_of_fixed fun e he => ?_
    have none := upheld.free here path kept e (List.mem_of_getElem? he)
    rw [ExportBlock.modifyBody, Body.modifyAt_clear none]

/-- Asking for the exports of a file is calling the loader once. -/
theorem exportsOf_upholds (path : String) (p : Pass) : Upholds I (exportsOf c path) p := by
  have asks (q : Pass) : Upholds I (inSession (c.load path) : PassM Unit) q :=
    fun here => upheld.load here path
  exact .bind (.of_modify id) fun _ q => .bind (asks q) fun _ r => .get_bind (.of_pure _)

theorem lookup_upholds (owner : Option String) (u : UseDirective) (p : Pass) :
    Upholds I (lookup c owner u) p := by
  by_cases bare : u.source.getD "" = ""
  · rw [Outset.lookup_bare bare]
    refine .get_bind ?_
    cases p.registry.lookup u.name with
    | some ref => exact .of_pure _
    | none => exact (upheld.report_upholds _ (by rintro _ ⟨⟩) p).bind fun _ q => .of_pure _
  · rw [Outset.lookup_qualified bare]
    refine (upheld.exportsOf_upholds _ p).bind fun es q => ?_
    cases findExport u.name es with
    | some i => exact .of_pure _
    | none => exact (upheld.report_upholds _ (by rintro _ ⟨⟩) q).bind fun _ q => .of_pure _

theorem copyBlock_upholds {place : Place} (opened : place.block.Open K) (target : BlockRef)
    (p : Pass) : Upholds I (copyBlock place target) p := by
  refine .get_bind (.bind (upheld.modifyContent_upholds opened _ p) fun _ => .forM _ ?_)
  intro i q
  refine .of_modify fun here => ?_
  cases (q.body target).children[i]? with
  | none => exact here
  | some r =>
    exact upheld.modifyContent_upholds opened (· ++ { Body.empty with children := [r] }) q here

variable {enter : List String → BlockRef → PassM Unit}

theorem inlineUse_upholds (entered : ∀ active ref q, Upholds I (enter active ref) q)
    (active : List String) (owner : Option String) {place : Place} (opened : place.block.Open K)
    (u : UseDirective) (p : Pass) : Upholds I (inlineUse c enter active owner place u) p := by
  refine .ite (upheld.report_upholds _ (by rintro _ ⟨⟩) p) ?_
  refine (upheld.lookup_upholds owner u p).bind fun found q => ?_
  cases found with
  | none => exact .of_pure ()
  | some target =>
    have copied (q : Pass) : Upholds I (do
        copyBlock place target
        inSession (modify (·.log [.inlined c.file u.name]))) q :=
      (upheld.copyBlock_upholds opened target q).bind fun _ r here => upheld.inlined here u.name
    refine .get_bind (.ite ?_ (copied q))
    exact (entered _ target q).bind fun _ r => .bind (.of_modify id) fun _ t => copied t

theorem inlineAt_upholds (entered : ∀ active ref q, Upholds I (enter active ref) q)
    (active : List String) (owner : Option String) (ref : BlockRef) (path : List Nat) (p : Pass) :
    Upholds I (inlineAt c enter active owner ref path) p := by
  refine .get_bind (.bind ?_ fun _ q => upheld.clearUses_upholds ⟨ref, path⟩ q)
  by_cases opened : ref.Open K
  · exact .forM _ (upheld.inlineUse_upholds entered active owner opened) p
  · -- the block is known to have no uses, so there is nothing to do
    intro here
    simp only [BlockRef.Open, not_forall, not_not] at opened
    obtain ⟨file, i, rfl, kept⟩ := opened
    have none : (p.content ⟨.foreign file i, path⟩).uses = [] :=
      Body.uses_inside_of_free (free_body_foreign (upheld.free here file kept)) path
    rw [none]
    exact here

theorem resolveBlock_upholds (depth : Nat) (active : List String) (ref : BlockRef) (p : Pass) :
    Upholds I (resolveBlock c depth active ref) p := by
  induction depth generalizing active ref p with
  | zero => exact .of_pure ()
  | succ depth ih => exact .get_bind (.forM _ (upheld.inlineAt_upholds ih active _ ref) p)

theorem resolveExport_upholds (depth : Nat) (ref : BlockRef) (p : Pass) :
    Upholds I (resolveExport c depth ref) p := by
  refine .get_bind (.ite ?_ (.of_pure ()))
  exact (upheld.resolveBlock_upholds depth _ ref p).bind fun _ q => .of_modify id

theorem applyImport_upholds (imp : ImportDirective) (p : Pass) :
    Upholds I (applyImport c imp) p := by
  refine (upheld.exportsOf_upholds _ p).bind fun es => .forM _ fun name q => ?_
  cases (exportTable es).lookup name with
  | some i => exact .of_modify id
  | none => exact upheld.report_upholds _ (by rintro _ ⟨⟩) q

/-- Resolving the exports of a file upholds the property. -/
theorem prepare_upholds (depth : Nat) (p : Pass) : Upholds I (prepare c depth) p := by
  have register : ∀ (entry : ExportBlock × Nat) q, Upholds I (do
      if ((← get).registry.lookup entry.1.name).isSome then
        modify (·.report c (.duplicateExport entry.1.name))
      modify (·.register entry.1.name (.own entry.2))) q := by
    rintro ⟨e, i⟩ q
    have last (r : Pass) : Upholds I (modify (·.register e.name (.own i))) r := .of_modify id
    exact .get_bind (.ite (.bind (upheld.report_upholds _ (by rintro _ ⟨⟩) q) fun _ => last)
      (last q))
  refine .bind (.get_bind (.forM _ register p)) fun _ q => .get_bind ?_
  refine .bind (.forM _ upheld.applyImport_upholds q) fun _ q => .get_bind ?_
  refine .bind (.forM _ (fun ⟨_, ref⟩ => upheld.resolveExport_upholds depth ref) q) ?_
  exact fun _ q => .get_bind (.forM _ (fun i => upheld.resolveExport_upholds depth _) q)

end Upheld

end Reuse

end NestedStyles
