import NestedStyles.Proofs.Reuse.Copies
import NestedStyles.Proofs.Reuse.OwnFirst

/-!
# Files with their sources spelled out

A file can be written with the absolute path in the place of each source
(`Stylesheet.absoluteFrom`). Two steps go together if they have the same result and lead from
related states to related ones (`Together`). Each step of a pass over a file goes together with that
of a pass over the file as it is written then: names stand for the same blocks, the same files are
asked for, and the blocks are the same but for the sources of their uses (`Respelled`).
-/

namespace NestedStyles

open Reuse

/-! ## Blocks with other uses -/

section

variable (f : UseDirective → UseDirective)

mutual

theorem StyleRule.mapUses_of_free (r : StyleRule) (free : r.body.allUses = []) :
    r.mapUses f = r := by
  obtain ⟨selector, classes, declarations, uses, children⟩ := r
  obtain ⟨here, below⟩ := List.append_eq_nil_iff.1 free
  obtain rfl : uses = [] := here
  rw [mapUses, mapUsesAll_of_free children below, List.map_nil]
termination_by structural r

theorem StyleRule.mapUsesAll_of_free (rs : List StyleRule) (free : usesIn rs = []) :
    mapUsesAll f rs = rs := by
  cases rs with
  | nil => rfl
  | cons r rs =>
    rw [usesIn_cons] at free
    obtain ⟨first, rest⟩ := List.append_eq_nil_iff.1 free
    rw [mapUsesAll, mapUses_of_free r first, mapUsesAll_of_free rs rest]
termination_by structural rs

end

/-- A block without uses stays as it is. -/
theorem Body.mapUses_of_free {b : Body} (free : b.allUses = []) : b.mapUses f = b := by
  obtain ⟨classes, declarations, uses, children⟩ := b
  obtain ⟨here, below⟩ := List.append_eq_nil_iff.1 free
  obtain rfl : uses = [] := here
  rw [mapUses, StyleRule.mapUsesAll_of_free f children below, List.map_nil]

theorem ExportBlock.mapUses_of_free {e : ExportBlock} (free : e.toBody.allUses = []) :
    e.mapUses f = e := by
  rw [mapUses, Body.mapUses_of_free f free]

theorem Body.mapUses_append (a b : Body) : (a ++ b).mapUses f = a.mapUses f ++ b.mapUses f := by
  change Body.mk _ _ _ _ = Body.mk _ _ _ _
  simp [mapUses]

theorem Body.inside_mapUses (path : List Nat) (b : Body) :
    (b.mapUses f).inside path = (b.inside path).mapUses f := by
  induction path generalizing b with
  | nil => rfl
  | cons i path ih =>
    rw [inside_cons, inside_cons, mapUses, StyleRule.mapUsesAll_eq_map, List.getElem?_map]
    cases b.children[i]? with
    | none => rfl
    | some r =>
      simp only [Option.map_some, Option.getD_some, StyleRule.body_mapUses]
      exact ih r.body

/-- A change of one entry goes with a change of all if it does so entry by entry. -/
theorem modify_map {α β : Type} {g : α → β} {change : α → α} {change' : β → β}
    (same : ∀ a, change' (g a) = g (change a)) (l : List α) (k : Nat) :
    (l.map g).modify k change' = (l.modify k change).map g := by
  apply List.ext_getElem?
  intro j
  rw [List.getElem?_modify, List.getElem?_map, List.getElem?_map, List.getElem?_modify]
  by_cases h : k = j
  · cases l[j]? <;> simp [h, same]
  · simp [h]

section

variable {f} {change change' : Body → Body}
variable (same : ∀ b : Body, change' (b.mapUses f) = (change b).mapUses f)

include same

/-- A change that goes with the other uses goes with them at every place. -/
theorem Body.modifyAt_mapUses (path : List Nat) (b : Body) :
    modifyAt change' path (b.mapUses f) = (modifyAt change path b).mapUses f := by
  induction path generalizing b with
  | nil => exact same b
  | cons i path ih =>
    have below : (StyleRule.mapUsesAll f b.children).modify i
        (fun r => (modifyAt change' path r.body).toRule r.selector) =
          StyleRule.mapUsesAll f (b.children.modify i
            fun r => (modifyAt change path r.body).toRule r.selector) := by
      rw [StyleRule.mapUsesAll_eq_map, StyleRule.mapUsesAll_eq_map]
      refine modify_map (fun r => ?_) _ _
      rw [StyleRule.body_mapUses, ih, StyleRule.selector_mapUses]
      rfl
    rw [modifyAt, modifyAt, mapUses, mapUses, below]

theorem ExportBlock.modifyBody_mapUses (e : ExportBlock) :
    (e.mapUses f).modifyBody change' = (e.modifyBody change).mapUses f :=
  congrArg (ExportBlock.mk · e.name) (same e.toBody)

theorem StyleRule.modifyBody_mapUses (r : StyleRule) :
    (r.mapUses f).modifyBody change' = (r.modifyBody change).mapUses f := by
  rw [modifyBody, body_mapUses, same, selector_mapUses]
  rfl

end

end

/-! ## Sources as absolute paths -/

/-- The use with the absolute path of its source, if it names one. -/
def UseDirective.absoluteFrom (base : String) (u : UseDirective) : UseDirective :=
  match u.source.getD "" with
  | "" => ⟨u.name, none⟩
  | source => ⟨u.name, some (Path.absolute (some base) source)⟩

/-- The import with the absolute path of its source. -/
def ImportDirective.absoluteFrom (base : String) (imp : ImportDirective) : ImportDirective :=
  { imp with source := Path.absolute (some base) imp.source }

/-- The file with the absolute paths of all sources. -/
def Stylesheet.absoluteFrom (base : String) (sheet : Stylesheet) : Stylesheet :=
  { sheet.mapUses (·.absoluteFrom base) with
    imports := sheet.imports.map (·.absoluteFrom base) }

namespace UseDirective

variable {base : String} {u : UseDirective}

theorem absoluteFrom_bare (bare : u.source.getD "" = "") :
    u.absoluteFrom base = ⟨u.name, none⟩ := by
  simp only [absoluteFrom, bare]

theorem absoluteFrom_qualified (source : u.source.getD "" ≠ "") :
    u.absoluteFrom base = ⟨u.name, some (Path.absolute (some base) (u.source.getD ""))⟩ := by
  unfold absoluteFrom
  split
  case _ bare => exact absurd bare source
  case _ => rfl

end UseDirective

/-! ## Steps that go together -/

namespace Reuse

/-- From related states both steps have the same result, and the states are related afterwards. -/
def Together {σ ε α : Type} (R : σ → σ → Prop) (act act' : ExceptT ε (StateM σ) α) : Prop :=
  ∀ s t, R s t → (act' t).1 = (act s).1 ∧ R (act s).2 (act' t).2

namespace Together

variable {σ ε α β : Type} {R : σ → σ → Prop} {act act' : ExceptT ε (StateM σ) α}

theorem pure (a : α) :
    Together R (Pure.pure a : ExceptT ε (StateM σ) α) (Pure.pure a) :=
  fun _ _ h => ⟨rfl, h⟩

theorem modify {change change' : σ → σ} (h : ∀ s t, R s t → R (change s) (change' t)) :
    Together R (MonadState.modifyGet fun s => ((), change s) : ExceptT ε (StateM σ) Unit)
      (MonadState.modifyGet fun s => ((), change' s)) :=
  fun s t related => ⟨rfl, h s t related⟩

theorem bind {next next' : α → ExceptT ε (StateM σ) β} (h : Together R act act')
    (step : ∀ a, Together R (next a) (next' a)) :
    Together R (act >>= next) (act' >>= next') := by
  intro s t related
  obtain ⟨same, after⟩ := h s t related
  cases run : act s with
  | mk result s' =>
    cases run' : act' t with
    | mk result' t' =>
      rw [run, run'] at same after
      obtain rfl : result' = result := same
      cases result' with
      | error e =>
        rw [bind_of_error run, bind_of_error run']
        exact ⟨rfl, after⟩
      | ok a =>
        rw [bind_of_ok run, bind_of_ok run']
        exact step a s' t' after

theorem get_bind {next next' : σ → ExceptT ε (StateM σ) α}
    (h : ∀ s t, R s t → Together R (next s) (next' t)) :
    Together R (get >>= next) (get >>= next') :=
  fun s t related => h s t related s t related

theorem ite {P P' : Prop} [Decidable P] [Decidable P'] {yes yes' no no' : ExceptT ε (StateM σ) α}
    (same : P' ↔ P) (first : Together R yes yes') (second : Together R no no') :
    Together R (if P then yes else no) (if P' then yes' else no') := by
  by_cases holds : P
  · rw [if_pos holds, if_pos (same.2 holds)]
    exact first
  · rw [if_neg holds, if_neg fun holds' => holds (same.1 holds')]
    exact second

theorem forM_map {γ δ : Type} {step : γ → ExceptT ε (StateM σ) Unit}
    {step' : δ → ExceptT ε (StateM σ) Unit} (g : γ → δ) (l : List γ)
    (h : ∀ x, Together R (step x) (step' (g x))) :
    Together R (l.forM step) ((l.map g).forM step') := by
  induction l with
  | nil => exact pure ()
  | cons x l ih => exact (h x).bind fun _ => ih

theorem forM {γ : Type} {step step' : γ → ExceptT ε (StateM σ) Unit} (l : List γ)
    (h : ∀ x, Together R (step x) (step' x)) : Together R (l.forM step) (l.forM step') := by
  have loop := forM_map id l h
  rwa [List.map_id] at loop

end Together

end Reuse

/-! ## Passes over files that are spelled out -/

/-- Sessions that differ only in what happened, and in which no block has uses. -/
structure Session.Alike (s t : Session) : Prop where
  library : t.library = s.library
  dependencies : t.dependencies = s.dependencies
  clean : s.Clean

namespace Session.Alike

variable {s t : Session}

theorem refl (clean : s.Clean) : s.Alike s :=
  ⟨rfl, rfl, clean⟩

theorem clean' (h : s.Alike t) : t.Clean := by
  constructor
  · rw [h.library]
    exact h.clean.keys
  · rw [h.library]
    exact h.clean.free

theorem symm (h : s.Alike t) : t.Alike s :=
  ⟨h.library.symm, h.dependencies.symm, h.clean'⟩

theorem trans {u : Session} (h : s.Alike t) (h' : t.Alike u) : s.Alike u :=
  ⟨h'.library.trans h.library, h'.dependencies.trans h.dependencies, h.clean⟩

theorem log (h : s.Alike t) (events events' : List Event) : (s.log events).Alike (t.log events') :=
  ⟨h.library, h.dependencies, h.clean.log events⟩

theorem exports? (h : s.Alike t) (path : String) : t.exports? path = s.exports? path := by
  rw [Session.exports?, Session.exports?, h.library]

end Session.Alike

namespace Reuse

/-- What a loader does is decided by what is kept and not by what happened, and it makes only blocks
without uses known. -/
def Unbiased (load : String → SessionM Unit) : Prop :=
  ∀ path, Together Session.Alike (load path) (load path)

/-- Two consumers with the same absolute path in a directory, and with the same loader. -/
structure Consumer.Beside (base : String) (c c' : Consumer) : Prop where
  file : Path.absolute none c'.file = Path.absolute none c.file
  base : Path.absolute none base = Path.absolute none (Path.directory (Path.absolute none c.file))
  load : c'.load = c.load
  unbiased : Unbiased c.load

/-- The second pass has come as far as the first one, over the file with its sources spelled out. -/
structure Respelled (base : String) (p q : Pass) : Prop where
  session : p.session.Alike q.session
  sheet : q.sheet = p.sheet.absoluteFrom base
  registry : q.registry = p.registry
  dependencies : q.dependencies = p.dependencies
  done : q.done = p.done
  normal : ∀ path ∈ p.dependencies, Path.absolute none path = path

theorem Consumer.keyOf_qualified {c : Consumer} {u : UseDirective}
    (source : u.source.getD "" ≠ "") :
    c.keyOf u = c.pathOf (u.source.getD "") ++ "#" ++ u.name := by
  unfold keyOf
  split
  case _ bare => exact absurd bare source
  case _ => rfl

namespace Consumer.Beside

variable {base : String} {c c' : Consumer}

theorem refl (h : c.Beside base c') : c'.Beside base c' where
  file := rfl
  base := by
    rw [h.file]
    exact h.base
  load := rfl
  unbiased := by
    rw [h.load]
    exact h.unbiased

theorem pathOf (h : c.Beside base c') (source : String) :
    c.pathOf source = Path.absolute (some base) source := by
  rw [Consumer.pathOf, ← Path.absolute_of_base, ← h.base, Path.absolute_of_base]

theorem pathOf' (h : c.Beside base c') (source : String) :
    c'.pathOf source = Path.absolute (some base) source :=
  h.refl.pathOf source

/-- An absolute path is the one that it was seen as. -/
theorem pathOf_absolute (h : c.Beside base c') (source : String) :
    c'.pathOf (Path.absolute (some base) source) = c.pathOf source := by
  rw [h.pathOf', h.pathOf, Path.absolute_from]

/-- The key under which a use is watched for cycles is that of its absolute path. -/
theorem keyOf (h : c.Beside base c') (u : UseDirective) :
    c'.keyOf (u.absoluteFrom base) = c.keyOf u := by
  by_cases bare : u.source.getD "" = ""
  · rw [UseDirective.absoluteFrom_bare bare, keyOf_bare rfl, keyOf_bare bare]
  · have some : (u.absoluteFrom base).source.getD "" ≠ "" := by
      rw [UseDirective.absoluteFrom_qualified bare]
      exact Path.absolute_ne_empty _ _
    rw [keyOf_qualified some, keyOf_qualified bare, UseDirective.absoluteFrom_qualified bare,
      Option.getD_some, h.pathOf_absolute]

end Consumer.Beside

namespace Respelled

variable {base : String} {p q : Pass}

/-- The blocks are the same but for how the sources of their uses are spelled. -/
theorem body (h : Respelled base p q) (ref : BlockRef) :
    q.body ref = (p.body ref).mapUses (·.absoluteFrom base) := by
  cases ref with
  | own i =>
    simp only [Pass.body, Pass.export?, h.sheet, Stylesheet.absoluteFrom, Stylesheet.mapUses,
      List.getElem?_map]
    cases p.sheet.exports[i]? <;> rfl
  | rule i =>
    simp only [Pass.body, h.sheet, Stylesheet.absoluteFrom, Stylesheet.mapUses, List.getElem?_map]
    cases p.sheet.rules[i]? with
    | none => rfl
    | some r => exact r.body_mapUses _
  | foreign path i =>
    have same := Session.exports_of_library h.session.library path
    have free : (p.body (.foreign path i)).allUses = [] :=
      free_foreign_of_clean h.session.clean path i
    rw [Body.mapUses_of_free _ free]
    simp only [Pass.body, Pass.export?, same]

theorem nameOf (h : Respelled base p q) (ref : BlockRef) : q.nameOf ref = p.nameOf ref := by
  cases ref with
  | own i =>
    simp only [Pass.nameOf, Pass.export?, h.sheet, Stylesheet.absoluteFrom, Stylesheet.mapUses,
      List.getElem?_map]
    cases p.sheet.exports[i]? <;> rfl
  | rule i => rfl
  | foreign path i =>
    have same := Session.exports_of_library h.session.library path
    simp only [Pass.nameOf, Pass.export?, same]

/-- Only the journal and what the passes have in common may change. -/
theorem of_session (h : Respelled base p q) {s t : Session} (alike : s.Alike t) :
    Respelled base { p with session := s } { q with session := t } :=
  { h with session := alike }

theorem report (h : Respelled base p q) (c c' : Consumer) (φ φ' : Fault) :
    Respelled base (p.report c φ) (q.report c' φ') :=
  h.of_session (h.session.log _ _)

theorem register (h : Respelled base p q) (name : String) (ref : BlockRef) :
    Respelled base (p.register name ref) (q.register name ref) :=
  { h with registry := congrArg (Table.put name ref) h.registry }

theorem markDone (h : Respelled base p q) (ref : BlockRef) :
    Respelled base (p.markDone ref) (q.markDone ref) :=
  { h with done := congrArg (ref :: ·) h.done }

theorem depend (h : Respelled base p q) {path : String}
    (canonical : Path.absolute none path = path) :
    Respelled base (p.depend path) (q.depend path) := by
  refine { h with dependencies := ?_, normal := fun other mem => ?_ }
  · simp only [Pass.depend, h.dependencies]
  · change other ∈ ite _ _ _ at mem
    split at mem
    · exact h.normal other mem
    · rcases List.mem_append.1 mem with mem | mem
      · exact h.normal other mem
      · rw [List.mem_singleton.1 mem, canonical]

/-- A change of a block of the file goes with the spelling. -/
theorem modifyBody (h : Respelled base p q) {change change' : Body → Body}
    (same : ∀ b : Body, change' (b.mapUses (·.absoluteFrom base)) =
      (change b).mapUses (·.absoluteFrom base)) {ref : BlockRef}
    (own : ∀ path i, ref ≠ .foreign path i) :
    Respelled base (p.modifyBody change ref) (q.modifyBody change' ref) := by
  cases ref with
  | own i =>
    refine { h with sheet := ?_ }
    have exports := modify_map (fun e : ExportBlock => e.modifyBody_mapUses same) p.sheet.exports i
    simp only [Pass.modifyBody, h.sheet, Stylesheet.absoluteFrom, Stylesheet.mapUses, exports]
  | rule i =>
    refine { h with sheet := ?_ }
    have rules := modify_map (fun r : StyleRule => r.modifyBody_mapUses same) p.sheet.rules i
    simp only [Pass.modifyBody, h.sheet, Stylesheet.absoluteFrom, Stylesheet.mapUses, rules]
  | foreign path i => exact absurd rfl (own path i)

theorem modifyContent (h : Respelled base p q) {change change' : Body → Body}
    (same : ∀ b : Body, change' (b.mapUses (·.absoluteFrom base)) =
      (change b).mapUses (·.absoluteFrom base)) {place : Place}
    (own : ∀ path i, place.block ≠ .foreign path i) :
    Respelled base (p.modifyContent place change) (q.modifyContent place change') :=
  h.modifyBody (Body.modifyAt_mapUses same place.path) own

theorem append (h : Respelled base p q) {place : Place}
    (own : ∀ path i, place.block ≠ .foreign path i) {more more' : Body}
    (same : more' = more.mapUses (·.absoluteFrom base)) :
    Respelled base (p.append place more) (q.append place more') := by
  refine h.modifyContent (fun b => ?_) own
  rw [same, Body.mapUses_append]

theorem clearUses (h : Respelled base p q) {place : Place}
    (own : ∀ path i, place.block ≠ .foreign path i) :
    Respelled base (p.clearUses place) (q.clearUses place) := by
  have same (b : Body) : { b.mapUses (·.absoluteFrom base) with uses := [] } =
      Body.mapUses (·.absoluteFrom base) { b with uses := [] } := rfl
  exact h.modifyContent same own

end Respelled

/-! ## Steps of a pass -/

section

variable {base : String} {c c' : Consumer}

theorem together_report (φ φ' : Fault) :
    Together (Respelled base) (modify (·.report c φ) : PassM Unit) (modify (·.report c' φ')) :=
  .modify fun _ _ h => h.report c c' φ φ'

theorem together_inSession {α : Type} {act act' : SessionM α}
    (h : Together Session.Alike act act') :
    Together (Respelled base) (inSession act) (inSession act') := by
  intro p q related
  obtain ⟨same, alike⟩ := h _ _ related.session
  exact ⟨same, related.of_session alike⟩

/-- What is written down does not matter. -/
theorem together_log (events events' : List Event) :
    Together Session.Alike (modify (·.log events) : SessionM Unit) (modify (·.log events')) :=
  .modify fun _ _ h => h.log events events'

theorem together_registerExports :
    Together (Respelled base) (registerExports c) (registerExports c') := by
  refine .get_bind fun p q h => ?_
  have entries : q.sheet.exports.zipIdx =
      p.sheet.exports.zipIdx.map fun x => (x.1.mapUses (·.absoluteFrom base), x.2) := by
    rw [h.sheet]
    exact List.zipIdx_map
  rw [entries]
  refine .forM_map _ _ fun ⟨e, i⟩ => .get_bind fun p q h => ?_
  have register : Together (Respelled base) (modify (·.register e.name (.own i)) : PassM Unit)
      (modify (·.register e.name (.own i))) := .modify fun _ _ h => h.register e.name (.own i)
  rw [h.registry]
  exact .ite Iff.rfl ((together_report _ _).bind fun _ => register) register

variable (beside : c.Beside base c')

include beside

theorem together_exportsOf (source : String) :
    Together (Respelled base) (exportsOf c (c.pathOf source)) (exportsOf c' (c.pathOf source)) := by
  have loads : Together Session.Alike (c.load (c.pathOf source)) (c'.load (c.pathOf source)) := by
    rw [beside.load]
    exact beside.unbiased _
  have canonical : Path.absolute none (c.pathOf source) = c.pathOf source :=
    Path.absolute_absolute _ _
  refine .bind (.modify fun _ _ h => h.depend canonical) fun _ => ?_
  refine .bind (together_inSession loads) fun _ => .get_bind fun p q h => ?_
  rw [Session.exports_of_library h.session.library]
  exact .pure _

theorem together_applyImport (imp : ImportDirective) :
    Together (Respelled base) (applyImport c imp) (applyImport c' (imp.absoluteFrom base)) := by
  have path : c'.pathOf (imp.absoluteFrom base).source = c.pathOf imp.source :=
    beside.pathOf_absolute imp.source
  rw [applyImport, applyImport]
  dsimp only
  rw [path]
  refine .bind (together_exportsOf beside imp.source) fun es => .forM _ fun name => ?_
  cases (exportTable es).lookup name with
  | some i => exact .modify fun _ _ h => h.register name _
  | none => exact together_report _ _

theorem together_lookup (owner : Option String) (u : UseDirective) :
    Together (Respelled base) (lookup c owner u) (lookup c' owner (u.absoluteFrom base)) := by
  by_cases bare : u.source.getD "" = ""
  · rw [UseDirective.absoluteFrom_bare bare, Outset.lookup_bare bare, Outset.lookup_bare rfl]
    refine .get_bind fun p q h => ?_
    rw [h.registry]
    cases p.registry.lookup u.name with
    | some ref => exact .pure _
    | none => exact (together_report _ _).bind fun _ => .pure _
  · have some : (u.absoluteFrom base).source.getD "" ≠ "" := by
      rw [UseDirective.absoluteFrom_qualified bare]
      exact Path.absolute_ne_empty _ _
    have path : c'.pathOf ((u.absoluteFrom base).source.getD "") = c.pathOf (u.source.getD "") := by
      rw [UseDirective.absoluteFrom_qualified bare]
      exact beside.pathOf_absolute _
    have name : (u.absoluteFrom base).name = u.name := by
      rw [UseDirective.absoluteFrom_qualified bare]
    rw [Outset.lookup_qualified bare, Outset.lookup_qualified some, path, name]
    refine .bind (together_exportsOf beside _) fun es => ?_
    cases findExport u.name es with
    | some i => exact .pure _
    | none => exact (together_report _ _).bind fun _ => .pure _

omit beside in
theorem together_copyBlock {place : Place} (own : ∀ path i, place.block ≠ .foreign path i)
    (target : BlockRef) :
    Together (Respelled base) (copyBlock place target) (copyBlock place target) := by
  refine .get_bind fun p q h => ?_
  have children : (q.body target).children.length = (p.body target).children.length := by
    rw [h.body, Body.mapUses, StyleRule.mapUsesAll_eq_map, List.length_map]
  dsimp only
  rw [children]
  refine .bind (.modify fun p' q' h' => h'.append own ?_) fun _ => .forM _ fun i => ?_
  · rw [h.body]
    rfl
  · refine .modify fun p q h => ?_
    rw [h.body, Body.mapUses, StyleRule.mapUsesAll_eq_map, List.getElem?_map]
    cases (p.body target).children[i]? with
    | none => exact h
    | some r => exact h.append own rfl

theorem together_inlineUse {enter enter' : List String → BlockRef → PassM Unit}
    (entered : ∀ active block,
      Together (Respelled base) (enter active block) (enter' active block))
    (active : List String) (owner : Option String) {place : Place}
    (own : ∀ path i, place.block ≠ .foreign path i) (u : UseDirective) :
    Together (Respelled base) (inlineUse c enter active owner place u)
      (inlineUse c' enter' active owner place (u.absoluteFrom base)) := by
  rw [inlineUse, inlineUse]
  dsimp only
  rw [beside.keyOf]
  refine .ite Iff.rfl (together_report _ _) (.bind (together_lookup beside owner u) fun found => ?_)
  cases found with
  | none => exact .pure _
  | some target =>
    have copied (events events' : List Event) : Together (Respelled base)
        (do copyBlock place target; inSession (modify (·.log events)) : PassM Unit)
        (do copyBlock place target; inSession (modify (·.log events'))) :=
      (together_copyBlock own target).bind fun _ => together_inSession (together_log _ _)
    refine .get_bind fun p q h => .ite (by rw [h.done]) ?_ (copied _ _)
    refine .bind (entered _ target) fun _ => .bind (.modify fun _ _ h => ?_) fun _ => copied _ _
    exact h.markDone target

theorem together_inlineAt {enter enter' : List String → BlockRef → PassM Unit}
    (entered : ∀ active block,
      Together (Respelled base) (enter active block) (enter' active block))
    (active : List String) (owner : Option String) {block : BlockRef}
    (own : ∀ path i, block ≠ .foreign path i) (path : List Nat) :
    Together (Respelled base) (inlineAt c enter active owner block path)
      (inlineAt c' enter' active owner block path) := by
  refine .get_bind fun p q h => ?_
  have uses : (q.content ⟨block, path⟩).uses =
      (p.content ⟨block, path⟩).uses.map (·.absoluteFrom base) := by
    rw [Pass.content, Pass.content, h.body, Body.inside_mapUses]
    rfl
  rw [uses]
  refine .bind (.forM_map _ _ fun u => together_inlineUse beside entered active owner own u) ?_
  exact fun _ => .modify fun _ _ h => h.clearUses own

/-- By induction on the number of blocks that may still be entered. -/
theorem together_resolveBlock (depth : Nat) (active : List String) (block : BlockRef) :
    Together (Respelled base) (resolveBlock c depth active block)
      (resolveBlock c' depth active block) := by
  induction depth generalizing active block with
  | zero => exact .pure ()
  | succ depth ih =>
    by_cases foreign : ∃ path i, block = .foreign path i
    · -- blocks of other files have no uses, so nothing is done with them
      obtain ⟨path, i, rfl⟩ := foreign
      intro p q h
      have clean := h.session.clean
      have keys : (q.session.library.map Prod.fst).Nodup := h.session.library ▸ clean.keys
      have free := free_foreign_of_clean clean path i
      have free' : (q.body (.foreign path i)).allUses = [] := by
        rw [h.body, Body.mapUses_of_free _ free, free]
      have unchanged : Runs (resolveBlock c (depth + 1) active (.foreign path i)) p _ :=
        resolveBlock_foreign (depth + 1) clean.keys free
      have unchanged' : Runs (resolveBlock c' (depth + 1) active (.foreign path i)) q _ :=
        resolveBlock_foreign (depth + 1) keys free'
      obtain ⟨_, _, run, rfl⟩ := unchanged
      obtain ⟨_, _, run', rfl⟩ := unchanged'
      rw [run, run']
      exact ⟨rfl, h⟩
    · refine .get_bind fun p q h => ?_
      rw [h.body, Body.places_mapUses, h.nameOf]
      refine .forM _ fun path => together_inlineAt beside ih active _ ?_ path
      exact fun path i same => foreign ⟨path, i, same⟩

theorem together_resolveExport (depth : Nat) (block : BlockRef) :
    Together (Respelled base) (resolveExport c depth block) (resolveExport c' depth block) := by
  refine .get_bind fun p q h => ?_
  rw [h.nameOf]
  refine .ite (by rw [h.done]) ?_ (.pure ())
  refine .bind (together_resolveBlock beside depth _ block) fun _ => .modify fun _ _ h => ?_
  exact h.markDone block

theorem together_prepare (depth : Nat) :
    Together (Respelled base) (prepare c depth) (prepare c' depth) := by
  refine .bind together_registerExports fun _ => .get_bind fun p q h => ?_
  have imports : q.sheet.imports = p.sheet.imports.map (·.absoluteFrom base) := by
    rw [h.sheet]
    rfl
  rw [imports]
  refine .bind (.forM_map _ _ (together_applyImport beside)) fun _ => .get_bind fun p q h => ?_
  rw [h.registry]
  refine .bind (.forM _ fun entry => together_resolveExport beside depth entry.2) fun _ => ?_
  refine .get_bind fun p q h => ?_
  have exports : q.sheet.exports.length = p.sheet.exports.length := by
    rw [h.sheet]
    exact List.length_map _
  rw [exports]
  exact .forM _ fun i => together_resolveExport beside depth (.own i)

theorem together_resolveRules (depth : Nat) :
    Together (Respelled base) (resolveRules c depth) (resolveRules c' depth) := by
  refine .get_bind fun p q h => ?_
  have rules : q.sheet.rules.length = p.sheet.rules.length := by
    rw [h.sheet]
    exact List.length_map _
  rw [rules]
  exact .forM _ fun i => together_resolveBlock beside depth [] (.rule i)

theorem together_resolveAll (depth : Nat) :
    Together (Respelled base) (do prepare c depth; resolveRules c depth)
      (do prepare c' depth; resolveRules c' depth) :=
  (together_prepare beside depth).bind fun _ => together_resolveRules beside depth

end

end Reuse

end NestedStyles
