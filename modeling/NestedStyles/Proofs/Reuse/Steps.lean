import Mathlib.Data.List.Nodup
import NestedStyles.Proofs.Reuse.Focus
import NestedStyles.Reuse.Inline

/-!
# Steps of a pass

`Runs act p Q` says that a step succeeds from `p` and what holds then. The lemmas about
`Pass.setBody` say what a change of one block of the file leaves as it is. Copying a block into
another one of the file comes down to one such change (`copyBlock_runs`).
-/

namespace NestedStyles

namespace Reuse

/-! ## One step after the other -/

/-- After a step that succeeds the next one goes on from its state. -/
theorem bind_of_ok {σ ε α β : Type} {act : ExceptT ε (StateM σ) α}
    {next : α → ExceptT ε (StateM σ) β} {s s' : σ} {a : α} (h : act s = (.ok a, s')) :
    (act >>= next) s = next a s' := by
  simp only [Bind.bind, ExceptT.bind, ExceptT.mk, StateT.bind, h, ExceptT.bindCont]

/-- After a step that fails there is no next one. -/
theorem bind_of_error {σ ε α β : Type} {act : ExceptT ε (StateM σ) α}
    {next : α → ExceptT ε (StateM σ) β} {s s' : σ} {e : ε} (h : act s = (.error e, s')) :
    (act >>= next) s = (.error e, s') := by
  simp only [Bind.bind, ExceptT.bind, ExceptT.mk, StateT.bind, h, ExceptT.bindCont]
  rfl

/-- A step of the session leaves the rest of the pass as it is. -/
theorem inSession_of_run {α : Type} {act : SessionM α} {p : Pass} {result : Except Undecodable α}
    {s : Session} (run : act p.session = (result, s)) :
    inSession act p = (result, { p with session := s }) := by
  rw [inSession, run]

section

variable {c : Consumer} {path : String} {p : Pass} {s s' : Session}

/-- Once the file is loaded its exports are there. -/
theorem exportsOf_of_ok (run : c.load path s = (.ok (), s')) :
    exportsOf c path { p with session := s } =
      (.ok (s'.exports path), { p.depend path with session := s' }) := by
  have loaded : (inSession (c.load path) : PassM Unit) { p.depend path with session := s } =
      (.ok (), { p.depend path with session := s' }) := inSession_of_run run
  exact bind_of_ok loaded

/-- A file that cannot be loaded is asked for all the same. -/
theorem exportsOf_of_error {e : Undecodable} (run : c.load path s = (.error e, s')) :
    exportsOf c path { p with session := s } =
      (.error e, { p.depend path with session := s' }) := by
  have failed : (inSession (c.load path) : PassM Unit) { p.depend path with session := s } =
      (.error e, { p.depend path with session := s' }) := inSession_of_run run
  change (inSession (c.load path) >>= fun _ => get >>= fun q : Pass =>
    (pure (q.session.exports path) : PassM _)) { p.depend path with session := s } = _
  exact bind_of_error failed

end

/-! ## Lists that are gone through -/

section

variable {α : Type} {n k : Nat} {x : α}

/-- Where a list is gone through, the one whose turn it is belongs to it. -/
theorem mem_of_split {l before after : List α} (split : l = before ++ x :: after) : x ∈ l := by
  rw [split]
  exact List.mem_append_cons_self

theorem getElem?_of_split {l : List α} {before after : List (α × Nat)}
    (split : l.zipIdx = before ++ (x, k) :: after) : l[k]? = some x :=
  List.mk_mem_zipIdx_iff_getElem?.1 (mem_of_split split)

theorem lt_of_split {before after : List Nat} (split : List.range n = before ++ k :: after) :
    k < n :=
  List.mem_range.1 (mem_of_split split)

end

/-! ## Steps that succeed -/

/-- The step succeeds, with a result and a state of which `Q` holds. -/
def Runs {α : Type} (act : PassM α) (p : Pass) (Q : α → Pass → Prop) : Prop :=
  ∃ a p', act p = (.ok a, p') ∧ Q a p'

namespace Runs

variable {α β : Type} {p : Pass} {act : PassM α} {Q R : α → Pass → Prop}

theorem imp (h : Runs act p Q) (weaken : ∀ a p', Q a p' → R a p') : Runs act p R := by
  obtain ⟨a, p', run, hQ⟩ := h
  exact ⟨a, p', run, weaken a p' hQ⟩

theorem of_pure {a : α} (h : Q a p) : Runs (pure a) p Q :=
  ⟨a, p, rfl, h⟩

theorem of_modify {change : Pass → Pass} {Q : Unit → Pass → Prop} (h : Q () (change p)) :
    Runs (modify change) p Q :=
  ⟨(), change p, rfl, h⟩

theorem bind {next : α → PassM β} {S : β → Pass → Prop} (h : Runs act p Q)
    (step : ∀ a p', Q a p' → Runs (next a) p' S) : Runs (act >>= next) p S := by
  obtain ⟨a, p', run, hQ⟩ := h
  obtain ⟨b, p'', run', hS⟩ := step a p' hQ
  exact ⟨b, p'', (bind_of_ok run).trans run', hS⟩

theorem get_bind {next : Pass → PassM α} (h : Runs (next p) p Q) : Runs (get >>= next) p Q :=
  bind (Q := fun a p' => a = p ∧ p' = p) ⟨p, p, rfl, rfl, rfl⟩ fun _ _ ⟨ha, hp⟩ => by
    rw [ha, hp]
    exact h

theorem modify_bind {change : Pass → Pass} {next : Unit → PassM α}
    (h : Runs (next ()) (change p) Q) : Runs (modify change >>= next) p Q :=
  bind (Q := fun _ p' => p' = change p) (of_modify rfl) fun _ _ hp => by
    rw [hp]
    exact h

theorem forM_nil {step : α → PassM Unit} {Q : Unit → Pass → Prop} (h : Q () p) :
    Runs (List.forM [] step) p Q :=
  ⟨(), p, rfl, h⟩

theorem forM_cons {step : α → PassM Unit} {x : α} {xs : List α} {Q R : Unit → Pass → Prop}
    (first : Runs (step x) p R) (rest : ∀ p', R () p' → Runs (xs.forM step) p' Q) :
    Runs ((x :: xs).forM step) p Q :=
  first.bind fun _ p' h => rest p' h

theorem forM_append {step : α → PassM Unit} {xs ys : List α} {Q R : Unit → Pass → Prop}
    (first : Runs (xs.forM step) p R) (rest : ∀ p', R () p' → Runs (ys.forM step) p' Q) :
    Runs ((xs ++ ys).forM step) p Q := by
  have split : (xs ++ ys).forM step = xs.forM step >>= fun _ => ys.forM step := by
    simp only [List.forM_eq_forM, List.forM_append]
  rw [split]
  exact first.bind fun _ p' h => rest p' h

/-- A loop succeeds where each turn does and takes what holds of the entries behind it to what holds
with one entry more. -/
theorem forM {step : α → PassM Unit} {l : List α} {I : List α → Pass → Prop} (start : I [] p)
    (turn : ∀ before x after, l = before ++ x :: after → ∀ p', I before p' →
      Runs (step x) p' fun _ q => I (before ++ [x]) q) :
    Runs (l.forM step) p fun _ q => I l q := by
  suffices general : ∀ after before p', l = before ++ after → I before p' →
      Runs (after.forM step) p' fun _ q => I l q from general l [] p rfl start
  intro after
  induction after with
  | nil =>
    intro before p' split h
    rw [List.append_nil] at split
    exact forM_nil (split ▸ h)
  | cons x after ih =>
    intro before p' split h
    refine forM_cons (turn before x after split p' h) fun q hq => ?_
    exact ih (before ++ [x]) q (by rw [split, List.append_assoc, List.singleton_append]) hq

/-- A loop over the first numbers. -/
theorem forM_range {step : Nat → PassM Unit} {n : Nat} {I : Nat → Pass → Prop} (start : I 0 p)
    (turn : ∀ k < n, ∀ p', I k p' → Runs (step k) p' fun _ q => I (k + 1) q) :
    Runs ((List.range n).forM step) p fun _ q => I n q := by
  induction n with
  | zero => exact forM_nil start
  | succ n ih =>
    rw [List.range_succ]
    refine forM_append (ih fun k hk => turn k (Nat.lt_succ_of_lt hk)) fun p' hp' => ?_
    exact forM_cons (turn n (Nat.lt_succ_self n) p' hp') fun q hq => forM_nil hq

end Runs

/-! ## Changing one block of the file -/

/-- A change of one entry that keeps what is read from it keeps what is read from the list. -/
theorem map_modify_of_eq {α β : Type} {f : α → α} {g : α → β} (same : ∀ a, g (f a) = g a)
    (l : List α) (k : Nat) : (l.modify k f).map g = l.map g := by
  apply List.ext_getElem?
  intro j
  rw [List.getElem?_map, List.getElem?_map, List.getElem?_modify]
  by_cases h : k = j
  · cases l[j]? <;> simp [h, same]
  · simp [h]

/-- The block is one of the file itself. -/
def Holds (sheet : Stylesheet) : BlockRef → Prop
  | .own i => i < sheet.exports.length
  | .rule i => i < sheet.rules.length
  | .foreign _ _ => False

/-- Files with as many exports and rules hold blocks in the same places. -/
theorem Holds.congr {sheet sheet' : Stylesheet} {ref : BlockRef}
    (names : sheet'.exports.map ExportBlock.name = sheet.exports.map ExportBlock.name)
    (selectors : sheet'.rules.map StyleRule.selector = sheet.rules.map StyleRule.selector)
    (h : Holds sheet ref) : Holds sheet' ref := by
  have exports := congrArg List.length names
  have rules := congrArg List.length selectors
  rw [List.length_map, List.length_map] at exports rules
  cases ref with
  | own i => exact Nat.lt_of_lt_of_eq h exports.symm
  | rule i => exact Nat.lt_of_lt_of_eq h rules.symm
  | foreign => exact h

namespace Pass

variable {p : Pass} {ref other : BlockRef} {b b' : Body} {change : Body → Body}

/-- Gives a block other content. -/
def setBody (p : Pass) (ref : BlockRef) (b : Body) : Pass :=
  p.modifyBody (fun _ => b) ref

@[simp] theorem registry_setBody : (p.setBody ref b).registry = p.registry := by
  cases ref <;> rfl

@[simp] theorem dependencies_setBody : (p.setBody ref b).dependencies = p.dependencies := by
  cases ref <;> rfl

@[simp] theorem done_setBody : (p.setBody ref b).done = p.done := by
  cases ref <;> rfl

@[simp] theorem names_setBody :
    (p.setBody ref b).sheet.exports.map ExportBlock.name =
      p.sheet.exports.map ExportBlock.name := by
  cases ref with
  | own i => exact map_modify_of_eq (f := ExportBlock.modifyBody fun _ => b) (fun _ => rfl) _ _
  | rule | foreign => rfl

@[simp] theorem selectors_setBody :
    (p.setBody ref b).sheet.rules.map StyleRule.selector =
      p.sheet.rules.map StyleRule.selector := by
  cases ref with
  | rule i => exact map_modify_of_eq (f := StyleRule.modifyBody fun _ => b) (fun _ => rfl) _ _
  | own | foreign => rfl

theorem holds_setBody (h : Holds p.sheet other) : Holds (p.setBody ref b).sheet other :=
  h.congr names_setBody selectors_setBody

theorem session_setBody (h : Holds p.sheet ref) : (p.setBody ref b).session = p.session := by
  cases ref with
  | own | rule => rfl
  | foreign => exact h.elim

theorem body_setBody_self (h : Holds p.sheet ref) : (p.setBody ref b).body ref = b := by
  cases ref with
  | own i =>
    have := List.getElem?_eq_getElem h
    simp [setBody, modifyBody, body, export?, this, ExportBlock.modifyBody]
  | rule i =>
    have := List.getElem?_eq_getElem h
    simp [setBody, modifyBody, body, this, StyleRule.modifyBody]
  | foreign => exact h.elim

theorem body_setBody_of_ne (h : Holds p.sheet ref) (ne : other ≠ ref) :
    (p.setBody ref b).body other = p.body other := by
  cases ref with
  | own i =>
    cases other with
    | own j =>
      have : i ≠ j := fun same => ne (same ▸ rfl)
      simp [setBody, modifyBody, body, export?, this]
    | rule | foreign => rfl
  | rule i =>
    cases other with
    | rule j =>
      have : i ≠ j := fun same => ne (same ▸ rfl)
      simp [setBody, modifyBody, body, this]
    | own | foreign => rfl
  | foreign => exact h.elim

theorem setBody_setBody (h : Holds p.sheet ref) :
    (p.setBody ref b).setBody ref b' = p.setBody ref b' := by
  cases ref with
  | own i =>
    simp only [setBody, modifyBody, List.modify_modify_eq]
    rfl
  | rule i =>
    simp only [setBody, modifyBody, List.modify_modify_eq]
    rfl
  | foreign => exact h.elim

/-- Only what stands in the block now decides what a change makes of it. -/
theorem modifyBody_eq_setBody (h : Holds p.sheet ref) :
    p.modifyBody change ref = p.setBody ref (change (p.body ref)) := by
  cases ref with
  | own i =>
    have same : p.sheet.exports.modify i (ExportBlock.modifyBody change) =
        p.sheet.exports.modify i (ExportBlock.modifyBody fun _ => change (p.body (.own i))) :=
      modify_congr fun e he => by simp [body, export?, he, ExportBlock.modifyBody]
    rw [setBody, modifyBody, modifyBody, same]
  | rule i =>
    have same : p.sheet.rules.modify i (StyleRule.modifyBody change) =
        p.sheet.rules.modify i (StyleRule.modifyBody fun _ => change (p.body (.rule i))) :=
      modify_congr fun r hr => by simp [body, hr, StyleRule.modifyBody]
    rw [setBody, modifyBody, modifyBody, same]
  | foreign => exact h.elim

theorem modifyContent_eq_setBody {path : List Nat} {around : Body → Body} (h : Holds p.sheet ref)
    (focus : Focus path around) (content : p.body ref = around b) :
    p.modifyContent ⟨ref, path⟩ change = p.setBody ref (around (change b)) := by
  rw [modifyContent, modifyBody_eq_setBody h, content, focus.modifyAt]

theorem append_eq_setBody (h : Holds p.sheet ref) {path : List Nat} (more : Body) :
    p.append ⟨ref, path⟩ more = p.setBody ref ((p.body ref).modifyAt (· ++ more) path) :=
  modifyBody_eq_setBody h

theorem clearUses_eq_setBody (h : Holds p.sheet ref) {path : List Nat} :
    p.clearUses ⟨ref, path⟩ =
      p.setBody ref ((p.body ref).modifyAt (fun b => { b with uses := [] }) path) :=
  modifyBody_eq_setBody h

theorem session_append (h : Holds p.sheet ref) (path : List Nat) (more : Body) :
    (p.append ⟨ref, path⟩ more).session = p.session := by
  rw [append_eq_setBody h, session_setBody h]

theorem session_clearUses (h : Holds p.sheet ref) (path : List Nat) :
    (p.clearUses ⟨ref, path⟩).session = p.session := by
  rw [clearUses_eq_setBody h, session_setBody h]

/-- Content is added at a place piece by piece. -/
theorem append_append (h : Holds p.sheet ref) {path : List Nat} (first second : Body) :
    (p.append ⟨ref, path⟩ first).append ⟨ref, path⟩ second =
      p.append ⟨ref, path⟩ (first ++ second) := by
  have joined : (· ++ second) ∘ (· ++ first) = fun b : Body => b ++ (first ++ second) :=
    funext fun b => Body.append_assoc b first second
  rw [append_eq_setBody h, append_eq_setBody (holds_setBody h), body_setBody_self h,
    setBody_setBody h, Body.modifyAt_modifyAt, joined, append_eq_setBody h]

/-- Where a block of another file has no uses, taking them away changes nothing. -/
theorem clearUses_eq_self {file : String} {i : Nat} (path : List Nat)
    (keys : (p.session.library.map Prod.fst).Nodup)
    (free : (p.body (.foreign file i)).allUses = []) :
    p.clearUses ⟨.foreign file i, path⟩ = p := by
  have same : Table.modify (Path.absolute none file) (fun es : List ExportBlock => es.modify i
      (ExportBlock.modifyBody (Body.modifyAt (fun b => { b with uses := [] }) path)))
      p.session.library = p.session.library := by
    refine Table.modify_eq_self keys fun es hes => modify_eq_self_of_fixed fun e he => ?_
    have here : p.body (.foreign file i) = e.toBody := by
      simp [body, export?, Session.exports, Session.exports?, hes, he]
    rw [here] at free
    rw [ExportBlock.modifyBody, Body.modifyAt_clear free]
  rw [clearUses, modifyContent, modifyBody, Session.modifyExports, same]

end Pass

/-! ## Steps on whole blocks -/

variable {c : Consumer} {p : Pass} {active : List String}

/-- Resolving a block of another file that has no uses changes nothing. -/
theorem resolveBlock_foreign {file : String} {i : Nat} (depth : Nat)
    (keys : (p.session.library.map Prod.fst).Nodup)
    (free : (p.body (.foreign file i)).allUses = []) :
    Runs (resolveBlock c depth active (.foreign file i)) p fun _ q => q = p := by
  cases depth with
  | zero => exact .of_pure rfl
  | succ depth =>
    refine .get_bind (.forM (I := fun _ q => q = p) rfl ?_)
    intro before path after _ q hq
    have none : (p.content ⟨.foreign file i, path⟩).uses = [] :=
      Body.uses_inside_of_free free path
    rw [hq]
    refine .get_bind ?_
    rw [none]
    refine .bind (.forM_nil (Q := fun _ q => q = p) rfl) fun _ q hq => ?_
    rw [hq]
    exact .of_modify (Pass.clearUses_eq_self path keys free)

/-- Copying a block that has no uses of its own adds its content. -/
theorem copyBlock_appends {ref target : BlockRef} {path : List Nat} {t : Body}
    (h : Holds p.sheet ref) (other : target ≠ ref)
    (copied : p.body target = t) (free : t.uses = []) :
    Runs (copyBlock ⟨ref, path⟩ target) p fun _ q => q = p.append ⟨ref, path⟩ t := by
  refine .get_bind (.modify_bind ?_)
  rw [copied]
  let upTo (n : Nat) : Body := ⟨t.classes, t.declarations, [], t.children.take n⟩
  refine .imp (.forM_range (I := fun n q => q = p.append ⟨ref, path⟩ (upTo n)) ?_ ?_) ?_
  · rw [show upTo 0 = { t with uses := [], children := [] } from rfl]
  · intro n hn q hq
    have rule : t.children[n]? = some t.children[n] := List.getElem?_eq_getElem hn
    have here : q.body target = t := by
      rw [hq, Pass.append_eq_setBody h, Pass.body_setBody_of_ne h other, copied]
    have more : upTo n ++ { Body.empty with children := [t.children[n]] } = upTo (n + 1) := by
      have next : t.children.take n ++ [t.children[n]] = t.children.take (n + 1) := by
        rw [List.take_add_one, rule, Option.toList_some]
      change Body.mk _ _ _ _ = _
      simp only [upTo, Body.empty, List.append_nil, next]
    refine .of_modify ?_
    rw [here, rule, hq]
    change Pass.append _ _ _ = _
    rw [Pass.append_append h, more]
  · intro _ q hq
    have all : upTo t.children.length = t := by
      change Body.mk _ _ _ _ = _
      rw [List.take_length, ← free]
    rw [hq, all]

/-- A block without uses is copied to the end of the content in focus. -/
theorem copyBlock_runs {ref target : BlockRef} {path : List Nat} {around : Body → Body}
    {b t : Body} (h : Holds p.sheet ref) (focus : Focus path around)
    (content : p.body ref = around b) (other : target ≠ ref) (copied : p.body target = t)
    (free : t.uses = []) :
    Runs (copyBlock ⟨ref, path⟩ target) p fun _ q => q = p.setBody ref (around (b ++ t)) := by
  refine (copyBlock_appends h other copied free).imp ?_
  rintro _ q rfl
  rw [Pass.append, Pass.modifyContent_eq_setBody h focus content]

/-! ## Whole passes -/

variable {sheet : Stylesheet} {s : Session} {q : Pass} {e : Undecodable}

/-- A pass can enter more blocks than there are uses in its file. -/
theorem allUses_lt_start (s : Session) (sheet : Stylesheet) :
    sheet.allUses.length < (Pass.start s sheet).allUses.length + 1 := by
  rw [Pass.allUses, List.length_append]
  exact Nat.lt_succ_of_le (Nat.le_add_right _ _)

/-- A pass whose steps succeed. -/
theorem runPass_of_ok {steps : Nat → PassM Unit}
    (run : steps ((Pass.start s sheet).allUses.length + 1) (Pass.start s sheet) = (.ok (), q)) :
    runPass sheet steps s = (.ok ⟨q.sheet, q.dependencies⟩, q.session) := by
  rw [runPass, run]
  rfl

/-- A pass in which a step fails. -/
theorem runPass_of_error {steps : Nat → PassM Unit}
    (run : steps ((Pass.start s sheet).allUses.length + 1) (Pass.start s sheet) = (.error e, q)) :
    runPass sheet steps s = (.error e, q.session) := by
  rw [runPass, run]
  rfl

end Reuse

end NestedStyles
