import NestedStyles.Proofs.Reuse.Inquiry

/-!
# The course of a pass

A pass calls its loader again and again and goes on from the session it is left with. Nothing is
asked of the loader here but that it keeps blocks without uses and that sessions go on in some
order (`Loading.Lawful`). `Course` says that a step succeeds and which calls it makes. With every
loader that echoes these calls, in a session that is alike, the step does the same (`Course.again`).

`Proceeds L file act p Q` says that a step either has such a course, to a result and a pass of which
`Q` holds, or fails in a call that fails. It is a calculus like that of `Runs`.
-/

namespace NestedStyles

open Reuse in
/-- Each file is known once, and no block that is known has uses. -/
structure Session.Clean (s : Session) : Prop where
  keys : (s.library.map Prod.fst).Nodup
  free : ∀ entry ∈ s.library, Inquiry.Free entry.2

namespace Session.Clean

variable {s : Session}

theorem log (h : s.Clean) (events : List Reuse.Event) : (s.log events).Clean :=
  ⟨h.keys, h.free⟩

theorem record (h : s.Clean) (file : String) (providers : List String) :
    (s.record file providers).Clean :=
  ⟨h.keys, h.free⟩

end Session.Clean

namespace Reuse

/-! ## Loaders -/

/-- A loader, the sessions it works in and the order in which these go on. -/
structure Loading where
  load : String → SessionM Unit
  ready : Session → Prop
  grows : Session → Session → Prop

/-- A call of a loader: the file that is asked for, by its absolute path, and the session it is
asked for in. -/
structure Call where
  path : String
  canonical : Path.absolute none path = path
  session : Session

namespace Loading

/-- The loader stays among the sessions it works in, in which blocks have no uses. -/
structure Lawful (L : Loading) : Prop where
  refl : ∀ s, L.grows s s
  trans : ∀ {s t u}, L.grows s t → L.grows t u → L.grows s u
  log : ∀ {s}, L.ready s → ∀ events, L.ready (s.log events) ∧ L.grows s (s.log events)
  load : ∀ {s}, L.ready s → ∀ path,
    L.ready (L.load path s).2 ∧ L.grows s (L.load path s).2
  clean : ∀ {s}, L.ready s → s.Clean

/-- What comes of a call. -/
def result (L : Loading) (call : Call) : Except Undecodable Unit :=
  (L.load call.path call.session).1

/-- The session after a call. -/
def after (L : Loading) (call : Call) : Session :=
  (L.load call.path call.session).2

/-- In a session that is alike another loader answers the call as this one does. -/
def Echoes (L : Loading) (load : String → SessionM Unit)
    (alike : List String → Session → Session → Prop) (call : Call) : Prop :=
  ∀ asked t, alike asked call.session t →
    ∃ t', load call.path t = (.ok (), t') ∧ alike (call.path :: asked) (L.after call) t'

end Loading

/-- Sessions are alike as far as these files were asked for. -/
structure Likeness (alike : List String → Session → Session → Prop) : Prop where
  mono : ∀ {asked asked' s t}, asked' ⊆ asked → alike asked s t → alike asked' s t
  exports : ∀ {asked s t}, alike asked s t → ∀ path ∈ asked, t.exports path = s.exports path
  log : ∀ {asked s t}, alike asked s t → ∀ events, alike asked (s.log events) (t.log events)
  keys : ∀ {asked s t}, alike asked s t → (t.library.map Prod.fst).Nodup

variable {α β : Type} {L : Loading} {file : String} {p q : Pass}
variable {act : Consumer → PassM α} {Q R : α → Pass → Prop}

theorem Likeness.sees {alike : List String → Session → Session → Prop} (h : Likeness alike)
    {s : Session} (same : alike p.dependencies p.session s) : Sees p s :=
  ⟨h.keys same, h.exports same⟩

/-! ## Steps that take their course -/

/-- The step succeeds with these calls, and it does so again wherever they are echoed. -/
structure Course (L : Loading) (file : String) (act : Consumer → PassM α) (p : Pass)
    (calls : List Call) (a : α) (q : Pass) : Prop where
  run : act ⟨file, L.load⟩ p = (.ok a, q)
  ready : L.ready q.session
  grows : L.grows p.session q.session
  asked : p.dependencies ⊆ q.dependencies
  called : ∀ call ∈ calls, L.ready call.session ∧ call.path ∈ q.dependencies ∧
    L.result call = .ok () ∧ L.grows (L.after call) q.session
  again : ∀ {alike load s}, Likeness alike → (∀ call ∈ calls, L.Echoes load alike call) →
    alike p.dependencies p.session s →
    ∃ s', act ⟨file, load⟩ { p with session := s } = (.ok a, { q with session := s' }) ∧
      alike q.dependencies q.session s'

/-- The step fails, in a call that fails. -/
def Breaks (L : Loading) (file : String) (act : Consumer → PassM α) (p : Pass) : Prop :=
  ∃ call e q, L.ready call.session ∧ L.result call = .error e ∧
    act ⟨file, L.load⟩ p = (.error e, q) ∧ L.ready q.session ∧ L.grows p.session q.session

/-- From a session the loader works in, the step takes a course after which `Q` holds, or fails
together with the loader. -/
def Proceeds (L : Loading) (file : String) (act : Consumer → PassM α) (p : Pass)
    (Q : α → Pass → Prop) : Prop :=
  L.ready p.session → (∃ calls a q, Course L file act p calls a q ∧ Q a q) ∨ Breaks L file act p

namespace Proceeds

theorem imp (h : Proceeds L file act p Q) (weaken : ∀ a q, Q a q → R a q) :
    Proceeds L file act p R := by
  intro ready
  refine (h ready).imp_left ?_
  rintro ⟨calls, a, q, course, hQ⟩
  exact ⟨calls, a, q, course, weaken a q hQ⟩

theorem congr {act' : Consumer → PassM α} (same : ∀ load, act ⟨file, load⟩ = act' ⟨file, load⟩)
    (h : Proceeds L file act' p Q) : Proceeds L file act p Q := by
  intro ready
  rcases h ready with ⟨calls, a, q, course, hQ⟩ | ⟨call, e, q, before, fails, run, after⟩
  · refine .inl ⟨calls, a, q, { course with run := ?_, again := ?_ }, hQ⟩
    · rw [same, course.run]
    · intro alike load s
      rw [same load]
      exact course.again
  · exact .inr ⟨call, e, q, before, fails, by rw [same, run], after⟩

theorem of_pos {cond : Consumer → Prop} [DecidablePred cond] {no : Consumer → PassM α}
    (holds : ∀ load, cond ⟨file, load⟩) (h : Proceeds L file act p Q) :
    Proceeds L file (fun c => if cond c then act c else no c) p Q :=
  h.congr fun load => if_pos (holds load)

theorem of_neg {cond : Consumer → Prop} [DecidablePred cond] {yes : Consumer → PassM α}
    (fails : ∀ load, ¬ cond ⟨file, load⟩) (h : Proceeds L file act p Q) :
    Proceeds L file (fun c => if cond c then yes c else act c) p Q :=
  h.congr fun load => if_neg (fails load)

/-- A step that calls for nothing and does the same in every session that looks the same. -/
theorem quiet (lawful : L.Lawful) {a : α} (q : Pass) (events : List Event)
    (run : ∀ load s, Sees p s →
      act ⟨file, load⟩ { p with session := s } = (.ok a, { q with session := s.log events }))
    (asked : q.dependencies = p.dependencies)
    (h : Q a { q with session := p.session.log events }) : Proceeds L file act p Q := by
  intro ready
  obtain ⟨ready', grows⟩ := lawful.log ready events
  refine .inl ⟨[], a, _, ?_, h⟩
  constructor
  case run => exact run L.load p.session ⟨(lawful.clean ready).keys, fun _ _ => rfl⟩
  case ready => exact ready'
  case grows => exact grows
  case asked => exact asked ▸ List.Subset.refl _
  case called => exact fun _ mem => absurd mem List.not_mem_nil
  case again =>
    intro alike load s likeness _ same
    refine ⟨_, run load s (likeness.sees same), ?_⟩
    have later := likeness.log same events
    rwa [← asked] at later

theorem log_nil (s : Session) : s.log [] = s := by
  rw [Session.log, List.append_nil]

theorem of_pure (lawful : L.Lawful) {a : α} (h : Q a p) :
    Proceeds L file (fun _ => pure a) p Q :=
  quiet lawful p [] (fun _ s _ => by rw [log_nil]; rfl) rfl (by rw [log_nil]; exact h)

/-- A change that does not look at the session. -/
theorem of_modify (lawful : L.Lawful) {change : Consumer → Pass → Pass} {Q : Unit → Pass → Prop}
    (q : Pass)
    (run : ∀ load s, change ⟨file, load⟩ { p with session := s } = { q with session := s })
    (asked : q.dependencies = p.dependencies) (h : Q () { q with session := p.session }) :
    Proceeds L file (fun c => modify (change c)) p Q := by
  refine quiet lawful q [] (fun load s _ => ?_) asked (by rw [log_nil]; exact h)
  rw [log_nil]
  exact congrArg (Prod.mk (Except.ok ())) (run load s)

/-- A fault that is written down. -/
theorem of_report (lawful : L.Lawful) (f : Fault) {Q : Unit → Pass → Prop}
    (h : ∀ events, Q () { p with session := p.session.log events }) :
    Proceeds L file (fun c => modify (·.report c f)) p Q :=
  quiet lawful p [.fault file f] (fun _ _ _ => rfl) rfl (h _)

theorem bind (lawful : L.Lawful) {next : Consumer → α → PassM β} {R : β → Pass → Prop}
    (h : Proceeds L file act p Q)
    (step : ∀ a q, Q a q → Proceeds L file (fun c => next c a) q R) :
    Proceeds L file (fun c => act c >>= next c) p R := by
  intro ready
  rcases h ready with ⟨calls, a, q, first, hQ⟩ | ⟨call, e, q, before, fails, run, after⟩
  · rcases step a q hQ first.ready with ⟨calls', b, r, second, hR⟩ |
      ⟨call, e, r, before, fails, run, after, grows⟩
    · refine .inl ⟨calls ++ calls', b, r, ?_, hR⟩
      constructor
      case run => exact (bind_of_ok first.run).trans second.run
      case ready => exact second.ready
      case grows => exact lawful.trans first.grows second.grows
      case asked => exact List.Subset.trans first.asked second.asked
      case called =>
        intro call mem
        rcases List.mem_append.1 mem with mem | mem
        · obtain ⟨before, asked, result, grows⟩ := first.called call mem
          exact ⟨before, second.asked asked, result, lawful.trans grows second.grows⟩
        · exact second.called call mem
      case again =>
        intro alike load s likeness echoes same
        obtain ⟨s', run, same'⟩ := first.again likeness
          (fun call mem => echoes call (List.mem_append_left _ mem)) same
        obtain ⟨s'', run', same''⟩ := second.again likeness
          (fun call mem => echoes call (List.mem_append_right _ mem)) same'
        exact ⟨s'', (bind_of_ok run).trans run', same''⟩
    · exact .inr ⟨call, e, r, before, fails, (bind_of_ok first.run).trans run, after,
        lawful.trans first.grows grows⟩
  · exact .inr ⟨call, e, q, before, fails, bind_of_error run, after⟩

theorem assoc {γ : Type} {first : Consumer → PassM γ} {next : Consumer → γ → PassM β}
    {last : Consumer → β → PassM α}
    (h : Proceeds L file (fun c => (first c >>= next c) >>= last c) p Q) :
    Proceeds L file (fun c => first c >>= fun a => next c a >>= last c) p Q :=
  h.congr fun _ => (bind_assoc ..).symm

/-- A step that looks only at what is the same in every session that looks the same. -/
theorem get_bind (lawful : L.Lawful) {f : Consumer → Pass → PassM α}
    (same : ∀ load s, Sees p s → f ⟨file, load⟩ { p with session := s } = f ⟨file, load⟩ p)
    (h : Proceeds L file (fun c => f c p) p Q) :
    Proceeds L file (fun c => get >>= f c) p Q := by
  have run {load : String → SessionM Unit} {s : Session} (sees : Sees p s) :
      (get >>= f ⟨file, load⟩ : PassM α) { p with session := s } =
        f ⟨file, load⟩ p { p with session := s } := by
    rw [← same load s sees]
    rfl
  intro ready
  have here : Sees p p.session := ⟨(lawful.clean ready).keys, fun _ _ => rfl⟩
  rcases h ready with ⟨calls, a, q, course, hQ⟩ | ⟨call, e, q, before, fails, broken, after⟩
  · refine .inl ⟨calls, a, q, { course with run := (run here).trans course.run, again := ?_ }, hQ⟩
    intro alike load s likeness echoes alike'
    rw [run (likeness.sees alike')]
    exact course.again likeness echoes alike'
  · exact .inr ⟨call, e, q, before, fails, (run here).trans broken, after⟩

/-- A loop in which each turn takes what holds of the entries behind it to what holds with one entry
more. -/
theorem forM (lawful : L.Lawful) {γ : Type} {step : Consumer → γ → PassM Unit} {l : List γ}
    {I : List γ → Pass → Prop} (start : I [] p)
    (turn : ∀ before x after, l = before ++ x :: after → ∀ q, I before q →
      Proceeds L file (fun c => step c x) q fun _ r => I (before ++ [x]) r) :
    Proceeds L file (fun c => l.forM (step c)) p fun _ q => I l q := by
  suffices general : ∀ after before q, l = before ++ after → I before q →
      Proceeds L file (fun c => after.forM (step c)) q fun _ r => I l r from
    general l [] p rfl start
  intro after
  induction after with
  | nil =>
    intro before q split h
    rw [List.append_nil] at split
    exact of_pure lawful (split ▸ h)
  | cons x after ih =>
    intro before q split h
    refine bind lawful (turn before x after split q h) fun _ r hr => ?_
    exact ih (before ++ [x]) r (by rw [split, List.append_assoc, List.singleton_append]) hr

/-- A step that proceeds goes on in the order of sessions. -/
theorem also (h : Proceeds L file act p Q)
    (more : ∀ a q, L.grows p.session q.session → p.dependencies ⊆ q.dependencies → Q a q →
      R a q) : Proceeds L file act p R := by
  intro ready
  refine (h ready).imp_left ?_
  rintro ⟨calls, a, q, course, hQ⟩
  exact ⟨calls, a, q, course, more a q course.grows course.asked hQ⟩

/-- What is known of a step in two ways. -/
theorem and (h : Proceeds L file act p Q) (h' : Proceeds L file act p R) :
    Proceeds L file act p fun a q => Q a q ∧ R a q := by
  intro ready
  rcases h ready with ⟨calls, a, q, course, hQ⟩ | breaks
  · rcases h' ready with ⟨_, a', q', course', hR⟩ | ⟨_, e, q', -, -, run, -⟩
    · have same := course.run.symm.trans course'.run
      cases same
      exact .inl ⟨calls, a, q, course, hQ, hR⟩
    · cases course.run.symm.trans run
  · exact .inr breaks

end Proceeds

end Reuse

end NestedStyles
