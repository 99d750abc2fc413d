import NestedStyles.Proofs.Reuse.Clearing
import NestedStyles.Proofs.Reuse.Steps
import NestedStyles.Proofs.Reuse.Paths

/-!
# What a pass asks of other files

A pass takes from other files nothing but their exports, and it asks for these one file after the
other. An inquiry is such a computation without the session it runs in: a tree of questions whose
answers decide what is asked next. Equal answers to the questions that are asked lead to equal
results (`Inquiry.congr`).

`Inquires file sources act p Q` says that a step of a pass over `file` is described by an inquiry
that asks only for `sources`. It is a calculus like that of `Runs`, except that questions may fail
and that the session is left open: a loader that gives the answers can be put in its place.
-/

namespace NestedStyles

namespace Reuse

/-- What comes of asking for the exports of a file. -/
abbrev Answer := Except Undecodable (List ExportBlock)

/-- Questions for the exports of files, one after the other, and what comes of them. -/
inductive Inquiry (α : Type)
  | done (result : α)
  | ask (path : String) (next : List ExportBlock → Inquiry α)

namespace Inquiry

variable {α β : Type} {answer answer' : String → Answer}

/-- What comes of an inquiry with these answers. -/
def result (answer : String → Answer) : Inquiry α → Except Undecodable α
  | done a => .ok a
  | ask path next =>
    match answer path with
    | .ok es => (next es).result answer
    | .error e => .error e

/-- The files that are asked for with these answers. -/
def asked (answer : String → Answer) : Inquiry α → List String
  | done _ => []
  | ask path next =>
    path :: match answer path with
      | .ok es => (next es).asked answer
      | .error _ => []

/-- One inquiry after the other. -/
def bind (T : Inquiry α) (f : α → Inquiry β) : Inquiry β :=
  match T with
  | done a => f a
  | ask path next => ask path fun es => (next es).bind f

theorem result_bind (T : Inquiry α) (f : α → Inquiry β) :
    (T.bind f).result answer = T.result answer >>= fun a => (f a).result answer := by
  induction T with
  | done a => rfl
  | ask path next ih =>
    rw [bind, result, result]
    cases answer path with
    | ok es => exact ih es
    | error e => rfl

theorem asked_bind_of_ok {T : Inquiry α} {a : α} (f : α → Inquiry β)
    (h : T.result answer = .ok a) :
    (T.bind f).asked answer = T.asked answer ++ (f a).asked answer := by
  induction T with
  | done b =>
    cases h
    rfl
  | ask path next ih =>
    rw [result] at h
    rw [bind, asked, asked]
    cases found : answer path with
    | ok es =>
      rw [found] at h
      exact congrArg (path :: ·) (ih es h)
    | error e =>
      rw [found] at h
      cases h

theorem asked_bind_of_error {T : Inquiry α} {e : Undecodable} (f : α → Inquiry β)
    (h : T.result answer = .error e) : (T.bind f).asked answer = T.asked answer := by
  induction T with
  | done b => cases h
  | ask path next ih =>
    rw [result] at h
    rw [bind, asked, asked]
    cases found : answer path with
    | ok es =>
      rw [found] at h
      exact congrArg (path :: ·) (ih es h)
    | error e => rfl

theorem asked_subset_bind (T : Inquiry α) (f : α → Inquiry β) :
    T.asked answer ⊆ (T.bind f).asked answer := by
  cases h : T.result answer with
  | ok a =>
    rw [asked_bind_of_ok f h]
    exact List.subset_append_left _ _
  | error e => rw [asked_bind_of_error f h]; exact fun _ h => h

/-- With the same answers to what is asked both times an inquiry takes the same course. -/
theorem congr {T : Inquiry α}
    (same : ∀ path ∈ T.asked answer, path ∈ T.asked answer' → answer' path = answer path) :
    T.result answer' = T.result answer ∧ T.asked answer' = T.asked answer := by
  induction T with
  | done a => exact ⟨rfl, rfl⟩
  | ask path next ih =>
    rw [asked, asked] at same
    have here : answer' path = answer path :=
      same path List.mem_cons_self List.mem_cons_self
    rw [result, result, asked, asked, here]
    cases found : answer path with
    | ok es =>
      rw [here, found] at same
      obtain ⟨results, questions⟩ := ih es fun q hq hq' =>
        same q (List.mem_cons_of_mem path hq) (List.mem_cons_of_mem path hq')
      exact ⟨results, congrArg (path :: ·) questions⟩
    | error e => exact ⟨rfl, rfl⟩

/-- Blocks without uses. -/
def Free (es : List ExportBlock) : Prop :=
  ∀ e ∈ es, e.toBody.allUses = []

/-- As long as the answers are blocks without uses, only these files are asked for and the results
have this property. -/
def All (sources : List String) (Q : α → Prop) : Inquiry α → Prop
  | done a => Q a
  | ask path next => path ∈ sources ∧ ∀ es, Free es → (next es).All sources Q

variable {sources : List String} {Q R : α → Prop}

theorem All.imp {T : Inquiry α} (h : T.All sources Q) (weaken : ∀ a, Q a → R a) :
    T.All sources R := by
  induction T with
  | done a => exact weaken a h
  | ask path next ih => exact ⟨h.1, fun es free => ih es (h.2 es free)⟩

theorem All.bind {S : β → Prop} {T : Inquiry α} {f : α → Inquiry β} (h : T.All sources Q)
    (next : ∀ a, Q a → (f a).All sources S) : (T.bind f).All sources S := by
  induction T with
  | done a => exact next a h
  | ask path further ih => exact ⟨h.1, fun es free => ih es (h.2 es free)⟩

/-- What is asked and what comes of it. -/
theorem All.of_free {T : Inquiry α} (h : T.All sources Q)
    (free : ∀ path ∈ T.asked answer, ∀ es, answer path = .ok es → Free es) :
    T.asked answer ⊆ sources ∧ ∀ a, T.result answer = .ok a → Q a := by
  induction T with
  | done a =>
    refine ⟨List.nil_subset _, fun b hb => ?_⟩
    cases hb
    exact h
  | ask path next ih =>
    rw [asked] at free ⊢
    rw [result]
    cases found : answer path with
    | ok es =>
      rw [found] at free
      have here : Free es := free path List.mem_cons_self es found
      obtain ⟨questions, results⟩ := ih es (h.2 es here) fun q hq =>
        free q (List.mem_cons_of_mem path hq)
      exact ⟨List.cons_subset.2 ⟨h.1, questions⟩, results⟩
    | error e =>
      refine ⟨List.cons_subset.2 ⟨h.1, List.nil_subset _⟩, fun b hb => ?_⟩
      cases hb

end Inquiry

/-! ## Loaders that answer -/

/-- Answers, with what is known of the sessions they are given in. -/
structure Source where
  answer : String → Answer
  /-- The files that may be asked for. -/
  asked : String → Prop
  /-- The sessions in which the loader works. -/
  ready : Session → Prop
  /-- The exports of the file are known in the session, if it has any. -/
  kept : String → Session → Prop

/-- The loader gives these answers, and what was asked once stays known. -/
structure Consumer.Answers (c : Consumer) (S : Source) : Prop where
  load : ∀ path s, S.asked path → S.ready s →
    ∃ s', c.load path s = ((S.answer path).map fun _ => (), s') ∧ S.ready s' ∧
      (∀ es, S.answer path = .ok es → S.kept path s') ∧
      ∀ other, S.asked other → S.kept other s → S.kept other s'
  exports : ∀ path s es, S.asked path → S.ready s → S.kept path s → S.answer path = .ok es →
    s.exports path = es
  log : ∀ s events, S.ready s →
    S.ready (s.log events) ∧ ∀ path, S.kept path s → S.kept path (s.log events)
  keys : ∀ s, S.ready s → (s.library.map Prod.fst).Nodup
  free : ∀ path es, S.asked path → S.answer path = .ok es → Inquiry.Free es

/-- The session can stand in for that of the pass: it knows the files that were asked for. -/
structure Source.Stands (S : Source) (p : Pass) (s : Session) : Prop where
  ready : S.ready s
  known : ∀ path ∈ p.dependencies,
    S.asked path ∧ S.kept path s ∧ S.answer path = .ok (p.session.exports path)

/-- The exports of the files that were asked for are the same in the session as in the pass. -/
def Sees (p : Pass) (s : Session) : Prop :=
  (s.library.map Prod.fst).Nodup ∧ ∀ path ∈ p.dependencies, s.exports path = p.session.exports path

theorem Consumer.Answers.sees {c : Consumer} {S : Source} {p : Pass} {s : Session}
    (answers : c.Answers S) (stands : S.Stands p s) : Sees p s := by
  refine ⟨answers.keys s stands.ready, fun path known => ?_⟩
  obtain ⟨asked, kept, answer⟩ := stands.known path known
  exact answers.exports path s _ asked stands.ready kept answer

/-! ## Steps that are inquiries -/

variable {α β : Type}

/-- Wherever the questions are answered the step takes the course of the inquiry. -/
def Inquiry.Describes (T : Inquiry (α × Pass)) (file : String) (act : Consumer → PassM α)
    (p : Pass) : Prop :=
  ∀ (S : Source) (load : String → SessionM Unit) (s : Session),
    (Consumer.mk file load).Answers S → (∀ path ∈ T.asked S.answer, S.asked path) → S.Stands p s →
    match T.result S.answer with
    | .ok (a, q) => ∃ s', act ⟨file, load⟩ { p with session := s } =
        (.ok a, { q with session := s' }) ∧ S.Stands q s' ∧ p.dependencies ⊆ q.dependencies ∧
          T.asked S.answer ⊆ q.dependencies
    | .error e => ∃ q, act ⟨file, load⟩ { p with session := s } = (.error e, q) ∧ S.ready q.session

/-- The step is an inquiry that asks only for `sources`, with results of which `Q` holds. -/
def Inquires (file : String) (sources : List String) (act : Consumer → PassM α) (p : Pass)
    (Q : α → Pass → Prop) : Prop :=
  ∃ T : Inquiry (α × Pass), T.Describes file act p ∧ T.All sources fun x => Q x.1 x.2

namespace Inquires

variable {file : String} {sources : List String} {p : Pass} {Q R : α → Pass → Prop}
variable {act : Consumer → PassM α}

theorem imp (h : Inquires file sources act p Q) (weaken : ∀ a q, Q a q → R a q) :
    Inquires file sources act p R := by
  obtain ⟨T, describes, all⟩ := h
  exact ⟨T, describes, all.imp fun x => weaken x.1 x.2⟩

theorem congr {act' : Consumer → PassM α} (same : ∀ load, act ⟨file, load⟩ = act' ⟨file, load⟩)
    (h : Inquires file sources act' p Q) : Inquires file sources act p Q := by
  obtain ⟨T, describes, all⟩ := h
  refine ⟨T, fun S load s => ?_, all⟩
  rw [same load]
  exact describes S load s

theorem of_pos {cond : Consumer → Prop} [DecidablePred cond] {no : Consumer → PassM α}
    (holds : ∀ load, cond ⟨file, load⟩) (h : Inquires file sources act p Q) :
    Inquires file sources (fun c => if cond c then act c else no c) p Q :=
  h.congr fun load => if_pos (holds load)

theorem of_neg {cond : Consumer → Prop} [DecidablePred cond] {yes : Consumer → PassM α}
    (fails : ∀ load, ¬ cond ⟨file, load⟩) (h : Inquires file sources act p Q) :
    Inquires file sources (fun c => if cond c then yes c else act c) p Q :=
  h.congr fun load => if_neg (fails load)

/-- A step that asks for nothing and does the same in every session. -/
theorem quiet {a : α} {q : Pass} (run : ∀ load s, Sees p s → ∃ events,
      act ⟨file, load⟩ { p with session := s } = (.ok a, { q with session := s.log events }))
    (deps : q.dependencies = p.dependencies)
    (exports : ∀ path ∈ p.dependencies, q.session.exports path = p.session.exports path)
    (h : Q a q) : Inquires file sources act p Q := by
  refine ⟨.done (a, q), fun S load s answers _ stands => ?_, h⟩
  obtain ⟨events, run⟩ := run load s (answers.sees stands)
  obtain ⟨ready, kept⟩ := answers.log s events stands.ready
  refine ⟨_, run, ⟨ready, fun path known => ?_⟩, fun path known => deps ▸ known,
    List.nil_subset _⟩
  rw [deps] at known
  obtain ⟨asked, here, answer⟩ := stands.known path known
  exact ⟨asked, kept path here, by rw [answer, exports path known]⟩

theorem of_pure {a : α} (h : Q a p) : Inquires file sources (fun _ => pure a) p Q :=
  quiet (fun _ s _ => ⟨[], by rw [Session.log, List.append_nil]; rfl⟩) rfl (fun _ _ => rfl) h

/-- A change that does not look at the session. -/
theorem of_modify {change : Consumer → Pass → Pass} {Q : Unit → Pass → Prop} (q : Pass)
    (run : ∀ load s, change ⟨file, load⟩ { p with session := s } = { q with session := s })
    (deps : q.dependencies = p.dependencies) (session : q.session = p.session) (h : Q () q) :
    Inquires file sources (fun c => modify (change c)) p Q := by
  refine quiet (fun load s _ => ⟨[], ?_⟩) deps (fun path _ => by rw [session]) h
  rw [Session.log, List.append_nil]
  exact congrArg (Prod.mk (Except.ok ())) (run load s)

/-- A step that only writes events down. -/
theorem of_log {change : Consumer → Pass → Pass} {Q : Unit → Pass → Prop}
    (run : ∀ load s, ∃ events,
      change ⟨file, load⟩ { p with session := s } = { p with session := s.log events })
    (h : Q () p) : Inquires file sources (fun c => modify (change c)) p Q := by
  refine quiet (fun load s _ => ?_) rfl (fun _ _ => rfl) h
  obtain ⟨events, run⟩ := run load s
  exact ⟨events, congrArg (Prod.mk (Except.ok ())) run⟩

theorem bind [Nonempty β] {next : Consumer → α → PassM β} {R : β → Pass → Prop}
    (h : Inquires file sources act p Q)
    (step : ∀ a q, Q a q → Inquires file sources (fun c => next c a) q R) :
    Inquires file sources (fun c => act c >>= next c) p R := by
  obtain ⟨T, describes, all⟩ := h
  have further : ∀ x : α × Pass, ∃ T' : Inquiry (β × Pass), Q x.1 x.2 →
      T'.Describes file (fun c => next c x.1) x.2 ∧ T'.All sources fun y => R y.1 y.2 := by
    intro x
    by_cases hx : Q x.1 x.2
    · obtain ⟨T', h'⟩ := step x.1 x.2 hx
      exact ⟨T', fun _ => h'⟩
    · exact ⟨.done (Classical.arbitrary β, x.2), fun h => absurd h hx⟩
  choose f hf using further
  refine ⟨T.bind f, fun S load s answers asked stands => ?_, all.bind fun x hx => (hf x hx).2⟩
  have first : ∀ path ∈ T.asked S.answer, S.asked path :=
    fun path hp => asked path (T.asked_subset_bind f hp)
  have given := describes S load s answers first stands
  obtain ⟨-, results⟩ := all.of_free fun path hp es h => answers.free path es (first path hp) h
  rw [Inquiry.result_bind]
  cases outcome : T.result S.answer with
  | error e =>
    rw [outcome] at given
    obtain ⟨q, run, ready⟩ := given
    exact ⟨q, bind_of_error run, ready⟩
  | ok x =>
    rw [outcome] at given
    obtain ⟨s', run, stands', grown, questions⟩ := given
    rw [Inquiry.asked_bind_of_ok f outcome] at asked ⊢
    have rest : ∀ path ∈ (f x).asked S.answer, S.asked path :=
      fun path hp => asked path (List.mem_append_right _ hp)
    have given' := (hf x (results x outcome)).1 S load s' answers rest stands'
    change match (f x).result S.answer with
      | .ok (b, q) => _
      | .error e => _
    cases outcome' : (f x).result S.answer with
    | error e =>
      rw [outcome'] at given'
      obtain ⟨q, run', ready⟩ := given'
      exact ⟨q, (bind_of_ok run).trans run', ready⟩
    | ok y =>
      rw [outcome'] at given'
      obtain ⟨s'', run', stands'', grown', questions'⟩ := given'
      refine ⟨s'', (bind_of_ok run).trans run', stands'', List.Subset.trans grown grown', ?_⟩
      exact List.append_subset.2 ⟨fun path hp => grown' (questions hp), questions'⟩

theorem assoc {γ : Type} {first : Consumer → PassM γ} {next : Consumer → γ → PassM β}
    {last : Consumer → β → PassM α}
    (h : Inquires file sources (fun c => (first c >>= next c) >>= last c) p Q) :
    Inquires file sources (fun c => first c >>= fun a => next c a >>= last c) p Q :=
  h.congr fun _ => (bind_assoc ..).symm

/-- A step that looks only at what is the same in every session. -/
theorem get_bind {f : Consumer → Pass → PassM α}
    (same : ∀ load s, Sees p s → f ⟨file, load⟩ { p with session := s } = f ⟨file, load⟩ p)
    (h : Inquires file sources (fun c => f c p) p Q) :
    Inquires file sources (fun c => get >>= f c) p Q := by
  obtain ⟨T, describes, all⟩ := h
  refine ⟨T, fun S load s answers asked stands => ?_, all⟩
  have run : (get >>= f ⟨file, load⟩ : PassM α) { p with session := s } =
      f ⟨file, load⟩ p { p with session := s } := by
    rw [← same load s (answers.sees stands)]
    rfl
  beta_reduce
  rw [run]
  exact describes S load s answers asked stands

/-- A loop in which each turn takes what holds of the entries behind it to what holds with one entry
more. -/
theorem forM {γ : Type} {step : Consumer → γ → PassM Unit} {l : List γ} {I : List γ → Pass → Prop}
    (start : I [] p) (turn : ∀ before x after, l = before ++ x :: after → ∀ q, I before q →
      Inquires file sources (fun c => step c x) q fun _ r => I (before ++ [x]) r) :
    Inquires file sources (fun c => l.forM (step c)) p fun _ q => I l q := by
  suffices general : ∀ after before q, l = before ++ after → I before q →
      Inquires file sources (fun c => after.forM (step c)) q fun _ r => I l r from
    general l [] p rfl start
  intro after
  induction after with
  | nil =>
    intro before q split h
    rw [List.append_nil] at split
    exact of_pure (split ▸ h)
  | cons x after ih =>
    intro before q split h
    refine bind (turn before x after split q h) fun _ r hr => ?_
    exact ih (before ++ [x]) r (by rw [split, List.append_assoc, List.singleton_append]) hr

end Inquires

end Reuse

end NestedStyles
