import NestedStyles.Proofs.Reuse.Answers
import NestedStyles.Proofs.Reuse.Chronicle
import NestedStyles.Proofs.Reuse.Depth
import NestedStyles.Proofs.Reuse.Operations
import NestedStyles.Proofs.Reuse.OwnFirst

/-!
# Exports that use each other in a circle

In a file that names no other file a circular use is reported just when its exports use each other
in a circle (`Stylesheet.resolve_circular_iff`).

Where there is no circle the file is resolved into its expansion, and then nothing is reported to be
circular. Where nothing is reported, each export was done after those it uses, so there is no circle
(`Traced.acc`). The rules come when all exports are done, and so they add no circular use
(`resolveRules_calm`).
-/

namespace NestedStyles

open Relation

namespace Reuse

/-! ## Diagnostics of circular uses -/

/-- The diagnostic for the event is one of the kind `circular-use`. -/
def Event.isCircular (e : Event) : Bool :=
  e.diagnostic?.any fun d => d.rule == "circular-use"

/-- The diagnostics of the kind `circular-use`. -/
def circularUses (events : List Event) : List Diagnostic :=
  (diagnostics events).filter fun d => d.rule == "circular-use"

@[simp] theorem circularUses_append (events more : List Event) :
    circularUses (events ++ more) = circularUses events ++ circularUses more := by
  rw [circularUses, diagnostics, List.filterMap_append, List.filter_append]
  rfl

theorem circularUses_eq_nil_iff {events : List Event} :
    circularUses events = [] ↔ ∀ e ∈ events, e.isCircular = false := by
  rw [circularUses, List.filter_eq_nil_iff]
  constructor
  · intro none e mem
    rw [Event.isCircular]
    cases found : e.diagnostic? with
    | none => rfl
    | some d =>
      have here : d ∈ diagnostics events := List.mem_filterMap.2 ⟨e, mem, found⟩
      simpa using none d here
  · intro none d mem
    obtain ⟨e, mem, found⟩ := List.mem_filterMap.1 mem
    have here := none e mem
    rw [Event.isCircular, found] at here
    simpa using here

@[simp] theorem isCircular_fault (file : String) (φ : Fault) :
    (Event.fault file φ).isCircular = (φ.rule == "circular-use") :=
  rfl

/-! ## The order in which exports are done -/

/-- In the file an export named `n`, or a rule nested in it, uses an export named `m`. -/
def UsesExport (sheet : Stylesheet) (n m : String) : Prop :=
  UsesName sheet n m ∧ ∃ e ∈ sheet.exports, e.name = m

variable {noted : Session → Prop} {file : String} {sheet : Stylesheet} {p q : Pass}
variable {u : UseDirective} {i : Nat} {path : List Nat} {depth : Nat}

/-- Exports with one name are one export. -/
theorem exportName_inj {j : Nat} {n : String}
    (distinct : (sheet.exports.map ExportBlock.name).Nodup)
    (hi : exportName sheet i = some n) (hj : exportName sheet j = some n) : i = j := by
  have inside := lt_of_exportName hi
  rw [exportName, ← List.getElem?_map] at hi hj
  rw [← List.length_map (f := ExportBlock.name)] at inside
  exact (List.getElem?_inj inside distinct).1 (hi.trans hj.symm)

/-- From an export that is done no way along uses is endless, unless a circular use was noted. -/
theorem Traced.acc (traced : Traced file noted sheet p) (h : Underway sheet p)
    (distinct : (sheet.exports.map ExportBlock.name).Nodup)
    (stand : ∀ e ∈ sheet.exports, ∃ i, p.registry.lookup e.name = some (.own i))
    (quiet : ¬ noted p.session) {n : String} (here : exportName sheet i = some n)
    (done : .own i ∈ p.done) : Acc (fun m n => UsesExport sheet n m) n := by
  suffices general : ∀ dones, dones <:+ p.done → ∀ i n, .own i ∈ dones →
      exportName sheet i = some n → Acc (fun m n => UsesExport sheet n m) n from
    general _ (List.suffix_refl _) i n done here
  intro dones
  induction dones with
  | nil => exact fun _ _ _ mem => absurd mem List.not_mem_nil
  | cons ref earlier ih =>
    intro split i n mem here
    have before : earlier <:+ p.done := (List.suffix_cons ref earlier).trans split
    rcases List.mem_cons.1 mem with rfl | mem
    · refine Acc.intro n fun m uses => ?_
      obtain ⟨⟨e, he, rfl, u, used, bare, rfl⟩, e', he', name⟩ := uses
      obtain ⟨j, found⟩ := List.mem_iff_getElem?.1 he
      have same : exportName sheet j = some e.name := congrArg (Option.map ExportBlock.name) found
      obtain rfl := exportName_inj distinct here same
      have used' : u ∈ (sheet.block (.own i)).allUses := by
        show u ∈ ((sheet.exports[i]?.map ExportBlock.toBody).getD .empty).allUses
        rwa [found]
      -- what the use asks for was done before, and has the name that is used
      obtain ⟨k, stands⟩ := stand e' he'
      rw [name] at stands
      have earlierDone := ((traced.order i earlier split u used' (sourceOf_bare bare)).resolve_left
        quiet) _ stands
      have named : exportName sheet k = some u.name := h.registry _ (Table.mem_of_lookup stands)
      exact ih before k u.name earlierDone named
    · exact ih before i n mem here

/-- Nothing leads back to where there is no endless way from. -/
theorem not_circle_of_acc {α : Type} {edge : α → α → Prop} {a : α}
    (acc : Acc (fun b a => edge a b) a) : ¬ TransGen edge a a := by
  induction acc with
  | intro a _ ih =>
    intro circle
    obtain ⟨b, first, rest⟩ := TransGen.head'_iff.1 circle
    exact ih b first (TransGen.tail' rest first)

/-! ## Files that name no other file -/

/-- The file imports nothing and uses nothing of other files. -/
structure Lone (sheet : Stylesheet) : Prop where
  imports : sheet.imports = []
  bare : ∀ u ∈ sheet.allUses, u.source.getD "" = ""

namespace Lone

theorem sourceOf_eq (lone : Lone sheet) (used : u ∈ sheet.allUses) : sourceOf file u = none :=
  sourceOf_bare (lone.bare u used)

theorem sources_eq (lone : Lone sheet) : sheet.sources file = [] := by
  rw [Stylesheet.sources, lone.imports]
  refine List.filterMap_eq_nil_iff.2 fun u used => lone.sourceOf_eq ?_
  exact List.mem_append_left _ used

theorem keysApart (lone : Lone sheet) : KeysApart file sheet :=
  fun _ used named => absurd (lone.sourceOf_eq used) named

/-- Only names of exports are watched, so a circle of keys is one of exports. -/
theorem acyclic (lone : Lone sheet) {c : Consumer}
    (none : ∀ n, ¬ TransGen (UsesExport sheet) n n) : ∀ n, ¬ TransGen (c.UsesKey sheet) n n := by
  have path {n m : String} (way : TransGen (UsesName sheet) n m)
      (named : ∃ e ∈ sheet.exports, e.name = m) : TransGen (UsesExport sheet) n m := by
    induction way with
    | single edge => exact .single ⟨edge, named⟩
    | tail _ edge ih =>
      have last := edge
      obtain ⟨e, he, name, -⟩ := edge
      exact (ih ⟨e, he, name⟩).tail ⟨last, named⟩
  refine acyclic_of_usesName (fun e he u used named => absurd (lone.bare u ?_) named) ?_
  · exact List.mem_append_left _ (List.mem_flatMap.2 ⟨e, he, used⟩)
  · intro n way
    have start := TransGen.head'_iff.1 way
    obtain ⟨m, ⟨e, he, name, -⟩, -⟩ := start
    exact none n (path way ⟨e, he, name⟩)

end Lone

/-- A loader that has nothing to load, in sessions that go on in their journal. -/
def idle (file : String) : Loading where
  load := (Consumer.noting file).load
  ready s := s.library = []
  grows s t := s.journal <+: t.journal

theorem idle_lawful (file : String) : (idle file).Lawful where
  refl s := List.prefix_refl s.journal
  trans := List.IsPrefix.trans
  log ready events := ⟨ready, List.prefix_append _ _⟩
  load ready path := ⟨ready, List.prefix_append _ _⟩
  clean {s} ready := by
    have none : s.library = [] := ready
    constructor
    · rw [none]
      exact List.nodup_nil
    · rw [none]
      exact fun _ mem => absurd mem List.not_mem_nil

/-- A circular use of the file was reported. -/
def Circular (file : String) (s : Session) : Prop :=
  ∃ owner name, .fault file (.circularUse owner name) ∈ s.journal

theorem idle_notes (file : String) : Notes (idle file) file (Circular file) where
  grows := by
    rintro s t grows ⟨owner, name, mem⟩
    exact ⟨owner, name, grows.subset mem⟩
  circular s owner name := ⟨owner, name, List.mem_append_right _ (List.mem_singleton_self _)⟩

/-! ## Rules add no circular use -/

/-- No file was asked for, and no circular use was reported. -/
def Calm (p q : Pass) : Prop :=
  q.dependencies = p.dependencies ∧
    ∃ events, q.session.journal = p.session.journal ++ events ∧ circularUses events = []

namespace Calm

variable {r : Pass}

theorem of_journal (asked : q.dependencies = p.dependencies)
    (same : q.session.journal = p.session.journal) : Calm p q :=
  ⟨asked, [], by rw [same, List.append_nil], rfl⟩

theorem trans (h : Calm p q) (h' : Calm q r) : Calm p r := by
  obtain ⟨asked, events, journal, none⟩ := h
  obtain ⟨asked', more, journal', none'⟩ := h'
  refine ⟨asked'.trans asked, events ++ more, ?_, ?_⟩
  · rw [journal', journal, List.append_assoc]
  · rw [circularUses_append, none, none', List.append_nil]

end Calm

/-- All exports are done, and names stand for nothing else. -/
structure Ready (sheet : Stylesheet) (p : Pass) : Prop extends Underway sheet p where
  asked : p.dependencies = []
  ended : ∀ i < sheet.exports.length, .own i ∈ p.done

theorem Ready.mem_done {name : String} {ref : BlockRef} (h : Ready sheet p)
    (stands : MayStandFor sheet p.dependencies name ref) : ref ∈ p.done := by
  cases ref with
  | own i => exact h.ended i (lt_of_exportName stands)
  | rule i => exact stands.elim
  | foreign path i =>
    rw [h.asked] at stands
    exact absurd stands List.not_mem_nil

/-- A name that stands for nothing is reported, and else nothing happens. -/
theorem lookup_calm (bare : u.source.getD "" = "") (owner : Option String) (p : Pass) :
    Proceeds (idle file) file (fun c => lookup c owner u) p fun found q =>
      found = none ∧ Calm p q ∨
        ∃ ref, p.registry.lookup u.name = some ref ∧ found = some ref ∧ q = p := by
  have lawful := idle_lawful file
  simp only [Outset.lookup_bare bare]
  refine .get_bind lawful (fun _ _ _ => rfl) ?_
  cases named : p.registry.lookup u.name with
  | some ref => exact .of_pure lawful (.inr ⟨ref, rfl, rfl, rfl⟩)
  | none =>
    refine .bind lawful (Q := fun _ q => Calm p q) (.quiet lawful (a := ()) p
      [.fault file (.usedUndefined owner u.name)] (fun _ _ _ => rfl) rfl ⟨rfl, _, rfl, rfl⟩) ?_
    exact fun _ q calm => .of_pure lawful (.inl ⟨rfl, calm⟩)

section

variable (lone : Lone sheet)

include lone

/-- A use in a rule is looked up and copied, and nothing is entered for it. -/
theorem inlineUse_calm (h : Ready sheet p) (inside : Holds sheet (.rule i))
    (used : u ∈ (p.body (.rule i)).allUses) (owner : Option String) :
    Proceeds (idle file) file
      (fun c => inlineUse c (resolveBlock c depth) [] owner ⟨.rule i, path⟩ u) p
      fun _ q => Calm p q := by
  have lawful := idle_lawful file
  have stands {target : BlockRef} (named : p.registry.lookup u.name = some target) :
      MayStandFor sheet p.dependencies u.name target :=
    h.registry _ (Table.mem_of_lookup named)
  refine inlineUse_of lawful
    (F := fun found q => found = none ∧ Calm p q ∨
      ∃ target, p.registry.lookup u.name = some target ∧ found = some target ∧ q = p)
    (G := fun target q => p.registry.lookup u.name = some target ∧ q = p) [] owner
    (fun circular => absurd circular List.not_mem_nil)
    (fun _ => lookup_calm (lone.bare u (h.mem_allUses inside used)) owner p) ?none ?left ?settled
    ?copied
  case none =>
    rintro q (⟨-, calm⟩ | ⟨_, _, ⟨⟩, _⟩)
    exact calm
  case left =>
    rintro target q (⟨⟨⟩, _⟩ | ⟨_, named, ⟨⟩, same⟩) -
    exact ⟨named, same⟩
  case settled =>
    rintro target q (⟨⟨⟩, _⟩ | ⟨_, named, ⟨⟩, rfl⟩) new
    exact absurd (h.mem_done (stands named)) new
  case copied =>
    rintro target _ ⟨named, rfl⟩
    have stands := stands named
    have other : target ≠ .rule i := by
      rintro rfl
      exact stands
    refine (copy_appends lawful h.toUnderway inside stands other fun _ _ =>
      h.mem_done stands).imp ?_
    rintro _ _ rfl
    exact ⟨rfl, [.inlined file u.name], rfl, rfl⟩

/-- At a place in a rule. -/
theorem inlineAt_calm (drained : Drained (idle file) file sheet depth) (h : Ready sheet p)
    (inside : Holds sheet (.rule i))
    (affords : (Outset.ofSheet file sheet).Affords (depth + 1) []) (owner : Option String) :
    Proceeds (idle file) file
      (fun c => inlineAt c (resolveBlock c depth) [] owner (.rule i) path) p
      fun _ q => Calm p q := by
  have lawful := idle_lawful file
  refine (inlineAt_keeps lawful (I := fun _ q => Calm p q) drained h.toUnderway inside trivial
    affords owner (.of_journal rfl rfl) ?_ ?_).imp fun _ _ kept => kept.2
  · intro before u q works calm used
    have ready : Ready sheet q :=
      ⟨works.1.underway, calm.1.trans h.asked, fun j there => works.1.done (h.ended j there)⟩
    exact (inlineUse_calm lone ready inside used owner).imp fun _ _ calm' => calm.trans calm'
  · intro q works calm
    have here := works.1.underway.holds inside
    have journal := congrArg Session.journal (Pass.session_clearUses here path)
    exact calm.trans (.of_journal rfl journal)

/-- The rules report no circular use. -/
theorem resolveRules_calm (h : Ready sheet p) (enough : sheet.allUses.length < depth) :
    Proceeds (idle file) file (fun c => resolveRules c depth) p fun _ q => Calm p q := by
  have lawful := idle_lawful file
  obtain ⟨depth, rfl⟩ := Nat.exists_eq_succ_of_ne_zero (Nat.ne_zero_of_lt enough)
  have drains : Drained (idle file) file sheet depth := drained lawful file sheet depth
  have affords : (Outset.ofSheet file sheet).Affords (depth + 1) [] :=
    Outset.affords_of_lt enough []
  refine .get_bind lawful (fun _ _ _ => rfl) (.imp (.forM lawful
    (I := fun _ q => Ready sheet q ∧ Calm p q) ⟨h, .of_journal rfl rfl⟩ ?_) fun _ _ h => h.2)
  rintro before i after split q ⟨ready, calm⟩
  have inside : Holds sheet (.rule i) := holds_rule h.length_rules split
  have block : Proceeds (idle file) file (fun c => resolveBlock c (depth + 1) [] (.rule i)) q
      fun _ r => (Stretch sheet [] (.rule i) q r ∧ (r.body (.rule i)).allUses = []) ∧ Calm q r := by
    refine resolveBlock_keeps lawful drains ready.toUnderway inside trivial affords
      (.of_journal rfl rfl) fun path r underway dones calm' => ?_
    have ready' : Ready sheet r :=
      ⟨underway, calm'.1.trans ready.asked, fun j there => dones (ready.ended j there)⟩
    exact (inlineAt_calm lone drains ready' inside affords _).imp
      fun _ _ calm'' => calm'.trans calm''
  refine block.imp ?_
  rintro _ r ⟨⟨stretch, -⟩, calm'⟩
  exact ⟨⟨stretch.underway, calm'.1.trans ready.asked,
    fun j there => stretch.done (ready.ended j there)⟩, calm.trans calm'⟩

end

/-! ## A whole pass -/

/-- Each circular use in the journal is one of the file. -/
def Own (file : String) (s : Session) : Prop :=
  ∀ e ∈ s.journal, e.isCircular → ∃ φ, φ.rule = "circular-use" ∧ e = .fault file φ

theorem Own.log {s : Session} (h : Own file s) {e : Event}
    (own : e.isCircular → ∃ φ, φ.rule = "circular-use" ∧ e = .fault file φ) :
    Own file (s.log [e]) := by
  intro e' mem circular
  rcases List.mem_append.1 mem with mem | mem
  · exact h e' mem circular
  · obtain rfl := List.mem_singleton.1 mem
    exact own circular

theorem own_upheld (file : String) :
    Upheld ⟨file, (idle file).load⟩ (fun _ => False) (Own file) where
  report h f _ := h.log fun circular => ⟨f, by simpa using circular, rfl⟩
  inlined h name := h.log fun circular => absurd circular Bool.false_ne_true
  changed h _ _ _ _ := h
  free _ _ kept := kept.elim
  load h _ := h.log fun circular => absurd circular Bool.false_ne_true

/-- The session goes on as the other one did from its start. -/
def resume (s t : Session) : Session :=
  { s with journal := s.journal ++ t.journal }

theorem start_resume (sheet : Stylesheet) (s : Session) :
    { Pass.start Session.empty sheet with session := resume s Session.empty } =
      Pass.start s sheet := by
  rw [resume, Session.empty, List.append_nil]
  rfl

/-- Where no file is asked for, a step does the same for every consumer and in every session. -/
theorem Course.alone {α : Type} {c : Consumer} {act : Consumer → PassM α} {calls : List Call}
    {a : α} {s : Session} (course : Course (idle c.file) c.file act p calls a q)
    (none : q.dependencies = []) (keys : (s.library.map Prod.fst).Nodup) :
    act c { p with session := resume s p.session } =
      (.ok a, { q with session := resume s q.session }) := by
  have alike : Likeness fun asked s₁ t => asked = [] ∧ t = resume s s₁ := by
    constructor
    case mono =>
      rintro asked asked' _ _ sub ⟨rfl, rfl⟩
      exact ⟨List.subset_nil.1 sub, rfl⟩
    case exports =>
      rintro _ _ _ ⟨rfl, -⟩ path mem
      exact absurd mem List.not_mem_nil
    case log =>
      rintro _ s₁ _ ⟨rfl, rfl⟩ events
      refine ⟨rfl, ?_⟩
      rw [resume, resume, Session.log, Session.log, List.append_assoc]
    case keys =>
      rintro _ _ _ ⟨-, rfl⟩
      exact keys
  have before : p.dependencies = [] := List.subset_nil.1 (none ▸ course.asked)
  have called : ∀ call ∈ calls, (idle c.file).Echoes c.load
      (fun asked s₁ t => asked = [] ∧ t = resume s s₁) call := by
    intro call mem
    have here := (course.called call mem).2.1
    rw [none] at here
    exact absurd here List.not_mem_nil
  obtain ⟨_, run, -, rfl⟩ := course.again alike called ⟨before, rfl⟩
  exact run

/-- With the idle loader a step succeeds. -/
theorem exists_course {α : Type} {act : Consumer → PassM α} {Q : α → Pass → Prop}
    (h : Proceeds (idle file) file act p Q) (ready : p.session.library = []) :
    ∃ calls a q, Course (idle file) file act p calls a q ∧ Q a q := by
  refine (h ready).resolve_right ?_
  rintro ⟨call, e, q, -, fails, -⟩
  cases fails

section

variable (lone : Lone sheet)

include lone

/-- The exports are resolved without a circular use just when they do not use each other in a
circle. -/
theorem prepare_circular_iff (distinct : (sheet.exports.map ExportBlock.name).Nodup)
    (enough : sheet.allUses.length < depth) :
    Proceeds (idle file) file (fun c => prepare c depth) (Pass.start Session.empty sheet)
      fun _ q => Ready sheet q ∧
        (circularUses q.session.journal = [] ↔ ∀ n, ¬ TransGen (UsesExport sheet) n n) := by
  have lawful := idle_lawful file
  have whole := (prepare_proceeds lawful Session.empty enough).and
    (prepare_answers lawful (idle_notes file) lone.keysApart Session.empty enough)
  obtain ⟨calls, ⟨⟩, q, course, ⟨underway, done⟩, traced, -, stand⟩ := exists_course whole rfl
  intro ready
  refine .inl ⟨calls, (), q, course, ⟨underway, ?_, done⟩, ?_⟩
  · rw [← List.subset_nil, ← lone.sources_eq]
    exact traced.named
  rw [circularUses_eq_nil_iff]
  constructor
  · intro none n circle
    have quiet : ¬ Circular file q.session := by
      rintro ⟨owner, name, mem⟩
      exact absurd (none _ mem) (by simp [Fault.rule])
    obtain ⟨m, ⟨⟨e, he, name, -⟩, -⟩, -⟩ := TransGen.head'_iff.1 circle
    obtain ⟨i, inside, rfl⟩ := List.mem_iff_getElem.1 he
    have named : exportName sheet i = some n := by
      rw [← name]
      exact congrArg (Option.map ExportBlock.name) (List.getElem?_eq_getElem inside)
    exact not_circle_of_acc
      (traced.acc underway distinct (stand lone.imports) quiet named (done i inside)) circle
  · intro acyclic e mem
    by_contra circular
    rw [Bool.not_eq_false] at circular
    have start : Own file Session.empty := fun _ mem => absurd mem List.not_mem_nil
    have upholds := (own_upheld file).prepare_upholds depth (Pass.start Session.empty sheet)
    rw [Upholds, course.run] at upholds
    obtain ⟨φ, rule, rfl⟩ := upholds start e mem circular
    have served : (Consumer.noting file).Serves (blocksIn []) fun s => s.library = [] :=
      Consumer.noting_serves List.nodup_nil (fun _ mem => absurd mem List.not_mem_nil)
        fun _ mem => absurd mem List.not_mem_nil
    have expands :=
      Outset.prepare_runs (s := Session.empty) served (lone.acyclic acyclic) rfl enough
    obtain ⟨_, q', run, S, -, consumer, -, -, inv, -⟩ := expands
    cases course.run.symm.trans run
    -- each fault of a use is that it is unknown
    have faults := inv.faults
    rw [consumer] at faults
    have reported : φ ∈ useFaults file q.session.journal :=
      mem_useFaults.2 ⟨mem, by rw [Fault.isOfUse, rule]; rfl⟩
    obtain ⟨ref, -, missing⟩ := List.mem_flatMap.1 (faults.mem_iff.1 reported)
    rw [rule_of_mem_missing missing] at rule
    exact absurd rule (by decide)

/-- Then the rules are resolved without another one. -/
theorem resolveAll_calm (distinct : (sheet.exports.map ExportBlock.name).Nodup)
    (enough : sheet.allUses.length < depth) :
    Proceeds (idle file) file (fun c => resolveAll c depth) (Pass.start Session.empty sheet)
      fun _ q => q.dependencies = [] ∧ q.sheet.allUses = [] := by
  have lawful := idle_lawful file
  have calm : Proceeds (idle file) file (fun c => resolveAll c depth)
      (Pass.start Session.empty sheet) fun _ q => q.dependencies = [] := by
    refine .bind lawful (prepare_circular_iff lone distinct enough) ?_
    rintro _ q ⟨ready, -⟩
    exact (resolveRules_calm lone ready enough).imp fun _ r calm => calm.1.trans ready.asked
  refine (calm.and (pass_drains lawful file Session.empty enough)).imp ?_
  rintro _ q ⟨none, -, free⟩
  exact ⟨none, free⟩

/-- What becomes of the file, whatever the loader and the session. -/
theorem pass_alone {c : Consumer} {s : Session} (keys : (s.library.map Prod.fst).Nodup)
    (distinct : (sheet.exports.map ExportBlock.name).Nodup)
    (enough : sheet.allUses.length < depth) : ∃ (q q' : Pass) (ruling : List Event),
      prepare c depth (Pass.start s sheet) =
        (.ok (), { q with session := resume s q.session }) ∧
      resolveAll c depth (Pass.start s sheet) =
        (.ok (), { q' with session := resume s q'.session }) ∧
      q'.sheet.allUses = [] ∧
      (circularUses q.session.journal = [] ↔ ∀ n, ¬ TransGen (UsesExport sheet) n n) ∧
      q'.session.journal = q.session.journal ++ ruling ∧ circularUses ruling = [] := by
  have exports : Proceeds (idle c.file) c.file _ _ _ := prepare_circular_iff lone distinct enough
  obtain ⟨_, ⟨⟩, q, course, ready, circular⟩ := exists_course exports rfl
  have rules : Proceeds (idle c.file) c.file _ _ _ := resolveRules_calm lone ready enough
  obtain ⟨_, ⟨⟩, q', course', asked, ruling, journal, none⟩ := exists_course rules course.ready
  have whole : Proceeds (idle c.file) c.file _ _ _ := resolveAll_calm lone distinct enough
  obtain ⟨_, ⟨⟩, r, course'', -, free⟩ := exists_course whole rfl
  cases course''.run.symm.trans ((bind_of_ok course.run).trans course'.run)
  have prepared := start_resume sheet s ▸ course.alone ready.asked keys
  have ruled := course'.alone (asked.trans ready.asked) keys
  exact ⟨q, q', ruling, prepared, (bind_of_ok prepared).trans ruled, free, circular, journal, none⟩

/-- A higher bound makes no difference, whatever the loader and the session. -/
theorem resolveAll_more {c : Consumer} {s : Session} (keys : (s.library.map Prod.fst).Nodup)
    (distinct : (sheet.exports.map ExportBlock.name).Nodup)
    (enough : sheet.allUses.length < depth) (more : Nat) :
    resolveAll c (depth + more) (Pass.start s sheet) = resolveAll c depth (Pass.start s sheet) := by
  have runs {n : Nat} (wide : sheet.allUses.length < n) : ∃ q,
      resolveAll ⟨c.file, (idle c.file).load⟩ n (Pass.start Session.empty sheet) = (.ok (), q) ∧
        resolveAll c n (Pass.start s sheet) =
          (.ok (), { q with session := resume s q.session }) := by
    obtain ⟨_, _, q, course, none, -⟩ := exists_course (resolveAll_calm lone distinct wide) rfl
    exact ⟨q, course.run, start_resume sheet s ▸ course.alone none keys⟩
  obtain ⟨q, idling, run⟩ := runs enough
  obtain ⟨q', idling', run'⟩ := runs (Nat.lt_add_right more enough)
  have same := pass_more (idle_lawful c.file) c.file Session.empty rfl enough more
  cases idling.symm.trans (same.symm.trans idling')
  exact run'.trans run.symm

end

end Reuse

open Reuse

namespace Stylesheet

/-- The resolution of exports is a pass with steps that succeed. -/
theorem resolveExports_of_runs {c : Consumer} {sheet : Stylesheet} {s : Session}
    {Q : Unit → Pass → Prop} (keep : Bool)
    (h : Runs (prepare c ((Pass.start s sheet).allUses.length + 1)) (Pass.start s sheet) Q) :
    ∃ p s', sheet.resolveExports c keep s = (.ok ⟨p.sheet, p.dependencies⟩, s') ∧
      s'.journal = p.session.journal ∧ Q () p := by
  obtain ⟨⟨⟩, p, run, hQ⟩ := h
  have pass : runPass sheet (prepare c) s = (.ok ⟨p.sheet, p.dependencies⟩, p.session) :=
    runPass_of_ok run
  cases keep with
  | false => exact ⟨p, p.session, bind_of_ok pass, rfl, hQ⟩
  | true => exact ⟨p, p.session.record c.file p.dependencies, bind_of_ok pass, rfl, hQ⟩

variable {c : Consumer} {s : Session} {sheet : Stylesheet}

/-- A file that names no other file is resolved, and a circular use is reported just when the
exports use each other in a circle. What is reported beyond the resolution of the exports alone is
no circular use, and to enter more blocks one inside the other would make no difference. -/
theorem resolve_circular_iff (keep : Bool) (keys : (s.library.map Prod.fst).Nodup)
    (imports : sheet.imports = []) (bare : ∀ u ∈ sheet.allUses, u.source.getD "" = "")
    (distinct : (sheet.exports.map ExportBlock.name).Nodup) :
    ∃ r r' t t' exporting ruling,
      sheet.resolve c keep s = (.ok r, t) ∧ r.sheet.allUses = [] ∧
      (∀ more, runPass sheet (fun depth => resolveAll c (depth + more)) s =
        runPass sheet (resolveAll c) s) ∧
      sheet.resolveExports c keep s = (.ok r', t') ∧ t'.journal = s.journal ++ exporting ∧
      t.journal = s.journal ++ (exporting ++ ruling) ∧
      (circularUses (exporting ++ ruling) ≠ [] ↔ ∃ n, TransGen (UsesExport sheet) n n) ∧
      circularUses ruling = [] := by
  have lone : Lone sheet := ⟨imports, bare⟩
  have enough : sheet.allUses.length < (Pass.start s sheet).allUses.length + 1 := by
    rw [Pass.allUses, List.length_append]
    exact Nat.lt_succ_of_le (Nat.le_add_right _ _)
  obtain ⟨q, q', ruling, prepared, resolved, free, circular, journal, none⟩ :=
    pass_alone (c := c) lone keys distinct enough
  obtain ⟨_, t, run, after, rfl⟩ :=
    resolve_of_runs (Q := fun _ p => p = { q' with session := resume s q'.session }) keep
      ⟨(), _, resolved, rfl⟩
  obtain ⟨_, t', run', after', rfl⟩ :=
    resolveExports_of_runs (Q := fun _ p => p = { q with session := resume s q.session }) keep
      ⟨(), _, prepared, rfl⟩
  have exporting : t'.journal = s.journal ++ q.session.journal := after'
  have ruled : t.journal = s.journal ++ (q.session.journal ++ ruling) := by
    rw [after, ← journal]
    rfl
  refine ⟨_, _, t, t', q.session.journal, ruling, run, free, fun more => ?_, run', exporting, ruled,
    ?_, none⟩
  · have same := resolveAll_more (c := c) lone keys distinct enough more
    rw [runPass, runPass, same]
  · rw [circularUses_append, none, List.append_nil, Ne, circular, not_forall_not]

/-- Two exports that use each other, one of them in a nested rule, and a rule that uses one. -/
def ring : Stylesheet where
  rules := [⟨".a", ["c"], [], [⟨"one", none⟩], []⟩]
  exports := [
    ⟨⟨["p"], [], [⟨"two", none⟩], []⟩, "one"⟩,
    ⟨⟨["q"], [], [], [⟨"&:hover", ["r"], [], [⟨"one", none⟩], []⟩]⟩, "two"⟩]
  imports := []

theorem resolve_circular_iff_ring :
    (otherBlocks.map Prod.fst).Nodup ∧ ring.imports = [] ∧
      (∀ u ∈ ring.allUses, u.source.getD "" = "") ∧ (ring.exports.map ExportBlock.name).Nodup ∧
      (∃ n, TransGen (UsesExport ring) n n) ∧
      ∃ r r' t t' exporting ruling,
        ring.resolve (.noting "/f") true ⟨otherBlocks, [], []⟩ = (.ok r, t) ∧
        r.sheet.allUses = [] ∧
        (∀ more, runPass ring (fun depth => resolveAll (.noting "/f") (depth + more))
            ⟨otherBlocks, [], []⟩ =
          runPass ring (resolveAll (.noting "/f")) ⟨otherBlocks, [], []⟩) ∧
        ring.resolveExports (.noting "/f") true ⟨otherBlocks, [], []⟩ = (.ok r', t') ∧
        t'.journal = exporting ∧ t.journal = exporting ++ ruling ∧
        (circularUses (exporting ++ ruling) ≠ [] ↔ ∃ n, TransGen (UsesExport ring) n n) ∧
        circularUses ruling = [] := by
  have keys : (otherBlocks.map Prod.fst).Nodup := by decide
  have bare : ∀ u ∈ ring.allUses, u.source.getD "" = "" := by decide
  have distinct : (ring.exports.map ExportBlock.name).Nodup := by decide
  have forth : UsesExport ring "one" "two" := by
    refine ⟨⟨ring.exports[0], List.mem_cons_self, rfl, ⟨"two", none⟩, ?_, rfl, rfl⟩, ?_⟩
    · decide
    · decide
  have back : UsesExport ring "two" "one" := by
    refine ⟨⟨ring.exports[1], ?_, rfl, ⟨"one", none⟩, ?_, rfl, rfl⟩, ?_⟩
    · decide
    · decide
    · decide
  exact ⟨keys, rfl, bare, distinct, ⟨"one", .tail (.single forth) back⟩,
    resolve_circular_iff (c := .noting "/f") (s := ⟨otherBlocks, [], []⟩) true keys rfl bare
      distinct⟩

end Stylesheet

end NestedStyles
