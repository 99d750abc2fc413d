import NestedStyles.Proofs.Reuse.Actions
import NestedStyles.Proofs.Reuse.Answers

/-!
# Every use is accounted for

What a pass does to its state is told by a list of actions, each of which fits the pass it is
performed in (`Tells`). First all names get their blocks (`NamesAll`), and then only uses are
answered. The uses at a place are taken away at once, and only those that were answered there: what
stands in the blocks of a file and what was answered make up the same occurrences all the time
(`Pays`). No use is left in the end, and so each occurrence was answered just once
(`Stylesheet.resolve_accounts`).

The loader may do what it likes, and write what it likes into the journal. It is told apart from the
pass by the action that calls it.
-/

namespace NestedStyles

namespace Reuse

open Relation

variable {c : Consumer} {L : Loading} {file source name : String} {sheet : Stylesheet}
variable {p q r : Pass} {active : List String} {depth : Nat} {u : UseDirective}
variable {ref target : BlockRef} {path : List Nat} {t : Body} {actions more : List PassAction}

/-! ## What is answered for -/

/-- The uses that no longer stand in the blocks of the file are these. -/
structure Pays (sheet : Stylesheet) (p q : Pass) (paid : List Occurrence) : Prop where
  inside : ∀ o ∈ paid, Holds sheet o.place.block
  count_eq : ∀ o : Occurrence, Holds sheet o.place.block →
    (p.content o.place).uses.count o.use = paid.count o + (q.content o.place).uses.count o.use

namespace Pays

theorem of_uses (same : ∀ place, Holds sheet place.block →
    (q.content place).uses = (p.content place).uses) : Pays sheet p q [] where
  inside := by simp
  count_eq o here := by rw [same o.place here, List.count_nil, Nat.zero_add]

theorem of_sheet (same : q.sheet = p.sheet) : Pays sheet p q [] :=
  .of_uses fun _ here => by rw [Pass.content, Pass.content, body_congr here same]

theorem trans {paid more : List Occurrence} (h : Pays sheet p q paid) (h' : Pays sheet q r more) :
    Pays sheet p r (paid ++ more) where
  inside := List.forall_mem_append.2 ⟨h.inside, h'.inside⟩
  count_eq o here := by
    rw [h.count_eq o here, h'.count_eq o here, List.count_append]
    omega

/-- The content at a place of another block does not change, and that in the same block does with
it. -/
theorem content_setBody {place : Place} {b : Body} (here : Holds p.sheet ref)
    (inside : Holds sheet place.block) (s : Session) :
    ({ p.setBody ref b with session := s } : Pass).content place =
      if place.block = ref then b.inside place.path else p.content place := by
  have same : ({ p.setBody ref b with session := s } : Pass).body place.block =
      (p.setBody ref b).body place.block := body_congr inside rfl
  rw [Pass.content, same]
  split
  next block => rw [block, Pass.body_setBody_self here]
  next ne => rw [Pass.body_setBody_of_ne here ne, Pass.content]

/-- Content without uses is added. -/
theorem append (here : Holds p.sheet ref) (free : t.allUses = []) (s : Session) :
    Pays sheet p { p.append ⟨ref, path⟩ t with session := s } [] := by
  refine .of_uses fun place inside => ?_
  rw [Pass.append_eq_setBody here, content_setBody here inside]
  split
  next block => rw [Body.uses_inside_modifyAt_append free, Pass.content, block]
  next => rfl

/-- The uses at a place are taken away. -/
theorem clear (here : Holds p.sheet ref) (inside : Holds sheet ref) :
    Pays sheet p (p.clearUses ⟨ref, path⟩)
      ((p.content ⟨ref, path⟩).uses.map (Occurrence.mk ⟨ref, path⟩)) where
  inside o mem := by
    obtain ⟨_, -, rfl⟩ := List.mem_map.1 mem
    exact inside
  count_eq o there := by
    obtain ⟨⟨block, place⟩, u⟩ := o
    have after : (p.clearUses ⟨ref, path⟩).content ⟨block, place⟩ =
        if block = ref then
          ((p.body ref).modifyAt (fun b => { b with uses := [] }) path).inside place
        else p.content ⟨block, place⟩ := by
      rw [Pass.clearUses_eq_setBody here]
      exact content_setBody here there (p.setBody ref _).session
    rw [after, Stylesheet.count_map_occurrence]
    by_cases same : block = ref
    · subst same
      rw [if_pos rfl, Body.uses_inside_modifyAt_clear]
      by_cases same : place = path
      · subst same
        rw [if_pos rfl, if_pos rfl, List.count_nil, Nat.add_zero]
      · have other : (⟨block, place⟩ : Place) ≠ ⟨block, path⟩ :=
          fun eq => same (Place.mk.inj eq).2
        rw [if_neg other, if_neg same, Nat.zero_add, Pass.content]
    · have other : (⟨block, place⟩ : Place) ≠ ⟨ref, path⟩ := fun eq => same (Place.mk.inj eq).1
      rw [if_neg other, if_neg same, Nat.zero_add]

end Pays

/-! ## What actions tell -/

/-- From `p` to `q` the pass does what these actions tell. -/
structure Tells (c : Consumer) (sheet : Stylesheet) (p : Pass) (actions : List PassAction)
    (q : Pass) : Prop where
  told : q = actions.foldl (PassAction.perform c) p
  fits : Fitting c sheet p actions

namespace Tells

theorem refl (p : Pass) : Tells c sheet p [] p :=
  ⟨rfl, trivial⟩

theorem trans (h : Tells c sheet p actions q) (h' : Tells c sheet q more r) :
    Tells c sheet p (actions ++ more) r where
  told := by rw [List.foldl_append, ← h.told, h'.told]
  fits := fitting_append.2 ⟨h.fits, h.told ▸ h'.fits⟩

theorem single {a : PassAction} (fits : a.Fits c sheet p) : Tells c sheet p [a] (a.perform c p) :=
  ⟨rfl, fits, trivial⟩

/-- Names stand for what they stood for unless some are given new blocks. -/
theorem registry (h : Tells c sheet p actions q) (others : ∀ a ∈ actions, a.isNaming = false) :
    q.registry = p.registry := by
  rw [h.told]
  exact registry_foldl_perform others

end Tells

/-- From `p` to `q` uses are answered. What is answered is gone from the blocks of the file, except
for the occurrences `pending`, which still stand there. -/
def Settles (c : Consumer) (sheet : Stylesheet) (pending : List Occurrence) (p q : Pass) : Prop :=
  ∃ actions paid, Tells c sheet p actions q ∧ (∀ a ∈ actions, a.isNaming = false) ∧
    Pays sheet p q paid ∧ (answers actions).Perm (pending ++ paid)

namespace Settles

variable {pending more : List Occurrence}

theorem refl (p : Pass) : Settles c sheet [] p p :=
  ⟨[], [], .refl p, by simp, .of_sheet rfl, .refl _⟩

theorem trans (h : Settles c sheet pending p q) (h' : Settles c sheet more q r) :
    Settles c sheet (pending ++ more) p r := by
  obtain ⟨actions, paid, tells, others, pays, perm⟩ := h
  obtain ⟨actions', paid', tells', others', pays', perm'⟩ := h'
  refine ⟨actions ++ actions', paid ++ paid', tells.trans tells',
    List.forall_mem_append.2 ⟨others, others'⟩, pays.trans pays', ?_⟩
  rw [answers, List.filterMap_append]
  refine (perm.append perm').trans (List.perm_iff_count.2 fun o => ?_)
  simp only [List.count_append]
  omega

/-- One action that takes no uses away. -/
theorem of_action (a : PassAction) (fits : a.Fits c sheet p) (other : a.isNaming = false)
    (pays : Pays sheet p (a.perform c p) []) :
    Settles c sheet a.answer?.toList p (a.perform c p) := by
  refine ⟨[a], [], .single fits, by simpa using other, pays, ?_⟩
  cases found : a.answer? <;> simp [answers, found]

/-- A block is done. -/
theorem finish (sheet : Stylesheet) (p : Pass) (target : BlockRef) :
    Settles c sheet [] p (p.markDone target) :=
  .of_action (c := c) (p := p) (.finish target) trivial rfl (.of_sheet rfl)

/-- All that is pending at a place is taken away with the uses that stand there. -/
theorem clear (h : Settles c sheet ((q.content ⟨ref, path⟩).uses.map (Occurrence.mk ⟨ref, path⟩))
      p q) (here : Holds q.sheet ref) (inside : Holds sheet ref) :
    Settles c sheet [] p (q.clearUses ⟨ref, path⟩) := by
  obtain ⟨actions, paid, tells, others, pays, perm⟩ := h
  have fits : (PassAction.clear ⟨ref, path⟩).Fits c sheet q := inside
  refine ⟨actions ++ [.clear ⟨ref, path⟩], _, tells.trans (.single fits),
    List.forall_mem_append.2 ⟨others, by simp [PassAction.isNaming]⟩,
    pays.trans (.clear here inside), ?_⟩
  rw [answers, List.filterMap_append]
  exact (List.append_nil _).symm ▸ perm.trans List.perm_append_comm

theorem registry (h : Settles c sheet pending p q) : q.registry = p.registry := by
  obtain ⟨actions, paid, tells, others, -⟩ := h
  exact tells.registry others

end Settles

/-! ## Blocks that are entered -/

/-- Whatever is on the watch list leads to the block by uses in exports. -/
def Leads (c : Consumer) (sheet : Stylesheet) (active : List String) : BlockRef → Prop
  | .own i => ∃ n, exportName sheet i = some n ∧ ∀ k ∈ active, ReflTransGen (c.UsesKey sheet) k n
  | .rule _ => active = []
  | .foreign _ _ => False

namespace Leads

/-- An export that is entered from outside. -/
theorem start {i : Nat} {n : String} (named : exportName sheet i = some n) :
    Leads c sheet [n] (.own i) := by
  refine ⟨n, named, fun k mem => ?_⟩
  rw [List.mem_singleton.1 mem]

/-- A use in an export is one of the uses that the name of the export has. -/
theorem usesKey (h : Underway sheet p) {i : Nat} {n : String} (named : exportName sheet i = some n)
    (used : u ∈ (p.body (.own i)).allUses) : c.UsesKey sheet n (c.keyOf u) := by
  have before := (h.advances (.own i) (lt_of_exportName named)).uses used
  obtain ⟨e, found, rfl⟩ := Option.map_eq_some_iff.1 named
  refine ⟨e, List.mem_of_getElem? found, rfl, u, ?_, rfl⟩
  change u ∈ ((sheet.exports[i]?.map ExportBlock.toBody).getD .empty).allUses at before
  rwa [found] at before

/-- The export that a use asks for is entered. -/
theorem enter (leads : Leads c sheet active ref) (h : Underway sheet p)
    (used : u ∈ (p.body ref).allUses) {i : Nat} (named : exportName sheet i = some (c.keyOf u)) :
    Leads c sheet (c.keyOf u :: active) (.own i) := by
  refine ⟨_, named, List.forall_mem_cons.2 ⟨.refl, fun k mem => ?_⟩⟩
  cases ref with
  | own j =>
    obtain ⟨n, here, all⟩ := leads
    exact (all k mem).tail (usesKey h here used)
  | rule j =>
    rw [show active = [] from leads] at mem
    exact absurd mem List.not_mem_nil
  | foreign => exact leads.elim

/-- A use that is on the watch list leads back to itself. -/
theorem circle (leads : Leads c sheet active ref) (h : Underway sheet p)
    (used : u ∈ (p.body ref).allUses) (watched : c.keyOf u ∈ active) :
    TransGen (c.UsesKey sheet) (c.keyOf u) (c.keyOf u) := by
  cases ref with
  | own j =>
    obtain ⟨n, here, all⟩ := leads
    exact .tail' (all _ watched) (usesKey h here used)
  | rule j =>
    rw [show active = [] from leads] at watched
    exact absurd watched List.not_mem_nil
  | foreign => exact leads.elim

end Leads

/-! ## The steps of a pass -/

/-- From `p` to `q` a use was looked up: what was found is what it asks for, and if that is nothing,
the use is left out. -/
def LookedUp (c : Consumer) (sheet : Stylesheet) (o : Occurrence) (p : Pass)
    (found : Option BlockRef) (q : Pass) : Prop :=
  Settles c sheet (if found = none then [o] else []) p q ∧
    ∀ ref, found = some ref → c.Finds q o.use (some ref)

/-- With so many blocks to enter every block of the file is settled. -/
def Accounts (L : Loading) (file : String) (sheet : Stylesheet) (depth : Nat) : Prop :=
  ∀ {active p ref}, Underway sheet p → Holds sheet ref → Watched sheet active ref →
    Leads ⟨file, L.load⟩ sheet active ref →
    (Outset.ofSheet file sheet).Affords depth active → 0 < depth →
    Proceeds L file (fun c => resolveBlock c depth active ref) p fun _ q =>
      Settles ⟨file, L.load⟩ sheet [] p q

section

variable (lawful : L.Lawful)

include lawful

/-- A fault is written down. -/
theorem report_proceeds (p : Pass) (fault : Fault) :
    Proceeds L file (fun c => modify (·.report c fault)) p fun _ q =>
      q = p.report ⟨file, L.load⟩ fault :=
  .quiet lawful p [.fault file fault] (fun _ _ _ => rfl) rfl rfl

/-- A use is left out. -/
theorem refuse_settles (o : Occurrence) {fault : Fault}
    (fits : (PassAction.refuse o fault).Fits ⟨file, L.load⟩ sheet p) :
    Proceeds L file (fun c => modify (·.report c fault)) p fun _ q =>
      Settles ⟨file, L.load⟩ sheet [o] p q := by
  refine (report_proceeds lawful p fault).imp ?_
  rintro _ _ rfl
  exact .of_action (.refuse o fault) fits rfl (.of_sheet rfl)

/-- The exports of a file that is named are asked for. -/
theorem ask_tells (p : Pass) (named : source ∈ sheet.allSources file)
    (canonical : Path.absolute none source = source) :
    Proceeds L file (fun c => exportsOf c source) p fun es q =>
      es = q.session.exports source ∧ q = (PassAction.ask source).perform ⟨file, L.load⟩ p ∧
        Tells ⟨file, L.load⟩ sheet p [.ask source] q := by
  refine (exportsOf_calls lawful file p canonical).imp ?_
  rintro _ _ ⟨rfl, rfl⟩
  exact ⟨rfl, rfl, .single (a := .ask source) named⟩

/-- A use that asks for nothing there is is left out, and nothing is found for it. -/
theorem missing_lookedUp (o : Occurrence) {fault : Fault}
    (reason : fault = faultOf (ownerIn sheet o.place.block) o.use)
    (finds : Consumer.Finds ⟨file, L.load⟩ p o.use none) :
    Proceeds L file (fun c => do
        modify (·.report c fault)
        return none) p
      (LookedUp ⟨file, L.load⟩ sheet o p) := by
  refine .bind lawful (refuse_settles lawful o (.inr ⟨reason, finds⟩)) ?_
  rintro _ q settles
  exact .of_pure lawful ⟨settles, by rintro _ ⟨⟩⟩

/-- A name stands for a block, or its use is left out. -/
theorem lookup_bare_lookedUp (o : Occurrence) (bare : o.use.source.getD "" = "") (p : Pass) :
    Proceeds L file (fun c => lookup c (ownerIn sheet o.place.block) o.use) p
      (LookedUp ⟨file, L.load⟩ sheet o p) := by
  simp only [Outset.lookup_bare bare]
  refine .get_bind lawful (fun _ _ _ => rfl) ?_
  cases named : p.registry.lookup o.use.name with
  | some ref =>
    refine .of_pure lawful ⟨.refl p, ?_⟩
    rintro _ ⟨⟩
    exact (finds_bare bare).2 named.symm
  | none =>
    exact missing_lookedUp lawful o (faultOf_bare bare _).symm ((finds_bare bare).2 named.symm)

/-- The file that a use names is asked for its block, and without one the use is left out. -/
theorem lookup_qualified_lookedUp (o : Occurrence) (used : o.use ∈ sheet.allUses)
    (qualified : o.use.source.getD "" ≠ "") (p : Pass) :
    Proceeds L file (fun c => lookup c (ownerIn sheet o.place.block) o.use) p
      (LookedUp ⟨file, L.load⟩ sheet o p) := by
  simp only [Outset.lookup_qualified qualified]
  let path := pathIn file (o.use.source.getD "")
  have asks := ask_tells lawful p (mem_allSources_of_use used qualified)
    (absolute_pathIn file (o.use.source.getD ""))
  refine .bind lawful (asks.congr fun _ => rfl) ?_
  rintro es q ⟨rfl, rfl, tells⟩
  have asked : Settles ⟨file, L.load⟩ sheet [] p
      ((PassAction.ask path).perform ⟨file, L.load⟩ p) :=
    ⟨_, [], tells, by simp [PassAction.isNaming], .of_sheet rfl, .refl _⟩
  have there := mem_depend p path
  generalize after : (PassAction.ask path).perform ⟨file, L.load⟩ p = q at asked ⊢
  have finds (found : Option Nat)
      (here : findExport o.use.name (q.session.exports path) = found) :
      Consumer.Finds ⟨file, L.load⟩ q o.use (found.map (.foreign path)) := by
    subst after here
    exact (finds_qualified qualified).2 ⟨there, rfl⟩
  cases found : findExport o.use.name (q.session.exports path) with
  | some i =>
    refine .congr (fun _ => rfl) (.of_pure lawful (a := some (.foreign path i)) ⟨asked, ?_⟩)
    rintro _ ⟨⟩
    exact finds _ found
  | none =>
    refine (missing_lookedUp lawful o (faultOf_qualified qualified _).symm (finds _ found)).imp ?_
    exact fun _ r ⟨settles, sound⟩ => ⟨asked.trans settles, sound⟩

/-- What the use asks for is found, or the use is left out. -/
theorem lookup_lookedUp (o : Occurrence) (used : o.use ∈ sheet.allUses) (p : Pass) :
    Proceeds L file (fun c => lookup c (ownerIn sheet o.place.block) o.use) p
      (LookedUp ⟨file, L.load⟩ sheet o p) := by
  by_cases bare : o.use.source.getD "" = ""
  · exact lookup_bare_lookedUp lawful o bare p
  · exact lookup_qualified_lookedUp lawful o used bare p

/-- A block without uses is copied where a use stands. -/
theorem copy_settles (h : Underway sheet p) (inside : Holds sheet ref)
    (stands : MayStandFor sheet p.dependencies name target)
    (finds : Consumer.Finds ⟨file, L.load⟩ p u (some target)) (other : target ≠ ref)
    (done : ∀ i, target = .own i → target ∈ p.done) :
    Proceeds L file (fun c => do
        copyBlock ⟨ref, path⟩ target
        inSession (modify (·.log [.inlined c.file u.name]))) p
      fun _ q => Settles ⟨file, L.load⟩ sheet [⟨⟨ref, path⟩, u⟩] p q := by
  refine .of_ready fun ready => ?_
  have free := h.free_of_done (lawful.clean ready) stands done
  refine (copy_appends lawful h inside stands other done).imp ?_
  rintro _ _ rfl
  exact .of_action (c := ⟨file, L.load⟩) (.inline ⟨⟨ref, path⟩, u⟩ target) ⟨finds, free⟩ rfl
    (.append (h.holds inside) free _)

/-- A block is resolved before it is copied. A use that asks for it asks for it still. -/
theorem settle_settles (active : List String) (accounts : Accounts L file sheet depth)
    (h : Underway sheet p) (stands : MayStandFor sheet p.dependencies name target)
    (own : ∀ i, target = .own i → name ∈ active ∧ Leads ⟨file, L.load⟩ sheet active target ∧
      (Outset.ofSheet file sheet).Affords depth active ∧ 0 < depth) :
    Proceeds L file (fun c => do
        resolveBlock c depth active target
        modify (·.markDone target)) p
      fun _ q => Settles ⟨file, L.load⟩ sheet [] p q ∧
        ∀ u, Consumer.Finds ⟨file, L.load⟩ p u (some target) →
          Consumer.Finds ⟨file, L.load⟩ q u (some target) := by
  refine (settle_of lawful (Q := fun q => Settles ⟨file, L.load⟩ sheet [] p q ∧
    ∀ u, Consumer.Finds ⟨file, L.load⟩ p u (some target) →
      Consumer.Finds ⟨file, L.load⟩ q u (some target)) active h stands ?_
    fun _ => ⟨.refl p, fun _ => id⟩).imp ?_
  · rintro i rfl
    obtain ⟨watched, leads, affords, enough⟩ := own i rfl
    have inside : Holds sheet (.own i) := lt_of_exportName stands
    have entered : Watched sheet active (.own i) := ⟨name, watched, stands⟩
    refine (accounts h inside entered leads affords enough).imp ?_
    exact fun _ q settles => ⟨settles, fun u finds => finds.own settles.registry⟩
  · rintro _ _ ⟨q, ⟨settles, finds⟩, rfl⟩
    exact ⟨settles.trans (.finish sheet q target), finds⟩

/-- A use is answered once. -/
theorem inlineUse_settles (accounts : Accounts L file sheet depth) (h : Underway sheet p)
    (inside : Holds sheet ref) (watched : Watched sheet active ref)
    (leads : Leads ⟨file, L.load⟩ sheet active ref)
    (affords : (Outset.ofSheet file sheet).Affords (depth + 1) active)
    (used : u ∈ (p.body ref).allUses) :
    Proceeds L file
      (fun c => inlineUse c (resolveBlock c depth) active (ownerIn sheet ref) ⟨ref, path⟩ u) p
      fun _ q => Settles ⟨file, L.load⟩ sheet [⟨⟨ref, path⟩, u⟩] p q := by
  let c : Consumer := ⟨file, L.load⟩
  let o : Occurrence := ⟨⟨ref, path⟩, u⟩
  have drained : Drained L file sheet depth := drained lawful file sheet depth
  refine inlineUse_of lawful
    (F := fun found q => Underway sheet q ∧
      Settles c sheet (if found = none then [o] else []) p q ∧
      ∀ target, found = some target → MayStandFor sheet q.dependencies (c.keyOf u) target ∧
        c.Finds q u (some target) ∧ c.keyOf u ∉ active)
    (G := fun target q => Underway sheet q ∧ Settles c sheet [] p q ∧
      MayStandFor sheet q.dependencies (c.keyOf u) target ∧
      c.Finds q u (some target) ∧ target ≠ ref ∧ target ∈ q.done)
    active (ownerIn sheet ref) (fun watching => ?circular)
    (fun unwatched => ?looked) (fun q looked => looked.2.1) ?left ?settled ?copied
  case circular =>
    have circle : TransGen (c.UsesKey sheet) (c.keyOf u) (c.keyOf u) := leads.circle h used watching
    exact refuse_settles lawful o (.inl ⟨rfl, circle⟩)
  case looked =>
    refine ((lookup_proceeds lawful h (ownerIn sheet ref) u).and
      (lookup_lookedUp lawful o (h.mem_allUses inside used) p)).imp ?_
    rintro found q ⟨⟨underway, -, -, -, stands⟩, looked, finds⟩
    exact ⟨underway, looked, fun target here =>
      ⟨stands _ target here, finds target here, unwatched⟩⟩
  case left =>
    rintro target q ⟨underway, looked, stands⟩ done
    obtain ⟨stands, finds, unwatched⟩ := stands target rfl
    exact ⟨underway, looked, stands, finds, (watched.ne unwatched stands).symm, done⟩
  case settled =>
    rintro target q ⟨underway, looked, stands⟩ -
    obtain ⟨stands, finds, unwatched⟩ := stands target rfl
    have enough := affords.enter unwatched (h.mem_allUses inside used)
    refine ((settle_proceeds lawful _ drained underway stands fun _ _ =>
      ⟨List.mem_cons_self, enough⟩).and (settle_settles lawful _ accounts underway stands ?_)).imp ?_
    · rintro i rfl
      have entered : Leads c sheet (c.keyOf u :: active) (.own i) := leads.enter h used stands
      exact ⟨List.mem_cons_self, entered, enough⟩
    · rintro _ r ⟨⟨stretch, done⟩, settled, still⟩
      exact ⟨stretch.underway, looked.trans settled, stands.mono stretch.asked, still u finds,
        (watched.ne unwatched stands).symm, done⟩
  case copied =>
    rintro target r ⟨underway, settled, stands, finds, other, done⟩
    exact (copy_settles lawful underway inside stands finds other fun _ _ => done).imp
      fun _ _ copied => settled.trans copied

/-- At a place each use is answered once before all are taken away. -/
theorem inlineAt_settles (accounts : Accounts L file sheet depth) (h : Underway sheet p)
    (inside : Holds sheet ref) (watched : Watched sheet active ref)
    (leads : Leads ⟨file, L.load⟩ sheet active ref)
    (affords : (Outset.ofSheet file sheet).Affords (depth + 1) active) :
    Proceeds L file
      (fun c => inlineAt c (resolveBlock c depth) active (ownerIn sheet ref) ref path) p
      fun _ q => Settles ⟨file, L.load⟩ sheet [] p q := by
  have drained : Drained L file sheet depth := drained lawful file sheet depth
  refine (inlineAt_keeps lawful (I := fun before q =>
    Settles ⟨file, L.load⟩ sheet (before.map (Occurrence.mk ⟨ref, path⟩)) p q)
    drained h inside watched affords (ownerIn sheet ref) (.refl p) ?_ ?_).imp
    fun _ _ kept => kept.2
  · intro before u q works settles used
    refine (inlineUse_settles lawful accounts works.1.underway inside watched leads affords
      used).imp ?_
    intro _ r answered
    rw [List.map_append]
    exact settles.trans answered
  · intro q works settles
    exact settles.clear (works.1.underway.holds inside) inside

/-- Any number of blocks to enter is enough for the blocks that can be entered with it. -/
theorem accounts (file : String) (sheet : Stylesheet) (depth : Nat) :
    Accounts L file sheet depth := by
  induction depth with
  | zero =>
    intro _ _ _ _ _ _ _ _ enough
    exact absurd enough (Nat.lt_irrefl 0)
  | succ depth ih =>
    intro active p ref h inside watched leads affords _
    have drained : Drained L file sheet depth := drained lawful file sheet depth
    have owner : p.nameOf ref = ownerIn sheet ref := by
      cases ref with
      | own i => exact h.nameOf_eq i
      | rule i => rfl
      | foreign => exact inside.elim
    refine (resolveBlock_keeps lawful (I := fun q => Settles ⟨file, L.load⟩ sheet [] p q) drained
      h inside watched affords (.refl p) fun path q underway _ settles => ?_).imp
      fun _ _ kept => kept.2
    rw [owner]
    exact (inlineAt_settles lawful ih underway inside watched leads affords).imp
      fun _ _ answered => settles.trans answered

theorem resolveExport_settles (h : Underway sheet p)
    (stands : MayStandFor sheet p.dependencies name ref) (enough : sheet.allUses.length < depth) :
    Proceeds L file (fun c => resolveExport c depth ref) p fun _ q =>
      Settles ⟨file, L.load⟩ sheet [] p q := by
  have accounts : Accounts L file sheet depth := accounts lawful file sheet depth
  refine resolveExport_of lawful stands (fun _ => .refl p)
    ((settle_settles lawful _ accounts h stands ?_).imp fun _ _ settles => settles.1)
  rintro i rfl
  obtain ⟨watched, enough⟩ := h.enters stands enough file
  have owner : p.nameOf (.own i) = some name := (h.nameOf_eq i).trans stands
  have leads : Leads ⟨file, L.load⟩ sheet (p.nameOf (.own i)).toList (.own i) := by
    rw [owner]
    exact .start stands
  exact ⟨watched, leads, enough⟩

theorem resolveRules_settles (h : Underway sheet p) (enough : sheet.allUses.length < depth) :
    Proceeds L file (fun c => resolveRules c depth) p fun _ q =>
      Settles ⟨file, L.load⟩ sheet [] p q := by
  refine .get_bind lawful (fun _ _ _ => rfl) (.imp (.forM lawful
    (I := fun _ q => Underway sheet q ∧ Settles ⟨file, L.load⟩ sheet [] p q) ⟨h, .refl p⟩ ?_)
    fun _ _ all => all.2)
  rintro before i after split q ⟨h', settles⟩
  have inside : Holds sheet (.rule i) := holds_rule h.length_rules split
  have affords : (Outset.ofSheet file sheet).Affords depth [] := Outset.affords_of_lt enough []
  have positive := Nat.zero_lt_of_lt enough
  refine ((drained lawful file sheet depth h' inside trivial affords positive).and
    (accounts lawful file sheet depth h' inside trivial rfl affords positive)).imp ?_
  exact fun _ r further => ⟨further.1.1.underway, settles.trans further.2⟩

end

/-! ## Names get their blocks -/

/-- The actions tell what becomes of a name in an import: it gets a block of the file, or it is
written down that there is none. -/
def NamesImported (c : Consumer) (actions : List PassAction) (imp : ImportDirective)
    (name : String) : Prop :=
  (∃ i, .register name (.foreign (c.pathOf imp.source) i) ∈ actions) ∨
    ∃ available, .note (.importNotFound name imp.source available) ∈ actions

theorem NamesImported.mono {imp : ImportDirective} (h : NamesImported c actions imp name)
    (sub : actions ⊆ more) : NamesImported c more imp name :=
  h.imp (fun ⟨i, mem⟩ => ⟨i, sub mem⟩) fun ⟨available, mem⟩ => ⟨available, sub mem⟩

/-- With these actions all names get their blocks, those of exports and those that are imported, and
no use is answered. -/
structure NamesAll (c : Consumer) (sheet : Stylesheet) (actions : List PassAction) : Prop where
  unanswered : answers actions = []
  exports : ∀ i e, sheet.exports[i]? = some e → .register e.name (.own i) ∈ actions
  imports : ∀ imp ∈ sheet.imports, ∀ name ∈ imp.names, NamesImported c actions imp name

/-- From `p` to `q` the pass does what these actions tell, which leave the file as it is. -/
structure Introduces (c : Consumer) (sheet : Stylesheet) (p : Pass) (actions : List PassAction)
    (q : Pass) : Prop extends Tells c sheet p actions q where
  unchanged : q.sheet = p.sheet
  unanswered : answers actions = []

namespace Introduces

theorem refl (p : Pass) : Introduces c sheet p [] p :=
  ⟨.refl p, rfl, rfl⟩

theorem trans (h : Introduces c sheet p actions q) (h' : Introduces c sheet q more r) :
    Introduces c sheet p (actions ++ more) r where
  toTells := h.toTells.trans h'.toTells
  unchanged := h'.unchanged.trans h.unchanged
  unanswered := by
    rw [answers, List.filterMap_append]
    exact List.append_eq_nil_iff.2 ⟨h.unanswered, h'.unanswered⟩

/-- A name gets its block. -/
theorem register (fits : (PassAction.register name ref).Fits c sheet p) :
    Introduces c sheet p [.register name ref] (p.register name ref) :=
  ⟨.single fits, rfl, rfl⟩

/-- It is written down why a name does not get a block, or gets another one. -/
theorem note {fault : Fault} (fits : (PassAction.note fault).Fits c sheet p) :
    Introduces c sheet p [.note fault] (p.report c fault) :=
  ⟨.single fits, rfl, rfl⟩

end Introduces

section

variable (lawful : L.Lawful)

include lawful

theorem register_introduces {p q : Pass} (introduces : Introduces ⟨file, L.load⟩ sheet p actions q)
    (fits : (PassAction.register name ref).Fits ⟨file, L.load⟩ sheet q) :
    Proceeds L file (fun _ => modify (·.register name ref)) q fun _ r =>
      r.session = q.session ∧ r.dependencies = q.dependencies ∧
        Introduces ⟨file, L.load⟩ sheet p (actions ++ [.register name ref]) r :=
  .of_modify lawful (q.register name ref) (fun _ _ => rfl) rfl
    ⟨rfl, rfl, introduces.trans (.register fits)⟩

theorem note_introduces {p q : Pass} (introduces : Introduces ⟨file, L.load⟩ sheet p actions q)
    {fault : Fault} (fits : (PassAction.note fault).Fits ⟨file, L.load⟩ sheet q) :
    Proceeds L file (fun c => modify (·.report c fault)) q fun _ r =>
      r = q.report ⟨file, L.load⟩ fault ∧
        Introduces ⟨file, L.load⟩ sheet p (actions ++ [.note fault]) r := by
  refine (report_proceeds lawful q fault).imp ?_
  rintro _ _ rfl
  exact ⟨rfl, introduces.trans (.note fits)⟩

/-- The names of the exports get their blocks. -/
theorem registerExports_introduces (same : p.sheet = sheet) :
    Proceeds L file registerExports p fun _ q =>
      ∃ actions, Introduces ⟨file, L.load⟩ sheet p actions q ∧
        ∀ i e, sheet.exports[i]? = some e → .register e.name (.own i) ∈ actions := by
  refine .get_bind lawful (fun _ _ _ => rfl) (.imp (.forM lawful
    (I := fun before q => ∃ actions, Introduces ⟨file, L.load⟩ sheet p actions q ∧
      ∀ entry ∈ before, .register entry.1.name (.own entry.2) ∈ actions)
    ⟨[], .refl p, fun _ mem => absurd mem List.not_mem_nil⟩ ?_) ?_)
  · rintro before ⟨e, i⟩ after split q ⟨actions, introduces, given⟩
    have found : sheet.exports[i]? = some e := same ▸ getElem?_of_split split
    have named : exportName sheet i = some e.name := congrArg (Option.map ExportBlock.name) found
    have fits (q : Pass) :
        (PassAction.register e.name (.own i)).Fits ⟨file, L.load⟩ sheet q := named
    have register {actions' : List PassAction} {r : Pass}
        (introduces : Introduces ⟨file, L.load⟩ sheet p actions' r) (sub : actions ⊆ actions') :
        Proceeds L file (fun _ => modify (·.register e.name (.own i))) r fun _ t =>
          ∃ actions, Introduces ⟨file, L.load⟩ sheet p actions t ∧
            ∀ entry ∈ before ++ [(e, i)], .register entry.1.name (.own entry.2) ∈ actions := by
      refine (register_introduces lawful introduces (fits r)).imp ?_
      rintro _ t ⟨-, -, introduces⟩
      refine ⟨_, introduces, List.forall_mem_append.2 ⟨fun entry mem => ?_, ?_⟩⟩
      · exact List.mem_append_left _ (sub (given entry mem))
      · exact List.forall_mem_singleton.2 (List.mem_append_right _ (List.mem_singleton_self _))
    refine .get_bind lawful (fun _ _ _ => rfl) ?_
    by_cases double : (q.registry.lookup e.name).isSome
    · have noted : (PassAction.note (.duplicateExport e.name)).Fits ⟨file, L.load⟩ sheet q :=
        ⟨e, List.mem_of_getElem? found, rfl⟩
      refine .of_pos (fun _ => double) (.bind lawful (note_introduces lawful introduces noted) ?_)
      rintro _ r ⟨-, noted⟩
      exact register noted (List.subset_append_left _ _)
    · exact .of_neg (fun _ => double) (register introduces (List.Subset.refl _))
  · rintro _ q ⟨actions, introduces, given⟩
    refine ⟨actions, introduces, fun i e found => ?_⟩
    exact given (e, i) (List.mk_mem_zipIdx_iff_getElem?.2 (same.symm ▸ found))

/-- The names of an import get their blocks. -/
theorem applyImport_introduces (p : Pass) {imp : ImportDirective} (mem : imp ∈ sheet.imports) :
    Proceeds L file (fun c => applyImport c imp) p fun _ q =>
      ∃ actions, Introduces ⟨file, L.load⟩ sheet p actions q ∧
        ∀ name ∈ imp.names, NamesImported ⟨file, L.load⟩ actions imp name := by
  let c : Consumer := ⟨file, L.load⟩
  have asks := ask_tells lawful p (mem_allSources_of_import mem) (absolute_pathIn file imp.source)
  refine .bind lawful (asks.congr fun _ => rfl) ?_
  rintro es q ⟨rfl, rfl, tells⟩
  have asked : Introduces c sheet p [.ask (pathIn file imp.source)]
      ((PassAction.ask (pathIn file imp.source)).perform c p) := ⟨tells, rfl, rfl⟩
  have there := mem_depend p (pathIn file imp.source)
  generalize after : (PassAction.ask (pathIn file imp.source)).perform c p = q at asked ⊢
  replace there : pathIn file imp.source ∈ q.dependencies := after ▸ there
  refine (Proceeds.forM lawful (I := fun before r => r.session.library = q.session.library ∧
    r.dependencies = q.dependencies ∧ ∃ actions, Introduces c sheet p actions r ∧
      ∀ name ∈ before, NamesImported c actions imp name)
    ⟨rfl, rfl, _, asked, fun _ mem => absurd mem List.not_mem_nil⟩ ?_).imp
    fun _ _ all => all.2.2
  rintro before name behind split r ⟨library, dependencies, actions, introduces, given⟩
  have exports : r.session.exports (pathIn file imp.source) =
      q.session.exports (pathIn file imp.source) := Session.exports_of_library library _
  have asked' : c.pathOf imp.source ∈ r.dependencies := dependencies ▸ there
  have further {a : PassAction} (named : NamesImported c [a] imp name) :
      ∀ x ∈ before ++ [name], NamesImported c (actions ++ [a]) imp x :=
    List.forall_mem_append.2 ⟨fun x mem => (given x mem).mono (List.subset_append_left _ _),
      List.forall_mem_singleton.2 (named.mono (List.subset_append_right _ _))⟩
  cases found : (exportTable (q.session.exports (pathIn file imp.source))).lookup name with
  | some i =>
    have fits : (PassAction.register name (.foreign (c.pathOf imp.source) i)).Fits c sheet r :=
      ⟨asked', ⟨imp, mem, mem_of_split split, rfl⟩, exports ▸ found⟩
    refine .congr (fun _ => rfl) ((register_introduces lawful introduces fits).imp ?_)
    rintro _ t ⟨session, asked, introduces⟩
    exact ⟨session ▸ library, asked.trans dependencies, _, introduces,
      further (.inl ⟨i, List.mem_singleton_self _⟩)⟩
  | none =>
    have fits : (PassAction.note (.importNotFound name imp.source
        ((exportTable (q.session.exports (pathIn file imp.source))).map (·.1)))).Fits c sheet r :=
      ⟨asked', exports ▸ found, exports ▸ rfl⟩
    refine .congr (fun _ => rfl) ((note_introduces lawful introduces fits).imp ?_)
    rintro _ t ⟨rfl, introduces⟩
    exact ⟨library, dependencies, _, introduces, further (.inr ⟨_, List.mem_singleton_self _⟩)⟩

/-- All names get their blocks before a use is answered. -/
theorem prepare_settles (s : Session) (enough : sheet.allUses.length < depth) :
    Proceeds L file (fun c => prepare c depth) (Pass.start s sheet) fun _ q =>
      ∃ named p, Introduces ⟨file, L.load⟩ sheet (Pass.start s sheet) named p ∧
        NamesAll ⟨file, L.load⟩ sheet named ∧ Settles ⟨file, L.load⟩ sheet [] p q := by
  let c : Consumer := ⟨file, L.load⟩
  let start := Pass.start s sheet
  refine .bind lawful ((registerExports_proceeds lawful (Underway.start s sheet)).and
    (registerExports_introduces lawful rfl)) ?_
  rintro _ p ⟨h, actions, introduces, exports⟩
  have imports : p.sheet.imports = sheet.imports := h.imports
  refine .get_bind lawful (fun _ _ _ => rfl) (.bind lawful (.forM lawful
    (I := fun before q => Underway sheet q ∧ ∃ actions, Introduces c sheet start actions q ∧
      (∀ i e, sheet.exports[i]? = some e → .register e.name (.own i) ∈ actions) ∧
        ∀ imp ∈ before, ∀ name ∈ imp.names, NamesImported c actions imp name)
    ⟨h, actions, introduces, exports, fun _ mem => absurd mem List.not_mem_nil⟩ ?_) ?_)
  · rintro before imp after split q ⟨h, actions, introduces, exports, given⟩
    have mem : imp ∈ sheet.imports := imports ▸ mem_of_split split
    refine ((applyImport_proceeds lawful h imp).and (applyImport_introduces lawful q mem)).imp ?_
    rintro _ r ⟨h, more, further, named⟩
    refine ⟨h, _, introduces.trans further,
      fun i e found => List.mem_append_left _ (exports i e found), ?_⟩
    refine List.forall_mem_append.2 ⟨fun imp mem name here => ?_, ?_⟩
    · exact (given imp mem name here).mono (List.subset_append_left _ _)
    · exact List.forall_mem_singleton.2 fun name here =>
        (named name here).mono (List.subset_append_right _ _)
  rintro _ p ⟨h, named, introduces, exports, given⟩
  rw [imports] at given
  refine (resolveAll_keeps lawful (I := Settles c sheet [] p) h (.refl p) enough ?_).imp ?_
  · rintro q name ref h settles stands
    exact (resolveExport_settles lawful h stands enough).imp
      fun _ _ further => settles.trans further
  · exact fun _ q settles =>
      ⟨named, p, introduces, ⟨introduces.unanswered, exports, given⟩, settles⟩

/-- Everything that a pass does is told by actions. -/
theorem pass_settles (file : String) (s : Session) (enough : sheet.allUses.length < depth) :
    Proceeds L file (fun c => do prepare c depth; resolveRules c depth) (Pass.start s sheet)
      fun _ q => ∃ named p, Introduces ⟨file, L.load⟩ sheet (Pass.start s sheet) named p ∧
        NamesAll ⟨file, L.load⟩ sheet named ∧ Settles ⟨file, L.load⟩ sheet [] p q := by
  refine .bind lawful ((prepare_proceeds lawful s enough).and (prepare_settles lawful s enough)) ?_
  rintro _ q ⟨⟨h, -⟩, named, p, introduces, names, settles⟩
  refine (resolveRules_settles lawful h enough).imp ?_
  exact fun _ r further => ⟨named, p, introduces, names, settles.trans further⟩

/-- Only files that are named in the file are asked for. -/
theorem pass_asks (file : String) (s : Session) (enough : sheet.allUses.length < depth) :
    Proceeds L file (fun c => do prepare c depth; resolveRules c depth) (Pass.start s sheet)
      fun _ q => q.dependencies ⊆ sheet.allSources file := by
  refine (pass_settles lawful file s enough).imp ?_
  rintro _ q ⟨named, p, introduces, -, actions, paid, tells, -⟩
  have all := (introduces.toTells.trans tells)
  rw [all.told]
  exact all.fits.dependencies_subset

end

/-! ## Each occurrence is answered once -/

/-- Once no uses are left, what was answered for are the occurrences of the file. -/
theorem Pays.perm_occurrences {s : Session} {paid : List Occurrence}
    (pays : Pays sheet (Pass.start s sheet) q paid) (h : Underway sheet q)
    (free : q.sheet.allUses = []) :
    paid.Perm sheet.occurrences := by
  refine List.perm_iff_count.2 fun o => ?_
  by_cases inside : Holds sheet o.place.block
  · calc paid.count o
      _ = paid.count o + q.sheet.occurrences.count o := by
        rw [Stylesheet.occurrences_eq_nil free, List.count_nil, Nat.add_zero]
      _ = paid.count o + (q.content o.place).uses.count o.use := by
        rw [Stylesheet.count_occurrences (h.holds inside), Pass.usesAt_sheet inside]
      _ = ((Pass.start s sheet).content o.place).uses.count o.use := (pays.count_eq o inside).symm
      _ = sheet.occurrences.count o := by
        rw [← Pass.usesAt_sheet inside, Stylesheet.count_occurrences inside]
        rfl
  · rw [List.count_eq_zero.2 fun mem => inside (pays.inside o mem),
      List.count_eq_zero.2 fun mem => inside (Stylesheet.holds_of_mem_occurrences mem)]

end Reuse

open Reuse

namespace Stylesheet

variable {c : Consumer} {s : Session}

/-- Whatever names are unknown or double and however blocks use each other, a pass first gives all
names their blocks and then answers each use just once, where it stands: by the content of the block
that it asks for, or by one fault of the use. There are as many such answers as uses, also in the
journal, if the loader answers no uses of the file. A loader that leaves alone what is known makes
sure that the blocks are there and have the names of the uses. -/
theorem resolve_accounts (supplies : c.Supplies) (clean : s.Clean) (keep : Bool)
    (sheet : Stylesheet) :
    ∃ p t named settled, sheet.resolve c keep s = (.ok ⟨p.sheet, p.dependencies⟩, t) ∧
      t.journal = p.session.journal ∧
      p = (named ++ settled).foldl (PassAction.perform c) (Pass.start s sheet) ∧
      Fitting c sheet (Pass.start s sheet) (named ++ settled) ∧
      NamesAll c sheet named ∧ (∀ a ∈ settled, a.isNaming = false) ∧
      (answers settled).Perm sheet.occurrences ∧
      answered c.file ((named ++ settled).flatMap (PassAction.events c.file)) =
        sheet.allUses.length ∧
      ((∀ path s, answered c.file (c.load path s).2.journal = answered c.file s.journal) →
        answered c.file t.journal = answered c.file s.journal + sheet.allUses.length) ∧
      (c.Retains → ∀ before o target after, named ++ settled = before ++ .inline o target :: after →
        let q := before.foldl (PassAction.perform c) (Pass.start s sheet)
        ∃ e, q.export? target = some e ∧ e.name = o.use.name ∧ q.body target = e.toBody) := by
  have enough := allUses_lt_start s sheet
  obtain ⟨p, t, run, journal, ⟨underway, free⟩, named, q, introduces, names, settled, paid, tells,
      others, pays, perm⟩ :=
    resolve_of_runs keep (supplies.runs clean ((pass_drains supplies.lawful c.file s enough).and
      (pass_settles supplies.lawful c.file s enough)))
  have all := introduces.toTells.trans tells
  have paid_eq : Pays sheet (Pass.start s sheet) p ([] ++ paid) :=
    (Pays.of_sheet introduces.unchanged).trans pays
  have each : (answers settled).Perm sheet.occurrences :=
    perm.trans (paid_eq.perm_occurrences underway free)
  have count : answered c.file ((named ++ settled).flatMap (PassAction.events c.file)) =
      sheet.allUses.length := by
    rw [all.fits.answered_events, answers, List.filterMap_append, ← answers, ← answers,
      names.unanswered, List.nil_append, each.length_eq, ← map_use_occurrences, List.length_map]
  refine ⟨p, t, named, settled, run, journal, all.told, all.fits, names, others, each, count,
    fun others => ?_, fun retains before o target after split => ?_⟩
  · have written := answered_foldl_perform others (named ++ settled) (Pass.start s sheet)
    rw [journal, ← count, all.told]
    exact written
  · have fits := all.fits
    rw [split] at fits
    exact fits.exists_block supplies retains clean

/-- A loader that only notes what it is asked for leaves alone what is known. -/
theorem noting_retains (file : String) : (Consumer.noting file).Retains :=
  fun _ _ _ _ _ known => known

theorem resolve_accounts_circle :
    (Consumer.noting "/f").Supplies ∧ (Session.mk otherBlocks [] []).Clean ∧
      (Consumer.noting "/f").Retains ∧
      ∃ p t named settled, circle.resolve (.noting "/f") true ⟨otherBlocks, [], []⟩ =
          (.ok ⟨p.sheet, p.dependencies⟩, t) ∧
        p = (named ++ settled).foldl (PassAction.perform (.noting "/f"))
          (Pass.start ⟨otherBlocks, [], []⟩ circle) ∧
        Fitting (.noting "/f") circle (Pass.start ⟨otherBlocks, [], []⟩ circle)
          (named ++ settled) ∧
        NamesAll (.noting "/f") circle named ∧ (answers settled).Perm circle.occurrences ∧
        answered "/f" ((named ++ settled).flatMap (PassAction.events "/f")) = 6 ∧
        answered "/f" t.journal = 6 ∧
        ∀ before o target after, named ++ settled = before ++ .inline o target :: after →
          let q := before.foldl (PassAction.perform (.noting "/f"))
            (Pass.start ⟨otherBlocks, [], []⟩ circle)
          ∃ e, q.export? target = some e ∧ e.name = o.use.name ∧ q.body target = e.toBody := by
  have supplies : (Consumer.noting "/f").Supplies := Consumer.noting_supplies "/f"
  have retains : (Consumer.noting "/f").Retains := noting_retains "/f"
  have six : circle.allUses.length = 6 := by decide
  obtain ⟨p, t, named, settled, run, -, told, fits, names, -, each, count, all, there⟩ :=
    resolve_accounts supplies clean_otherBlocks true circle
  have journal := all fun path s => answered_append "/f" s.journal [.asked path]
  rw [six] at count journal
  exact ⟨supplies, clean_otherBlocks, retains, p, t, named, settled, run, told, fits, names, each,
    count, journal, there retains⟩

/-- Six uses occur in the circle. Four of them give way to a block, one is circular and one asks for
a name that nothing has. -/
example : circle.occurrences.length = 6 ∧
    (circle.resolve (.noting "/f") true ⟨otherBlocks, [], []⟩).2.journal.countP
      (Event.inlines "/f") = 4 ∧
    useFaults "/f" (circle.resolve (.noting "/f") true ⟨otherBlocks, [], []⟩).2.journal =
      [.circularUse (some "two") "one", .usedUndefined none "lost"] := by
  decide +kernel

end Stylesheet

end NestedStyles
