import NestedStyles.Proofs.Reuse.Course
import NestedStyles.Proofs.Reuse.Underway

/-!
# Draining a file of its uses

A pass leaves no use in a file and its blocks have advanced, whatever they use and whatever the
loader makes known, as long as that has no uses (`pass_proceeds`). A block is copied only when it is
done, and so it brings no uses; it is marked done only when it has none. By induction on the number
of blocks that may still be entered, a block that is entered is drained (`drained`).
-/

namespace NestedStyles

theorem Session.exports_of_library {s t : Session} (same : t.library = s.library)
    (source : String) : t.exports source = s.exports source := by
  rw [exports, exports, exports?, exports?, same]

namespace Reuse

variable {L : Loading} {file source name : String} {sheet : Stylesheet} {p q r : Pass}
variable {active : List String} {depth : Nat} {u : UseDirective} {ref target : BlockRef}
variable {path : List Nat} {s : Session}

/-- The exports of a file have no uses, if it is known at all. -/
theorem free_exports_of_clean (clean : s.Clean) (path : String) :
    Inquiry.Free (s.exports path) := by
  cases known : s.exports? path with
  | none =>
    rw [Session.exports, known]
    exact fun _ mem => absurd mem List.not_mem_nil
  | some es =>
    rw [Session.exports, known]
    exact clean.free _ (Table.mem_of_lookup known)

/-- A block of another file has no uses. -/
theorem free_foreign_of_clean (clean : p.session.Clean) (path : String) (i : Nat) :
    (p.body (.foreign path i)).allUses = [] := by
  change (((p.session.exports path)[i]?.map ExportBlock.toBody).getD .empty).allUses = []
  cases found : (p.session.exports path)[i]? with
  | none => rfl
  | some e => exact free_exports_of_clean clean path e (List.mem_of_getElem? found)

/-- A block that may be asked for has no uses if it is one of another file or done. -/
theorem Underway.free_of_done (h : Underway sheet p) (clean : p.session.Clean)
    (stands : MayStandFor sheet p.dependencies name ref)
    (done : ∀ i, ref = .own i → ref ∈ p.done) : (p.body ref).allUses = [] := by
  cases ref with
  | own i => exact h.done i (done i rfl)
  | rule i => exact stands.elim
  | foreign path i => exact free_foreign_of_clean clean path i

/-- What is known of the session the step starts in. -/
theorem Proceeds.of_ready {α : Type} {act : Consumer → PassM α} {Q : α → Pass → Prop}
    (h : L.ready p.session → Proceeds L file act p Q) : Proceeds L file act p Q :=
  fun ready => h ready ready

section

variable (lawful : L.Lawful)

include lawful

/-! ## Asking for blocks -/

/-- Asking for the exports of a file is calling the loader once. What is known then is given. -/
theorem exportsOf_calls (file : String) (p : Pass) {source : String}
    (canonical : Path.absolute none source = source) :
    Proceeds L file (fun c => exportsOf c source) p fun es q =>
      es = q.session.exports source ∧
        q = { p.depend source with session := (L.load source p.session).2 } := by
  intro ready
  let call : Call := ⟨source, canonical, p.session⟩
  obtain ⟨ready', grows⟩ := lawful.load ready source
  cases result : (L.load source p.session).1 with
  | ok =>
    have loads : L.load source p.session = (.ok (), L.after call) := Prod.ext result rfl
    refine .inl ⟨[call], (L.after call).exports source,
      { p.depend source with session := L.after call }, ?_, rfl, rfl⟩
    constructor
    case run => exact exportsOf_of_ok loads
    case ready => exact ready'
    case grows => exact grows
    case asked => exact subset_depend p source
    case called =>
      intro _ mem
      obtain rfl := List.mem_singleton.1 mem
      exact ⟨ready, mem_depend p source, result, lawful.refl _⟩
    case again =>
      intro alike load s likeness echoes same
      obtain ⟨s', loads', same'⟩ := echoes call (List.mem_singleton_self _) p.dependencies s same
      have here := likeness.exports same' source List.mem_cons_self
      refine ⟨s', here ▸ exportsOf_of_ok loads', likeness.mono (fun d mem => ?_) same'⟩
      exact List.mem_cons.2 (mem_depend_iff mem)
  | error e =>
    have broken : exportsOf ⟨file, L.load⟩ source p =
        (.error e, { p.depend source with session := L.after call }) :=
      exportsOf_of_error (Prod.ext result rfl)
    exact .inr ⟨call, e, _, ready, result, broken, ready', grows⟩

theorem exportsOf_proceeds (file : String) (p : Pass) {source : String}
    (canonical : Path.absolute none source = source) :
    Proceeds L file (fun c => exportsOf c source) p fun _ q =>
      ∃ s, q = { p.depend source with session := s } :=
  (exportsOf_calls lawful file p canonical).imp fun _ _ same => ⟨_, same.2⟩

/-- A use asks for nothing there is, or for a block that its key may stand for. -/
theorem lookup_proceeds (h : Underway sheet p) (owner : Option String) (u : UseDirective) :
    Proceeds L file (fun c => lookup c owner u) p fun found q =>
      Underway sheet q ∧ q.sheet = p.sheet ∧ q.done = p.done ∧ p.dependencies ⊆ q.dependencies ∧
        ∀ c : Consumer, ∀ ref, found = some ref →
          MayStandFor sheet q.dependencies (c.keyOf u) ref := by
  by_cases bare : u.source.getD "" = ""
  · simp only [Outset.lookup_bare bare]
    refine .get_bind lawful (fun _ _ _ => rfl) ?_
    cases named : p.registry.lookup u.name with
    | some ref =>
      refine .of_pure lawful ⟨h, rfl, rfl, List.Subset.refl _, ?_⟩
      rintro c _ ⟨⟩
      rw [Consumer.keyOf_bare bare]
      exact h.registry _ (Table.mem_of_lookup named)
    | none =>
      refine .bind lawful (Q := fun _ q => ∃ s, q = { p with session := s })
        (.of_report lawful _ fun events => ⟨_, rfl⟩) ?_
      rintro _ _ ⟨s, rfl⟩
      exact .of_pure lawful ⟨h.congr rfl rfl rfl (List.Subset.refl _), rfl, rfl,
        List.Subset.refl _, by rintro _ _ ⟨⟩⟩
  · simp only [Outset.lookup_qualified bare]
    have asks := exportsOf_proceeds lawful file p (absolute_pathIn file (u.source.getD ""))
    refine .bind lawful (asks.congr fun _ => rfl) ?_
    rintro es _ ⟨s, rfl⟩
    have told (s : Session) : Underway sheet
        { p.depend (pathIn file (u.source.getD "")) with session := s } :=
      h.congr rfl rfl rfl (subset_depend p _)
    cases found : findExport u.name es with
    | some i =>
      refine .congr (fun _ => rfl) (.of_pure lawful
        (a := some (.foreign (pathIn file (u.source.getD "")) i))
        ⟨told s, rfl, rfl, subset_depend p _, ?_⟩)
      rintro c _ ⟨⟩
      exact mem_depend p _
    | none =>
      refine .bind lawful (Q := fun _ q => ∃ s, q =
          { p.depend (pathIn file (u.source.getD "")) with session := s })
        (.of_report lawful _ fun events => ⟨_, rfl⟩) ?_
      rintro _ _ ⟨s, rfl⟩
      exact .of_pure lawful ⟨told s, rfl, rfl, subset_depend p _, by rintro _ _ ⟨⟩⟩

/-! ## Working on a block -/

/-- A block without uses is copied as it is, and this is noted. -/
theorem copy_appends (h : Underway sheet p) (inside : Holds sheet ref)
    (stands : MayStandFor sheet p.dependencies name target) (other : target ≠ ref)
    (done : ∀ i, target = .own i → target ∈ p.done) :
    Proceeds L file (fun c => do
        copyBlock ⟨ref, path⟩ target
        inSession (modify (·.log [.inlined c.file u.name]))) p
      fun _ q => q = { p.append ⟨ref, path⟩ (p.body target) with
        session := p.session.log [.inlined file u.name] } := by
  refine .of_ready fun ready => ?_
  have free := h.free_of_done (lawful.clean ready) stands done
  have here := h.holds inside
  have none : (p.body target).uses = [] := Body.uses_inside_of_free free []
  refine .quiet lawful (a := ()) (p.append ⟨ref, path⟩ (p.body target)) [.inlined file u.name]
    (fun load s sees => ?_) ?_ rfl
  · have copied : Runs (copyBlock ⟨ref, path⟩ target) { p with session := s } _ :=
      copyBlock_appends here other (sees.body_eq stands) none
    obtain ⟨_, _, run, rfl⟩ := copied
    have same : { p with session := s }.append ⟨ref, path⟩ (p.body target) =
        { p.append ⟨ref, path⟩ (p.body target) with session := s } := by
      rw [Pass.append_eq_setBody here, Pass.append_eq_setBody (p := { p with session := s }) here,
        ← setBody_session here, body_congr (p := p) (q := { p with session := s }) here rfl]
    rw [same] at run
    exact bind_of_ok run
  · rw [Pass.append_eq_setBody here, Pass.dependencies_setBody]

/-- A block without uses is copied into one that is worked on, and this is noted. -/
theorem copy_proceeds (active : List String) (h : Underway sheet p) (inside : Holds sheet ref)
    (used : (p.body ref).allUses ≠ []) (stands : MayStandFor sheet p.dependencies name target)
    (other : target ≠ ref) (done : ∀ i, target = .own i → target ∈ p.done) :
    Proceeds L file (fun c => do
        copyBlock ⟨ref, path⟩ target
        inSession (modify (·.log [.inlined c.file u.name]))) p
      fun _ q => Works sheet active ref [] p q := by
  refine .of_ready fun ready => ?_
  have free := h.free_of_done (lawful.clean ready) stands done
  refine (copy_appends lawful h inside stands other done).imp ?_
  rintro _ _ rfl
  exact .append active path h inside used free _

/-- Resolving a block of another file changes nothing. -/
theorem resolveForeign_proceeds {path : String} {i : Nat} (depth : Nat) (active : List String)
    (h : Underway sheet p) (stands : MayStandFor sheet p.dependencies name (.foreign path i)) :
    Proceeds L file (fun c => resolveBlock c depth active (.foreign path i)) p
      fun _ q => q = p := by
  refine .of_ready fun ready => ?_
  have free : (p.body (.foreign path i)).allUses = [] :=
    h.free_of_done (lawful.clean ready) stands (by rintro _ ⟨⟩)
  refine .quiet lawful (a := ()) p [] (fun load s sees => ?_) rfl (by rw [Proceeds.log_nil])
  have same := sees.body_eq stands
  have unchanged : Runs (resolveBlock ⟨file, load⟩ depth active (.foreign path i))
      { p with session := s } _ := resolveBlock_foreign depth sees.1 (same ▸ free)
  obtain ⟨_, _, run, rfl⟩ := unchanged
  rw [Proceeds.log_nil]
  exact run

/-- Uses are taken away at a place. -/
theorem clear_proceeds (h : Underway sheet p) (inside : Holds sheet ref) :
    Proceeds L file (fun _ => modify (·.clearUses ⟨ref, path⟩)) p
      fun _ q => q = p.clearUses ⟨ref, path⟩ := by
  have here := h.holds inside
  refine .of_modify lawful (p.clearUses ⟨ref, path⟩) (fun _ s => ?_) ?_ ?_
  · rw [Pass.clearUses_eq_setBody here, Pass.clearUses_eq_setBody (p := { p with session := s })
      here, ← setBody_session here, body_congr (p := p) (q := { p with session := s }) here rfl]
  · rw [Pass.clearUses_eq_setBody here, Pass.dependencies_setBody]
  · rw [← Pass.session_clearUses here]

/-- With so many blocks to enter every block of the file is left without uses. -/
def Drained (L : Loading) (file : String) (sheet : Stylesheet) (depth : Nat) : Prop :=
  ∀ {active p ref}, Underway sheet p → Holds sheet ref → Watched sheet active ref →
    (Outset.ofSheet file sheet).Affords depth active → 0 < depth →
    Proceeds L file (fun c => resolveBlock c depth active ref) p
      fun _ q => Stretch sheet active ref p q ∧ (q.body ref).allUses = []

/-- An own export is resolved and a block of another file stays as it is. Then it is done. -/
theorem settle_of {Q : Pass → Prop} (active : List String) (h : Underway sheet p)
    (stands : MayStandFor sheet p.dependencies name target)
    (own : ∀ i, target = .own i →
      Proceeds L file (fun c => resolveBlock c depth active target) p fun _ q => Q q)
    (other : (∀ i, target ≠ .own i) → Q p) :
    Proceeds L file (fun c => do
        resolveBlock c depth active target
        modify (·.markDone target)) p
      fun _ q => ∃ r, Q r ∧ q = r.markDone target := by
  have resolved :
      Proceeds L file (fun c => resolveBlock c depth active target) p fun _ q => Q q := by
    cases target with
    | rule i => exact stands.elim
    | own i => exact own i rfl
    | foreign path i =>
      refine (resolveForeign_proceeds lawful depth active h stands).imp ?_
      rintro _ _ rfl
      exact other (by rintro _ ⟨⟩)
  refine .bind lawful resolved fun _ q kept => ?_
  exact .of_modify lawful (q.markDone target) (fun _ _ => rfl) rfl ⟨q, kept, rfl⟩

/-- A block is resolved before it is copied. -/
theorem settle_proceeds (active : List String) (drained : Drained L file sheet depth)
    (h : Underway sheet p) (stands : MayStandFor sheet p.dependencies name target)
    (own : ∀ i, target = .own i → name ∈ active ∧
      (Outset.ofSheet file sheet).Affords depth active ∧ 0 < depth) :
    Proceeds L file (fun c => do
        resolveBlock c depth active target
        modify (·.markDone target)) p
      fun _ q => Stretch sheet active target p q ∧ target ∈ q.done := by
  refine (settle_of lawful (Q := fun q => Stretch sheet active target p q ∧
    ∀ i, target = .own i → (q.body target).allUses = []) active h stands ?_ ?_).imp ?_
  · rintro i rfl
    obtain ⟨watched, affords, enough⟩ := own i rfl
    have inside : Holds sheet (.own i) := lt_of_exportName stands
    have entered : Watched sheet active (.own i) := ⟨name, watched, stands⟩
    exact (drained h inside entered affords enough).imp
      fun _ _ left => ⟨left.1, fun _ _ => left.2⟩
  · exact fun foreign => ⟨.refl h, fun i same => absurd same (foreign i)⟩
  · rintro _ _ ⟨q, ⟨stretch, free⟩, rfl⟩
    exact ⟨stretch.markDone target free, List.mem_cons_self⟩

/-- A use is circular, or it is looked up. It asks for nothing there is, or for a block, which is
resolved unless it is done and is copied then. -/
theorem inlineUse_of {F : Option BlockRef → Pass → Prop} {G : BlockRef → Pass → Prop}
    {Q : Pass → Prop} {place : Place} (active : List String) (owner : Option String)
    (circular : Consumer.keyOf ⟨file, L.load⟩ u ∈ active →
      Proceeds L file (fun c => modify (·.report c (.circularUse owner u.name))) p fun _ q => Q q)
    (looked : Consumer.keyOf ⟨file, L.load⟩ u ∉ active →
      Proceeds L file (fun c => lookup c owner u) p F)
    (none : ∀ q, F none q → Q q)
    (left : ∀ target q, F (some target) q → target ∈ q.done → G target q)
    (settled : ∀ target q, F (some target) q → target ∉ q.done → Proceeds L file (fun c => do
        resolveBlock c depth (Consumer.keyOf ⟨file, L.load⟩ u :: active) target
        modify (·.markDone target)) q
      fun _ r => G target r)
    (copied : ∀ target r, G target r → Proceeds L file (fun c => do
        copyBlock place target
        inSession (modify (·.log [.inlined c.file u.name]))) r
      fun _ t => Q t) :
    Proceeds L file (fun c => inlineUse c (resolveBlock c depth) active owner place u) p
      fun _ q => Q q := by
  unfold inlineUse
  by_cases watching : Consumer.keyOf ⟨file, L.load⟩ u ∈ active
  · exact .of_pos (fun _ => watching) (circular watching)
  refine .of_neg (fun _ => watching) (.bind lawful (looked watching) ?_)
  intro found q looked
  cases found with
  | none => exact .of_pure lawful (none q looked)
  | some target =>
    refine .get_bind lawful (fun _ _ _ => rfl) ?_
    by_cases done : target ∈ q.done
    · exact .of_neg (fun _ => not_not_intro done) (copied target q (left target q looked done))
    · refine .of_pos (fun _ => done)
        (.assoc (.bind lawful ((settled target q looked done).congr fun _ => rfl) ?_))
      exact fun _ r settles => copied target r settles

/-- A use at a place gives way to what it asks for, which leaves no use. -/
theorem inlineUse_proceeds (drained : Drained L file sheet depth) (h : Underway sheet p)
    (inside : Holds sheet ref) (watched : Watched sheet active ref)
    (affords : (Outset.ofSheet file sheet).Affords (depth + 1) active) (owner : Option String)
    (used : u ∈ (p.body ref).allUses) :
    Proceeds L file
      (fun c => inlineUse c (resolveBlock c depth) active owner ⟨ref, path⟩ u) p
      fun _ q => Works sheet active ref [] p q := by
  let key := (Outset.ofSheet file sheet).consumer.keyOf u
  refine inlineUse_of lawful
    (F := fun found q => Aside sheet active ref p q ∧ ∀ target, found = some target →
      MayStandFor sheet q.dependencies key target ∧ key ∉ active)
    (G := fun target q => Aside sheet active ref p q ∧ ref ≠ target ∧
      MayStandFor sheet q.dependencies key target ∧ target ∈ q.done)
    active owner (fun _ => ?circular) (fun unwatched => ?looked) (fun q looked => looked.1.works)
    ?left ?settled ?copied
  case circular =>
    refine .of_report lawful _ fun events => ?_
    have later : Underway sheet { p with session := p.session.log events } :=
      h.congr rfl rfl rfl (List.Subset.refl _)
    have aside : Aside sheet active ref p { p with session := p.session.log events } :=
      .of_sheet watched later rfl (List.Subset.refl _) (List.Subset.refl _)
    exact aside.works
  case looked =>
    refine (lookup_proceeds lawful h owner u).imp ?_
    rintro found q ⟨underway, sheets, dones, asked, stands⟩
    exact ⟨.of_sheet watched underway sheets (dones ▸ .refl _) asked,
      fun target named => ⟨stands _ target named, unwatched⟩⟩
  case left =>
    rintro target q ⟨aside, stands⟩ done
    obtain ⟨stands, unwatched⟩ := stands target rfl
    exact ⟨aside, watched.ne unwatched stands, stands, done⟩
  case settled =>
    rintro target q ⟨aside, stands⟩ -
    obtain ⟨stands, unwatched⟩ := stands target rfl
    have other := watched.ne unwatched stands
    have enough := affords.enter unwatched (h.mem_allUses inside used)
    refine (settle_proceeds lawful (key :: active) drained aside.1.underway stands fun _ _ =>
      ⟨List.mem_cons_self, enough⟩).imp ?_
    rintro _ r ⟨stretch, done⟩
    -- the block that is entered may change others, but not this one
    have wider := List.subset_cons_self key active
    have entered : Aside sheet active ref q r :=
      ⟨stretch.aside wider fun _ there => there.ne unwatched stands,
        stretch.others ref other (watched.mono wider)⟩
    exact ⟨aside.trans entered, other, stands.mono stretch.asked, done⟩
  case copied =>
    rintro target r ⟨aside, other, stands, done⟩
    have left : (r.body ref).allUses ≠ [] := by
      rw [aside.2]
      exact List.ne_nil_of_mem used
    refine (copy_proceeds lawful active aside.1.underway inside left stands other.symm
      fun _ _ => done).imp ?_
    exact fun _ t copied => aside.works.trans copied

/-- At a place all uses give way, and there are none then. What each of them keeps holds when they
have all given way (`turn`), and of it comes what holds when they are taken away (`clear`). -/
theorem inlineAt_keeps {I : List UseDirective → Pass → Prop} {Q : Pass → Prop}
    (drained : Drained L file sheet depth) (h : Underway sheet p)
    (inside : Holds sheet ref) (watched : Watched sheet active ref)
    (affords : (Outset.ofSheet file sheet).Affords (depth + 1) active) (owner : Option String)
    (start : I [] p)
    (turn : ∀ before u q, Works sheet active ref [] p q → I before q →
      u ∈ (q.body ref).allUses → Proceeds L file
        (fun c => inlineUse c (resolveBlock c depth) active owner ⟨ref, path⟩ u) q
        fun _ r => I (before ++ [u]) r)
    (clear : ∀ q, Works sheet active ref [] p q → I (q.content ⟨ref, path⟩).uses q →
      Q (q.clearUses ⟨ref, path⟩)) :
    Proceeds L file (fun c => inlineAt c (resolveBlock c depth) active owner ref path) p
      fun _ q => Works sheet active ref [path] p q ∧ Q q := by
  refine .get_bind lawful (fun load s _ => ?_) (.bind lawful (.forM lawful
    (I := fun before q => Works sheet active ref [] p q ∧ I before q) ⟨.refl h, start⟩ ?_) ?_)
  · have same : { p with session := s }.body ref = p.body ref := watched.body_congr rfl
    rw [Pass.content, Pass.content, same]
  · rintro before u after split q ⟨works, kept⟩
    have used : u ∈ (q.body ref).allUses := works.mem_allUses (mem_of_split split)
    refine ((inlineUse_proceeds lawful drained works.1.underway inside watched affords owner
      used).and (turn before u q works kept used)).imp ?_
    exact fun _ r further => ⟨works.trans further.1, further.2⟩
  · rintro _ q ⟨works, kept⟩
    refine (clear_proceeds lawful works.1.underway inside).imp ?_
    rintro _ _ rfl
    -- the uses that stand there now are those that were gone through
    rw [← works.content_uses path] at kept
    exact ⟨works.trans (.clear active path works.1.underway inside
      (q.clearUses ⟨ref, path⟩).session), clear q works kept⟩

theorem inlineAt_proceeds (drained : Drained L file sheet depth) (h : Underway sheet p)
    (inside : Holds sheet ref) (watched : Watched sheet active ref)
    (affords : (Outset.ofSheet file sheet).Affords (depth + 1) active) (owner : Option String) :
    Proceeds L file (fun c => inlineAt c (resolveBlock c depth) active owner ref path) p
      fun _ q => Works sheet active ref [path] p q := by
  refine (inlineAt_keeps lawful (I := fun _ _ => True) (Q := fun _ => True) drained h inside
    watched affords owner trivial (fun _ u q works _ used => ?_) fun _ _ _ => trivial).imp
    fun _ _ kept => kept.1
  exact (inlineUse_proceeds lawful drained works.1.underway inside watched affords owner
    used).imp fun _ _ _ => trivial

/-- A block is left without uses, and what is kept at each place is kept. -/
theorem resolveBlock_keeps {I : Pass → Prop} (drained : Drained L file sheet depth)
    (h : Underway sheet p) (inside : Holds sheet ref) (watched : Watched sheet active ref)
    (affords : (Outset.ofSheet file sheet).Affords (depth + 1) active) (start : I p)
    (turn : ∀ path q, Underway sheet q → p.done ⊆ q.done → I q →
      Proceeds L file
        (fun c => inlineAt c (resolveBlock c depth) active (p.nameOf ref) ref path) q
        fun _ r => I r) :
    Proceeds L file (fun c => resolveBlock c (depth + 1) active ref) p fun _ q =>
      (Stretch sheet active ref p q ∧ (q.body ref).allUses = []) ∧ I q := by
  -- a block is cleared at the places it had at first, since what is added brings no uses
  refine .get_bind lawful (fun load s _ => ?_) (.imp (.forM lawful
    (I := fun before q => Works sheet active ref before p q ∧ I q) ⟨.refl h, start⟩ ?_) ?_)
  · have same : { p with session := s }.body ref = p.body ref := watched.body_congr rfl
    rw [same, nameOf_session inside]
  · rintro before path after _ q ⟨works, kept⟩
    refine ((inlineAt_proceeds lawful drained works.1.underway inside watched affords _).and
      (turn path q works.1.underway works.1.done kept)).imp ?_
    exact fun _ r further => ⟨works.trans further.1, further.2⟩
  · rintro _ q ⟨⟨stretch, cleared⟩, kept⟩
    exact ⟨⟨stretch, cleared.free⟩, kept⟩

/-- Any number of blocks to enter is enough for the blocks that can be entered with it. -/
theorem drained (file : String) (sheet : Stylesheet) (depth : Nat) :
    Drained L file sheet depth := by
  induction depth with
  | zero =>
    intro _ _ _ _ _ _ _ enough
    exact absurd enough (Nat.lt_irrefl 0)
  | succ depth ih =>
    intro active p ref h inside watched affords _
    refine (resolveBlock_keeps lawful (I := fun _ => True) ih h inside watched affords trivial
      fun path q underway _ _ => ?_).imp fun _ _ kept => kept.1
    exact (inlineAt_proceeds lawful ih underway inside watched affords _).imp fun _ _ _ => trivial

/-! ## A whole pass -/

/-- An export that is done stays as it is, and any other is settled. -/
theorem resolveExport_of {Q : Unit → Pass → Prop}
    (stands : MayStandFor sheet p.dependencies name ref) (left : ref ∈ p.done → Q () p)
    (settled : Proceeds L file (fun c => do
        resolveBlock c depth (p.nameOf ref).toList ref
        modify (·.markDone ref)) p Q) :
    Proceeds L file (fun c => resolveExport c depth ref) p Q := by
  refine .get_bind lawful (fun load s sees => ?_) ?_
  · have same : { p with session := s }.nameOf ref = p.nameOf ref :=
      congrArg (Option.map ExportBlock.name) (sees.export?_eq stands)
    rw [same]
  by_cases done : ref ∈ p.done
  · exact .of_neg (fun _ => not_not_intro done) (.of_pure lawful (left done))
  · exact .of_pos (fun _ => done) settled

/-- An export is done afterwards. -/
theorem resolveExport_proceeds (h : Underway sheet p)
    (stands : MayStandFor sheet p.dependencies name ref) (enough : sheet.allUses.length < depth) :
    Proceeds L file (fun c => resolveExport c depth ref) p fun _ q =>
      Underway sheet q ∧ p.done ⊆ q.done ∧ p.dependencies ⊆ q.dependencies ∧ ref ∈ q.done := by
  have drained : Drained L file sheet depth := drained lawful file sheet depth
  refine resolveExport_of lawful stands
    (fun done => ⟨h, List.Subset.refl _, List.Subset.refl _, done⟩)
    (.imp (settle_proceeds lawful _ drained h stands ?_) ?_)
  · rintro i rfl
    exact h.enters stands enough file
  · rintro _ q ⟨stretch, here⟩
    exact ⟨stretch.underway, stretch.done, stretch.asked, here⟩

/-- The exports of the file get their names. -/
theorem registerExports_proceeds (h : Underway sheet p) :
    Proceeds L file registerExports p fun _ q => Underway sheet q := by
  refine .get_bind lawful (fun _ _ _ => rfl) (.forM lawful (I := fun _ q => Underway sheet q) h ?_)
  rintro before ⟨e, i⟩ after split q h'
  have found : p.sheet.exports[i]? = some e := getElem?_of_split split
  have named : exportName sheet i = some e.name := by
    rw [← h.nameOf_eq i]
    exact congrArg (Option.map ExportBlock.name) found
  have register {r : Pass} (h : Underway sheet r) :
      Proceeds L file (fun _ => modify (·.register e.name (.own i))) r
        fun _ q => Underway sheet q :=
    have registered : Underway sheet (r.register e.name (.own i)) := h.register named
    .of_modify lawful (r.register e.name (.own i)) (fun _ _ => rfl) rfl registered
  refine .get_bind lawful (fun _ _ _ => rfl) ?_
  by_cases double : (q.registry.lookup e.name).isSome
  · refine .of_pos (fun _ => double) (.bind lawful (Q := fun _ r => Underway sheet r)
      (.of_report lawful _ fun _ => h'.congr rfl rfl rfl (List.Subset.refl _)) ?_)
    exact fun _ _ => register
  · exact .of_neg (fun _ => double) (register h')

/-- The names of an import get their blocks. -/
theorem applyImport_proceeds (h : Underway sheet p) (imp : ImportDirective) :
    Proceeds L file (fun c => applyImport c imp) p fun _ q => Underway sheet q := by
  have asks := exportsOf_proceeds lawful file p (absolute_pathIn file imp.source)
  refine .bind lawful (asks.congr fun _ => rfl) ?_
  rintro es _ ⟨s, rfl⟩
  refine .imp (.forM lawful
    (I := fun _ r => Underway sheet r ∧ pathIn file imp.source ∈ r.dependencies)
    ⟨h.congr rfl rfl rfl (subset_depend p _), mem_depend p _⟩ ?_) fun _ _ h => h.1
  rintro before name after _ r ⟨underway, asked⟩
  cases found : (exportTable es).lookup name with
  | some i =>
    let block := BlockRef.foreign (pathIn file imp.source) i
    have stands : MayStandFor sheet r.dependencies name block := asked
    have registered : Underway sheet (r.register name block) := underway.register stands
    exact .of_modify lawful (r.register name block) (fun _ _ => rfl) rfl ⟨registered, asked⟩
  | none =>
    exact .of_report lawful _ fun _ => ⟨underway.congr rfl rfl rfl (List.Subset.refl _), asked⟩

/-- What is kept when one export is resolved is kept when they all are, those that a name stands for
and then those of the file. -/
theorem resolveAll_keeps {I : Pass → Prop} (h : Underway sheet p) (start : I p)
    (enough : sheet.allUses.length < depth)
    (keeps : ∀ {q name ref}, Underway sheet q → I q → MayStandFor sheet q.dependencies name ref →
      Proceeds L file (fun c => resolveExport c depth ref) q fun _ r => I r) :
    Proceeds L file (fun c => do
        (← get).registry.forM fun (_, block) => resolveExport c depth block
        (List.range (← get).sheet.exports.length).forM fun i => resolveExport c depth (.own i)) p
      fun _ q => I q := by
  have resolve {q : Pass} {name : String} {ref : BlockRef} (h : Underway sheet q) (kept : I q)
      (asked : p.dependencies ⊆ q.dependencies)
      (stands : MayStandFor sheet q.dependencies name ref) :
      Proceeds L file (fun c => resolveExport c depth ref) q fun _ r =>
        Underway sheet r ∧ I r ∧ p.dependencies ⊆ r.dependencies := by
    refine ((resolveExport_proceeds lawful h stands enough).and (keeps h kept stands)).imp ?_
    rintro _ r ⟨⟨h, -, asked', -⟩, kept⟩
    exact ⟨h, kept, List.Subset.trans asked asked'⟩
  refine .get_bind lawful (fun _ _ _ => rfl) (.bind lawful (.forM lawful
    (I := fun _ q => Underway sheet q ∧ I q ∧ p.dependencies ⊆ q.dependencies)
    ⟨h, start, List.Subset.refl _⟩ ?_) ?_)
  · rintro before ⟨name, ref⟩ after split q ⟨h', kept, asked⟩
    have mem : (name, ref) ∈ p.registry := mem_of_split split
    exact resolve h' kept asked ((h.registry _ mem).mono asked)
  rintro _ q ⟨h, kept, asked⟩
  refine .get_bind lawful (fun _ _ _ => rfl) (.imp (.forM lawful
    (I := fun _ r => Underway sheet r ∧ I r ∧ p.dependencies ⊆ r.dependencies)
    ⟨h, kept, asked⟩ ?_) fun _ _ all => all.2.1)
  rintro before i after split r ⟨h', kept, asked⟩
  obtain ⟨name, stands⟩ := exists_standsFor h.length_exports split r.dependencies
  exact resolve h' kept asked stands

/-- Names are given to blocks, and then all exports are done. -/
theorem prepare_proceeds (s : Session) (enough : sheet.allUses.length < depth) :
    Proceeds L file (fun c => prepare c depth) (Pass.start s sheet) fun _ q =>
      Underway sheet q ∧ ∀ i < sheet.exports.length, .own i ∈ q.done := by
  refine .bind lawful (registerExports_proceeds lawful (Underway.start s sheet)) fun _ p h => ?_
  refine .get_bind lawful (fun _ _ _ => rfl) (.bind lawful
    (.forM lawful (I := fun _ q => Underway sheet q) h ?_) ?_)
  · exact fun before imp after split q h => applyImport_proceeds lawful h imp
  intro _ p h
  refine .get_bind lawful (fun _ _ _ => rfl) (.bind lawful (.forM lawful
    (I := fun _ q => Underway sheet q ∧ p.dependencies ⊆ q.dependencies)
    ⟨h, List.Subset.refl _⟩ ?_) ?_)
  · rintro before ⟨name, ref⟩ after split q ⟨h', asked⟩
    have mem : (name, ref) ∈ p.registry := mem_of_split split
    have stands := (h.registry _ mem).mono asked
    refine (resolveExport_proceeds lawful h' stands enough).imp ?_
    rintro _ r ⟨h'', -, asked', -⟩
    exact ⟨h'', List.Subset.trans asked asked'⟩
  rintro _ p ⟨h, -⟩
  -- of exports with one name only the last is registered, so all are gone through once more
  refine .get_bind lawful (fun _ _ _ => rfl) (.imp (.forM lawful
    (I := fun before q => Underway sheet q ∧ ∀ i ∈ before, .own i ∈ q.done)
    ⟨h, fun i mem => absurd mem List.not_mem_nil⟩ ?_) ?_)
  · rintro before i after split q ⟨h', resolved⟩
    obtain ⟨name, stands⟩ := exists_standsFor h.length_exports split q.dependencies
    refine (resolveExport_proceeds lawful h' stands enough).imp ?_
    rintro _ r ⟨h'', dones, -, here⟩
    refine ⟨h'', fun j mem => ?_⟩
    rcases List.mem_append.1 mem with mem | mem
    · exact dones (resolved j mem)
    · exact List.mem_singleton.1 mem ▸ here
  · rintro _ q ⟨h', resolved⟩
    refine ⟨h', fun i inside => resolved i ?_⟩
    rw [List.mem_range, h.length_exports]
    exact inside

/-- The rules are drained one after the other. -/
theorem resolveRules_proceeds (h : Underway sheet p) (enough : sheet.allUses.length < depth) :
    Proceeds L file (fun c => resolveRules c depth) p fun _ q =>
      Underway sheet q ∧ p.done ⊆ q.done ∧
        ∀ i < sheet.rules.length, (q.body (.rule i)).allUses = [] := by
  refine .get_bind lawful (fun _ _ _ => rfl) (.imp (.forM lawful
    (I := fun before q => Underway sheet q ∧ p.done ⊆ q.done ∧
      ∀ i ∈ before, (q.body (.rule i)).allUses = [])
    ⟨h, List.Subset.refl _, fun i mem => absurd mem List.not_mem_nil⟩ ?_) ?_)
  · rintro before i after split q ⟨h', dones, free⟩
    have inside : Holds sheet (.rule i) := holds_rule h.length_rules split
    have affords : (Outset.ofSheet file sheet).Affords depth [] := Outset.affords_of_lt enough []
    refine (drained lawful file sheet depth h' inside trivial affords
      (Nat.zero_lt_of_lt enough)).imp ?_
    rintro _ r ⟨stretch, here⟩
    refine ⟨stretch.underway, List.Subset.trans dones stretch.done, fun j mem => ?_⟩
    by_cases same : j = i
    · rw [same]
      exact here
    · have other : j ∈ before := (List.mem_append.1 mem).resolve_right fun mem =>
        same (List.mem_singleton.1 mem)
      rw [stretch.others (.rule j) (fun eq => same (BlockRef.rule.inj eq)) trivial]
      exact free j other
  · rintro _ q ⟨h', dones, free⟩
    refine ⟨h', dones, fun i inside => free i ?_⟩
    rw [List.mem_range, h.length_rules]
    exact inside

/-- All exports are left without uses. -/
theorem prepare_drains (file : String) (s : Session) (enough : sheet.allUses.length < depth) :
    Proceeds L file (fun c => prepare c depth) (Pass.start s sheet) fun _ q =>
      Underway sheet q ∧ Inquiry.Free q.sheet.exports := by
  refine (prepare_proceeds lawful s enough).imp ?_
  rintro _ q ⟨h, done⟩
  exact ⟨h, h.free_exports done⟩

/-- The whole file is left without uses. -/
theorem pass_drains (file : String) (s : Session) (enough : sheet.allUses.length < depth) :
    Proceeds L file (fun c => do prepare c depth; resolveRules c depth) (Pass.start s sheet)
      fun _ q => Underway sheet q ∧ q.sheet.allUses = [] := by
  refine .bind lawful (prepare_proceeds lawful s enough) ?_
  rintro _ q ⟨h, done⟩
  refine (resolveRules_proceeds lawful h enough).imp ?_
  rintro _ r ⟨h', dones, rules⟩
  have exports := h'.free_exports fun i inside => dones (done i inside)
  refine ⟨h', List.append_eq_nil_iff.2 ⟨List.flatMap_eq_nil_iff.2 exports, ?_⟩⟩
  refine StyleRule.usesIn_eq_nil fun i rule found => ?_
  have inside : i < sheet.rules.length := by
    rw [← h'.length_rules]
    exact (List.getElem?_eq_some_iff.1 found).1
  have here : r.body (.rule i) = rule.body := by
    rw [Pass.body, found, Option.map_some, Option.getD_some]
  exact here ▸ rules i inside

end

end Reuse

end NestedStyles
