import NestedStyles.Proofs.Reuse.Draining

/-!
# The bound on the depth of a pass

A pass never comes to the bound on the number of blocks that are entered one inside the other: with
any higher bound it does the same (`pass_more`). The keys on the watch list are different keys of
uses in the file, and so there is always room for one more.
-/

namespace NestedStyles

namespace Reuse

variable {α β : Type} {L : Loading} {file name : String} {sheet : Stylesheet} {p q : Pass}
variable {depth : Nat} {active : List String} {u : UseDirective} {ref target : BlockRef}

/-! ## Steps that do the same -/

/-- The second step does what the first does, and `Q` holds of what comes of it. -/
def Coincide (act act' : PassM α) (p : Pass) (Q : α → Pass → Prop) : Prop :=
  act' p = act p ∧ ∀ a q, act p = (.ok a, q) → Q a q

namespace Coincide

variable {act act' : PassM α} {Q : α → Pass → Prop} {R : β → Pass → Prop}

/-- What is known of a step from its course. -/
theorem of_eq {act : Consumer → PassM α} {act' : PassM α} (h : Proceeds L file act p Q)
    (ready : L.ready p.session) (same : act' p = act ⟨file, L.load⟩ p) :
    Coincide (act ⟨file, L.load⟩) act' p fun a q => Q a q ∧ L.ready q.session := by
  refine ⟨same, fun a q run => ?_⟩
  rcases h ready with ⟨_, a', q', course, hQ⟩ | ⟨_, e, q', -, -, broken, -⟩
  · cases run.symm.trans course.run
    exact ⟨hQ, course.ready⟩
  · cases run.symm.trans broken

theorem of_run {act : Consumer → PassM α} (h : Proceeds L file act p Q)
    (ready : L.ready p.session) :
    Coincide (act ⟨file, L.load⟩) (act ⟨file, L.load⟩) p fun a q => Q a q ∧ L.ready q.session :=
  of_eq h ready rfl

theorem of_pure (a : α) (h : Q a p) : Coincide (pure a) (pure a) p Q := by
  refine ⟨rfl, fun _ _ run => ?_⟩
  cases run
  exact h

theorem get_bind {next next' : Pass → PassM α} (h : Coincide (next p) (next' p) p Q) :
    Coincide (get >>= next) (get >>= next') p Q :=
  h

theorem bind {next next' : α → PassM β} (first : Coincide act act' p Q)
    (rest : ∀ a q, Q a q → Coincide (next a) (next' a) q R) :
    Coincide (act >>= next) (act' >>= next') p R := by
  obtain ⟨same, further⟩ := first
  rcases run : act p with ⟨e | a, q⟩
  · refine ⟨?_, fun _ _ run' => ?_⟩
    · rw [bind_of_error run, bind_of_error (same.trans run)]
    · cases (bind_of_error run).symm.trans run'
  · obtain ⟨same', further'⟩ := rest a q (further a q run)
    refine ⟨?_, fun b r run' => further' b r ?_⟩
    · rw [bind_of_ok run, bind_of_ok (same.trans run), same']
    · rw [← run', bind_of_ok run]

theorem forM {γ : Type} {step step' : γ → PassM Unit} {l : List γ} {I : List γ → Pass → Prop}
    (start : I [] p)
    (turn : ∀ before x after, l = before ++ x :: after → ∀ q, I before q →
      Coincide (step x) (step' x) q fun _ r => I (before ++ [x]) r) :
    Coincide (l.forM step) (l.forM step') p fun _ q => I l q := by
  suffices general : ∀ after before q, l = before ++ after → I before q →
      Coincide (after.forM step) (after.forM step') q fun _ q => I l q from
    general l [] p rfl start
  intro after
  induction after with
  | nil =>
    intro before q split h
    rw [split, List.append_nil]
    exact of_pure () h
  | cons x after ih =>
    intro before q split h
    refine bind (turn before x after split q h) fun _ r next => ih (before ++ [x]) r ?_ next
    rw [split, List.append_assoc, List.singleton_append]

theorem of_pos {cond : Prop} [Decidable cond] {no no' : PassM α} (holds : cond)
    (h : Coincide act act' p Q) :
    Coincide (if cond then act else no) (if cond then act' else no') p Q := by
  rwa [if_pos holds, if_pos holds]

theorem of_neg {cond : Prop} [Decidable cond] {yes yes' : PassM α} (fails : ¬ cond)
    (h : Coincide act act' p Q) :
    Coincide (if cond then yes else act) (if cond then yes' else act') p Q := by
  rwa [if_neg fails, if_neg fails]

theorem imp {Q' : α → Pass → Prop} (h : Coincide act act' p Q) (weaken : ∀ a q, Q a q → Q' a q) :
    Coincide act act' p Q' :=
  ⟨h.1, fun a q run => weaken a q (h.2 a q run)⟩

/-- A step does what it does. -/
theorem rfl_any (act : PassM α) (p : Pass) : Coincide act act p fun _ _ => True :=
  ⟨rfl, fun _ _ _ => trivial⟩

end Coincide

/-! ## One block more -/

/-- With so many blocks to enter it makes no difference if it is one more. -/
def Bounded (L : Loading) (file : String) (sheet : Stylesheet) (depth : Nat) : Prop :=
  ∀ {active p ref}, Underway sheet p → L.ready p.session → Holds sheet ref →
    Watched sheet active ref → (Outset.ofSheet file sheet).Affords depth active → 0 < depth →
    resolveBlock ⟨file, L.load⟩ (depth + 1) active ref p =
      resolveBlock ⟨file, L.load⟩ depth active ref p

section

variable (lawful : L.Lawful)

include lawful

/-- A block that is asked for is resolved in the same way. -/
theorem enter_more (bounded : Bounded L file sheet depth) (h : Underway sheet p)
    (ready : L.ready p.session) (stands : MayStandFor sheet p.dependencies name target)
    (own : ∀ i, target = .own i → name ∈ active ∧
      (Outset.ofSheet file sheet).Affords depth active ∧ 0 < depth) :
    resolveBlock ⟨file, L.load⟩ (depth + 1) active target p =
      resolveBlock ⟨file, L.load⟩ depth active target p := by
  cases target with
  | rule i => exact stands.elim
  | own i =>
    obtain ⟨watched, affords, enough⟩ := own i rfl
    exact bounded h ready (lt_of_exportName stands) ⟨name, watched, stands⟩ affords enough
  | foreign source i =>
    have free : (p.body (.foreign source i)).allUses = [] :=
      h.free_of_done (lawful.clean ready) stands (by rintro _ ⟨⟩)
    have unchanged (depth : Nat) :
        resolveBlock ⟨file, L.load⟩ depth active (.foreign source i) p = (.ok (), p) := by
      have runs : Runs (resolveBlock ⟨file, L.load⟩ depth active (.foreign source i)) p _ :=
        resolveBlock_foreign depth (lawful.clean ready).keys free
      obtain ⟨_, _, run, rfl⟩ := runs
      exact run
    rw [unchanged, unchanged]

theorem inlineUse_more (bounded : Bounded L file sheet depth) (h : Underway sheet p)
    (ready : L.ready p.session) (inside : Holds sheet ref)
    (affords : (Outset.ofSheet file sheet).Affords (depth + 1) active) (owner : Option String)
    (path : List Nat) (used : u ∈ (p.body ref).allUses) :
    inlineUse ⟨file, L.load⟩ (resolveBlock ⟨file, L.load⟩ (depth + 1)) active owner ⟨ref, path⟩ u
        p =
      inlineUse ⟨file, L.load⟩ (resolveBlock ⟨file, L.load⟩ depth) active owner ⟨ref, path⟩ u
        p := by
  suffices same : Coincide
      (inlineUse ⟨file, L.load⟩ (resolveBlock ⟨file, L.load⟩ depth) active owner ⟨ref, path⟩ u)
      (inlineUse ⟨file, L.load⟩ (resolveBlock ⟨file, L.load⟩ (depth + 1)) active owner
        ⟨ref, path⟩ u) p fun _ _ => True from same.1
  by_cases watching : (Outset.ofSheet file sheet).consumer.keyOf u ∈ active
  · exact .of_pos watching (.rfl_any _ _)
  refine .of_neg watching (.bind (.of_run (lookup_proceeds lawful h owner u) ready) ?_)
  rintro found q ⟨⟨underway, -, -, -, stands⟩, ready'⟩
  cases found with
  | none => exact .rfl_any _ _
  | some target =>
    have enough := affords.enter watching (h.mem_allUses inside used)
    refine .get_bind ?_
    by_cases done : target ∈ q.done
    · exact .of_neg (not_not_intro done) (.rfl_any _ _)
    · refine .of_pos done (.bind (Q := fun _ _ => True) ⟨?_, fun _ _ _ => trivial⟩
        fun _ _ _ => .rfl_any _ _)
      refine enter_more lawful bounded underway ready'
        (stands (Outset.ofSheet file sheet).consumer target rfl) fun _ _ => ?_
      exact ⟨List.mem_cons_self, enough⟩

theorem inlineAt_more (bounded : Bounded L file sheet depth) (h : Underway sheet p)
    (ready : L.ready p.session) (inside : Holds sheet ref) (watched : Watched sheet active ref)
    (affords : (Outset.ofSheet file sheet).Affords (depth + 1) active) (owner : Option String)
    (path : List Nat) :
    inlineAt ⟨file, L.load⟩ (resolveBlock ⟨file, L.load⟩ (depth + 1)) active owner ref path p =
      inlineAt ⟨file, L.load⟩ (resolveBlock ⟨file, L.load⟩ depth) active owner ref path p := by
  have drains : Drained L file sheet depth := drained lawful file sheet depth
  suffices same : Coincide
      (inlineAt ⟨file, L.load⟩ (resolveBlock ⟨file, L.load⟩ depth) active owner ref path)
      (inlineAt ⟨file, L.load⟩ (resolveBlock ⟨file, L.load⟩ (depth + 1)) active owner ref path) p
      fun _ _ => True from same.1
  refine .get_bind (.bind (.forM (I := fun _ q => Works sheet active ref [] p q ∧
    L.ready q.session) ⟨.refl h, ready⟩ ?_) fun _ _ _ => .rfl_any _ _)
  rintro before u after split q ⟨works, ready'⟩
  have underway := works.1.underway
  have used : u ∈ (q.body ref).allUses := works.mem_allUses (mem_of_split split)
  refine (Coincide.of_eq (inlineUse_proceeds lawful drains underway inside watched affords owner
    used) ready' (inlineUse_more lawful bounded underway ready' inside affords owner path
      used)).imp ?_
  exact fun _ r further => ⟨works.trans further.1, further.2⟩

/-- Any number of blocks to enter that is enough is as good as one more. -/
theorem bounded (file : String) (sheet : Stylesheet) (depth : Nat) :
    Bounded L file sheet depth := by
  induction depth with
  | zero =>
    intro _ _ _ _ _ _ _ _ enough
    exact absurd enough (Nat.lt_irrefl 0)
  | succ depth ih =>
    intro active p ref h ready inside watched affords _
    have drains : Drained L file sheet depth := drained lawful file sheet depth
    suffices same : Coincide (resolveBlock ⟨file, L.load⟩ (depth + 1) active ref)
        (resolveBlock ⟨file, L.load⟩ (depth + 1 + 1) active ref) p fun _ _ => True from same.1
    refine .get_bind (.imp (.forM (I := fun places q => Works sheet active ref places p q ∧
      L.ready q.session) ⟨.refl h, ready⟩ ?_) fun _ _ _ => trivial)
    rintro before path after - q ⟨works, ready'⟩
    have underway := works.1.underway
    refine (Coincide.of_eq (inlineAt_proceeds lawful drains underway inside watched affords
      (p.nameOf ref)) ready' (inlineAt_more lawful ih underway ready' inside watched affords
        (p.nameOf ref) path)).imp ?_
    exact fun _ r further => ⟨works.trans further.1, further.2⟩

/-! ## A whole pass -/

theorem resolveExport_more (h : Underway sheet p) (ready : L.ready p.session)
    (stands : MayStandFor sheet p.dependencies name ref) (enough : sheet.allUses.length < depth) :
    resolveExport ⟨file, L.load⟩ (depth + 1) ref p =
      resolveExport ⟨file, L.load⟩ depth ref p := by
  suffices same : Coincide (resolveExport ⟨file, L.load⟩ depth ref)
      (resolveExport ⟨file, L.load⟩ (depth + 1) ref) p fun _ _ => True from same.1
  refine .get_bind ?_
  by_cases done : ref ∈ p.done
  · exact .of_neg (not_not_intro done) (.rfl_any _ _)
  refine .of_pos done (.bind (Q := fun _ _ => True) ⟨?_, fun _ _ _ => trivial⟩
    fun _ _ _ => .rfl_any _ _)
  refine enter_more lawful (bounded lawful file sheet depth) h ready stands ?_
  rintro i rfl
  exact h.enters stands enough file

/-- The exports are resolved in the same way. -/
theorem prepare_more (s : Session) (ready : L.ready s) (enough : sheet.allUses.length < depth) :
    prepare ⟨file, L.load⟩ (depth + 1) (Pass.start s sheet) =
      prepare ⟨file, L.load⟩ depth (Pass.start s sheet) := by
  have resolve {name : String} {ref : BlockRef} {p q : Pass} (h : Underway sheet q)
      (ready : L.ready q.session) (asked : p.dependencies ⊆ q.dependencies)
      (stands : MayStandFor sheet q.dependencies name ref) :
      Coincide (resolveExport ⟨file, L.load⟩ depth ref)
        (resolveExport ⟨file, L.load⟩ (depth + 1) ref) q fun _ r =>
          Underway sheet r ∧ L.ready r.session ∧ p.dependencies ⊆ r.dependencies := by
    refine (Coincide.of_eq (resolveExport_proceeds lawful h stands enough) ready
      (resolveExport_more lawful h ready stands enough)).imp ?_
    rintro _ r ⟨⟨h', -, asked', -⟩, ready'⟩
    exact ⟨h', ready', List.Subset.trans asked asked'⟩
  suffices same : Coincide (prepare ⟨file, L.load⟩ depth) (prepare ⟨file, L.load⟩ (depth + 1))
      (Pass.start s sheet) fun _ _ => True from same.1
  refine .bind (.of_run (registerExports_proceeds lawful (.start s sheet)) ready) ?_
  rintro _ p ⟨h, ready⟩
  refine .get_bind (.bind (.of_run (Proceeds.forM lawful (I := fun _ q => Underway sheet q) h
    fun _ imp _ _ _ h => applyImport_proceeds lawful h imp) ready) ?_)
  rintro _ q ⟨h, ready⟩
  refine .get_bind (.bind (.forM (I := fun _ r => Underway sheet r ∧ L.ready r.session ∧
    q.dependencies ⊆ r.dependencies) ⟨h, ready, List.Subset.refl _⟩ ?_) ?_)
  · rintro before ⟨name, ref⟩ after split r ⟨h', ready', asked⟩
    have mem : (name, ref) ∈ q.registry := mem_of_split split
    exact resolve h' ready' asked ((h.registry _ mem).mono asked)
  rintro _ q ⟨h, ready, -⟩
  refine .get_bind (.imp (.forM (I := fun _ r => Underway sheet r ∧ L.ready r.session ∧
    q.dependencies ⊆ r.dependencies) ⟨h, ready, List.Subset.refl _⟩ ?_) fun _ _ _ => trivial)
  rintro before i after split r ⟨h', ready', asked⟩
  obtain ⟨name, stands⟩ := exists_standsFor h.length_exports split r.dependencies
  exact resolve h' ready' asked stands

/-- The rules are resolved in the same way. -/
theorem resolveRules_more (h : Underway sheet p) (ready : L.ready p.session)
    (enough : sheet.allUses.length < depth) :
    resolveRules ⟨file, L.load⟩ (depth + 1) p = resolveRules ⟨file, L.load⟩ depth p := by
  have affords : (Outset.ofSheet file sheet).Affords depth [] := Outset.affords_of_lt enough []
  have deep := Nat.zero_lt_of_lt enough
  suffices same : Coincide (resolveRules ⟨file, L.load⟩ depth)
      (resolveRules ⟨file, L.load⟩ (depth + 1)) p fun _ _ => True from same.1
  refine .get_bind (.imp (.forM (I := fun _ q => Underway sheet q ∧ L.ready q.session)
    ⟨h, ready⟩ ?_) fun _ _ _ => trivial)
  rintro before i after split q ⟨h', ready'⟩
  have inside : Holds sheet (.rule i) := holds_rule h.length_rules split
  refine (Coincide.of_eq (drained lawful file sheet depth h' inside trivial affords deep) ready'
    (bounded lawful file sheet depth h' ready' inside trivial affords deep)).imp ?_
  exact fun _ r further => ⟨further.1.1.underway, further.2⟩

/-- With a higher bound a pass over a file with its rules does the same. -/
theorem pass_more (file : String) (s : Session) (ready : L.ready s)
    (enough : sheet.allUses.length < depth) (more : Nat) :
    (do prepare ⟨file, L.load⟩ (depth + more); resolveRules ⟨file, L.load⟩ (depth + more) :
        PassM Unit) (Pass.start s sheet) =
      (do prepare ⟨file, L.load⟩ depth; resolveRules ⟨file, L.load⟩ depth : PassM Unit)
        (Pass.start s sheet) := by
  induction more with
  | zero => rfl
  | succ more ih =>
    have wide : sheet.allUses.length < depth + more := Nat.lt_add_right more enough
    suffices same : Coincide
        (do prepare ⟨file, L.load⟩ (depth + more); resolveRules ⟨file, L.load⟩ (depth + more))
        (do prepare ⟨file, L.load⟩ (depth + more + 1)
            resolveRules ⟨file, L.load⟩ (depth + more + 1))
        (Pass.start s sheet) fun _ _ => True from same.1.trans ih
    refine .bind (.of_eq (prepare_proceeds lawful s wide) ready
      (prepare_more lawful s ready wide)) ?_
    rintro _ q ⟨⟨h, -⟩, ready'⟩
    exact ⟨resolveRules_more lawful h ready' wide, fun _ _ _ => trivial⟩

end

end Reuse

end NestedStyles
