import NestedStyles.Proofs.Reuse.Abreast

/-!
# Two passes in lockstep

The steps with which a block is resolved, taken in both passes at once. A block that is used is
settled in both (`Twins.settle_abreast`) and then copied in both, so the two blocks that are being
worked on stay the same but for copies (`Twins.inlineUse_abreast`). By induction on the number of
blocks that may still be entered this holds of whole blocks (`Twins.keeps`).
-/

namespace NestedStyles

namespace Reuse

variable {file : String} {p q p' q' p'' q'' : Pass} {s s' : Session} {u : UseDirective}
variable {ref target : BlockRef} {path : List Nat} {active : List String} {depth : Nat}

/-- Two loops over lists whose entries correspond, turn by turn. -/
theorem forM_abreast {α β : Type} (step : α → PassM Unit) (step' : β → PassM Unit) (g : α → β)
    {l : List α} {I : List α → Pass → Pass → Prop} (start : I [] p q)
    (turn : ∀ before x after, l = before ++ x :: after → ∀ p q, I before p q →
      ∃ p' q', step x p = (.ok (), p') ∧ step' (g x) q = (.ok (), q') ∧ I (before ++ [x]) p' q') :
    ∃ p' q', l.forM step p = (.ok (), p') ∧ (l.map g).forM step' q = (.ok (), q') ∧ I l p' q' := by
  suffices general : ∀ after before p q, l = before ++ after → I before p q →
      ∃ p' q', after.forM step p = (.ok (), p') ∧ (after.map g).forM step' q = (.ok (), q') ∧
        I l p' q' from general l [] p q rfl start
  intro after
  induction after with
  | nil =>
    intro before p q split h
    rw [List.append_nil] at split
    exact ⟨p, q, rfl, rfl, split ▸ h⟩
  | cons x after ih =>
    intro before p q split h
    obtain ⟨p₁, q₁, first, first', h₁⟩ := turn before x after split p q h
    have split₁ : l = (before ++ [x]) ++ after := by
      rw [split, List.append_assoc, List.singleton_append]
    obtain ⟨p', q', rest, rest', h'⟩ := ih (before ++ [x]) p₁ q₁ split₁ h₁
    exact ⟨p', q', (bind_of_ok first).trans rest, (bind_of_ok first').trans rest', h'⟩

/-- Two loops over one list. -/
theorem forM_both {α : Type} (step step' : α → PassM Unit) {l : List α}
    {I : List α → Pass → Pass → Prop} (start : I [] p q)
    (turn : ∀ before x after, l = before ++ x :: after → ∀ p q, I before p q →
      ∃ p' q', step x p = (.ok (), p') ∧ step' x q = (.ok (), q') ∧ I (before ++ [x]) p' q') :
    ∃ p' q', l.forM step p = (.ok (), p') ∧ l.forM step' q = (.ok (), q') ∧ I l p' q' := by
  have loop := forM_abreast step step' id start turn
  rwa [List.map_id] at loop

section

variable {c : Consumer} {enter : List String → BlockRef → PassM Unit} {owner : Option String}
variable {place : Place}

/-- A use that is being resolved is reported. -/
theorem inlineUse_circular (watched : c.keyOf u ∈ active) :
    inlineUse c enter active owner place u p =
      (.ok (), p.report c (.circularUse owner u.name)) := by
  rw [inlineUse, if_pos watched]
  rfl

/-- A use of nothing there is leads to nothing. -/
theorem inlineUse_none (new : c.keyOf u ∉ active) (looked : lookup c owner u p = (.ok none, p')) :
    inlineUse c enter active owner place u p = (.ok (), p') := by
  rw [inlineUse, if_neg new]
  exact bind_of_ok looked

end

namespace Twins

variable {T : Twins} {opened : List BlockRef}

/-! ## Blocks of other files -/

/-- A block of another file may be done in one of the passes only. -/
theorem Abreast.markForeign (h : T.Abreast opened p q) (source : String) (i : Nat) :
    T.Abreast opened (p.markDone (.foreign source i)) q := by
  have done (j : Nat) :
      BlockRef.own j ∈ (p.markDone (.foreign source i)).done ↔ .own j ∈ p.done := by
    show _ ∈ _ :: _ ↔ _
    simp
  refine { h with left := ?_, done := ?_, open_ := ?_, untouched := ?_, same := ?_ }
  · exact h.left.markDone (by rintro _ ⟨⟩)
  · intro j
    rw [done, h.done]
  · intro j mem
    rw [done]
    exact h.open_ j mem
  · intro j
    rw [done]
    exact h.untouched j
  · intro j
    rw [done]
    exact h.same j

theorem Abreast.markForeign' (h : T.Abreast opened p q) (source : String) (i : Nat) :
    T.Abreast opened p (q.markDone (.foreign source i)) := by
  refine { h with right := h.right.markDone (by rintro _ ⟨⟩), done := fun j => ?_ }
  rw [← h.done]
  show _ ∈ _ :: _ ↔ _
  simp

/-! ## Settling blocks -/

/-- A block is done, or it is resolved and done then. -/
def Settles (c : Consumer) (depth : Nat) (active : List String) (target : BlockRef)
    (p p' : Pass) : Prop :=
  target ∈ p.done ∧ p' = p ∨ target ∉ p.done ∧
    (do resolveBlock c depth active target; modify (·.markDone target) : PassM Unit) p =
      (.ok (), p')

/-- A block of another file is only marked. -/
theorem settles_foreign {c : Consumer} (depth : Nat) (active : List String) {source : String}
    {i : Nat} (clean : p.session.Clean) (free : (p.body (.foreign source i)).allUses = []) :
    ∃ p', Settles c depth active (.foreign source i) p p' ∧
      (p' = p ∨ p' = p.markDone (.foreign source i)) := by
  by_cases done : .foreign source i ∈ p.done
  · exact ⟨p, .inl ⟨done, rfl⟩, .inl rfl⟩
  · have unchanged : Runs (resolveBlock c depth active (.foreign source i)) p _ :=
      resolveBlock_foreign depth clean.keys free
    obtain ⟨_, _, run, rfl⟩ := unchanged
    exact ⟨_, .inr ⟨done, bind_of_ok run⟩, .inr rfl⟩

/-- Both passes work on a block of the file, and so many may be entered with it. -/
structure Working (T : Twins) (opened : List BlockRef) (depth : Nat) (active : List String)
    (ref : BlockRef) : Prop where
  here : Holds T.left ref
  entered : ∀ i, ref = .own i → .own i ∈ opened
  watched : Watched T.left active ref
  all : ∀ other ∈ opened, Watched T.left active other
  names : active ⊆ T.left.exports.map ExportBlock.name
  affords : (Outset.ofSheet T.file T.left).Affords depth active
  affords' : (Outset.ofSheet T.file T.right).Affords depth active

/-- Both passes have resolved a block. -/
structure Resolved (T : Twins) (opened : List BlockRef) (active : List String) (ref : BlockRef)
    (p q p' q' : Pass) : Prop where
  abreast : T.Abreast opened p' q'
  left : Stretch T.left active ref p p'
  right : Stretch T.right active ref q q'
  free : (p'.body ref).allUses = []
  free' : (q'.body ref).allUses = []
  grown : ∃ k, T.ways.GrownBut k (T.left.block ref) (p'.body ref) (q'.body ref)

/-- With so many blocks to enter a block that is as it was at first is resolved in both passes. -/
def Keeps (T : Twins) (depth : Nat) : Prop :=
  ∀ {opened active ref p q}, T.Working opened depth active ref → 0 < depth →
    T.Abreast opened p q → p.body ref = T.left.block ref → q.body ref = T.right.block ref →
      ∃ p' q', resolveBlock (.noting T.file) depth active ref p = (.ok (), p') ∧
        resolveBlock (.noting T.file) depth active ref q = (.ok (), q') ∧
        T.Resolved opened active ref p q p' q'

theorem Fair.allUses_right (fair : T.Fair) : T.right.allUses = T.left.allUses.map T.ways.turn := by
  rw [← Stylesheet.allUses_mapUses, Stylesheet.allUses, Stylesheet.allUses, fair.exports,
    fair.rules]
  rfl

/-- An export that is asked for is entered. -/
theorem Working.enter (work : T.Working opened (depth + 1) active ref) (fair : T.Fair)
    (used : u ∈ T.left.allUses) (other : u.isBare T.name = false) (bare : u.source.getD "" = "")
    (new : u.name ∉ active) {i : Nat} (named : exportName T.left i = some u.name) :
    T.Working (.own i :: opened) depth (u.name :: active) (.own i) ∧ 0 < depth := by
  have used' : u ∈ T.right.allUses := by
    rw [fair.allUses_right]
    exact List.mem_map.2 ⟨u, used, ways_turn_of_not_bare other⟩
  have key (c : Consumer) : c.keyOf u = u.name := Consumer.keyOf_bare bare
  have left := work.affords.enter (by rw [key]; exact new) used
  have right := work.affords'.enter (by rw [key]; exact new) used'
  rw [key] at left right
  have entered : Watched T.left (u.name :: active) (.own i) :=
    ⟨u.name, List.mem_cons_self, named⟩
  have name : u.name ∈ T.left.exports.map ExportBlock.name := by
    refine List.mem_of_getElem? (i := i) ?_
    rw [List.getElem?_map]
    exact named
  refine ⟨⟨lt_of_exportName named, ?_, entered, ?_, ?_, left.1, right.1⟩, left.2⟩
  · rintro _ ⟨⟩
    exact List.mem_cons_self
  · intro other mem
    rcases List.mem_cons.1 mem with rfl | mem
    · exact entered
    · exact (work.all other mem).mono (List.subset_cons_self _ _)
  · exact List.cons_subset.2 ⟨name, work.names⟩

/-- Both passes have settled what a use asks for, while they work on a block. -/
structure Settled (T : Twins) (opened : List BlockRef) (ref t t' : BlockRef) (u : UseDirective)
    (p q p' q' : Pass) : Prop where
  abreast : T.Abreast opened p' q'
  apart : t ≠ ref
  apart' : t' ≠ ref
  still : p'.body ref = p.body ref
  still' : q'.body ref = q.body ref
  same : ∃ k, [u].countP T.ways.asks ≤ k ∧ T.ways.SameBut k (p'.body t) (q'.body t')

/-- An export that may be entered is settled in both passes. -/
theorem settle_export {i : Nat} (fair : T.Fair) (keeps : T.Keeps depth)
    (work : T.Working (.own i :: opened) depth active (.own i)) (some : 0 < depth)
    (h : T.Abreast opened p q) (out : .own i ∉ opened) :
    ∃ p' q', Settles (.noting T.file) depth active (.own i) p p' ∧
      Settles (.noting T.file) depth active (.own i) q q' ∧
      T.Abreast opened p' q' ∧ (.own i ∈ p'.done ∧ p.done ⊆ p'.done) ∧
      ∀ other, other ≠ .own i → Watched T.left active other →
        p'.body other = p.body other ∧ q'.body other = q.body other := by
  by_cases done : .own i ∈ p.done
  · exact ⟨p, q, .inl ⟨done, rfl⟩, .inl ⟨(h.done i).2 done, rfl⟩, h, ⟨done, List.Subset.refl _⟩,
      fun _ _ _ => ⟨rfl, rfl⟩⟩
  have done' : .own i ∉ q.done := fun mem => done ((h.done i).1 mem)
  obtain ⟨body, body'⟩ := h.untouched i done out
  obtain ⟨p₁, q₁, run, run', resolved⟩ := keeps work some (h.enter done) body body'
  obtain ⟨k, grown⟩ := resolved.grown
  have same := grown.sameBut resolved.free
  refine ⟨_, _, .inr ⟨done, bind_of_ok run⟩, .inr ⟨done', bind_of_ok run'⟩,
    resolved.abreast.markOwn out resolved.free resolved.free' ⟨k, same⟩,
    ⟨List.mem_cons_self, List.subset_cons_of_subset _ resolved.left.done⟩, ?_⟩
  intro other ne watched
  exact ⟨resolved.left.others other ne watched,
    resolved.right.others other ne (fair.watched_right watched)⟩

/-- An export that is asked for is settled in both passes. -/
theorem settle_own (fair : T.Fair) (keeps : T.Keeps depth)
    (work : T.Working opened (depth + 1) active ref) (h : T.Abreast opened p q)
    (used : u ∈ T.left.allUses) (other : u.isBare T.name = false) (bare : u.source.getD "" = "")
    (new : u.name ∉ active) {i : Nat} (named : exportName T.left i = some u.name) :
    ∃ p' q', Settles (.noting T.file) depth (u.name :: active) (.own i) p p' ∧
      Settles (.noting T.file) depth (u.name :: active) (.own i) q q' ∧
      T.Settled opened ref (.own i) (.own i) u p q p' q' := by
  have stands : MayStandFor T.left [] u.name (.own i) := named
  have ne : ref ≠ .own i := work.watched.ne new stands
  have out : .own i ∉ opened := fun mem => (work.all _ mem).ne new stands rfl
  obtain ⟨inner, some⟩ := work.enter fair used other bare new named
  obtain ⟨p', q', settles, settles', abreast, ⟨done, -⟩, others⟩ :=
    settle_export fair keeps inner some h out
  obtain ⟨k, same⟩ := abreast.same i done
  obtain ⟨still, still'⟩ := others ref ne (work.watched.mono (List.subset_cons_self u.name active))
  have enough : [u].countP T.ways.asks ≤ k := countP_asks other ▸ Nat.zero_le k
  exact ⟨p', q', settles, settles', abreast, ne.symm, ne.symm, still, still', k, enough, same⟩

/-- What a use asks for is settled in both passes. -/
theorem settle_abreast (fair : T.Fair) (keeps : T.Keeps depth)
    (work : T.Working opened (depth + 1) active ref) (h : T.Abreast opened p q)
    (used : u ∈ T.left.allUses) (new : (Consumer.noting T.file).keyOf u ∉ active)
    {t t' : BlockRef} (finds : T.Finds u p q (some t) (some t')) :
    ∃ p' q', Settles (.noting T.file) depth ((Consumer.noting T.file).keyOf u :: active) t p p' ∧
      Settles (.noting T.file) depth
        ((Consumer.noting T.file).keyOf (T.ways.turn u) :: active) t' q q' ∧
      T.Settled opened ref t t' u p q p' q' := by
  cases finds with
  | own other bare named =>
    have key : (Consumer.noting T.file).keyOf u = u.name := Consumer.keyOf_bare bare
    rw [ways_turn_of_not_bare other, key]
    rw [key] at new
    exact settle_own fair keeps work h used other bare new named
  | @foreign source i i' k known known' copies same =>
    have block (h : T.Abreast opened p q) := h.body_foreign source
    have free : (p.body (.foreign source i)).allUses = [] := by
      rw [(block h i).1]
      exact fair.free_block source i
    have free' : (q.body (.foreign source i')).allUses = [] := by
      rw [(block h i').2]
      exact fair.free_block source i'
    obtain ⟨p', settles, marked⟩ := settles_foreign (c := .noting T.file) depth
      ((Consumer.noting T.file).keyOf u :: active) (h.clean fair).1 free
    obtain ⟨q', settles', marked'⟩ := settles_foreign (c := .noting T.file) depth
      ((Consumer.noting T.file).keyOf (T.ways.turn u) :: active) (h.clean fair).2 free'
    have abreast : T.Abreast opened p' q' := by
      rcases marked with rfl | rfl <;> rcases marked' with rfl | rfl
      · exact h
      · exact h.markForeign' source i'
      · exact h.markForeign source i
      · exact (h.markForeign source i).markForeign' source i'
    have apart (j : Nat) : BlockRef.foreign source j ≠ ref := by
      rintro rfl
      exact work.here
    refine ⟨p', q', settles, settles', abreast, apart i, apart i', ?_, ?_, k, copies, ?_⟩
    · rcases marked with rfl | rfl <;> rfl
    · rcases marked' with rfl | rfl <;> rfl
    · rw [(abreast.body_foreign source i).1, (abreast.body_foreign source i').2]
      exact same

/-! ## Working on a block -/

/-- Both passes have worked on a block, in which uses were taken away at these places. -/
structure Paces (T : Twins) (opened : List BlockRef) (active : List String) (ref : BlockRef)
    (places : List (List Nat)) (p q p' q' : Pass) : Prop where
  abreast : T.Abreast opened p' q'
  left : Works T.left active ref places p p'
  right : Works T.right active ref places q q'

theorem Paces.refl (h : T.Abreast opened p q) : T.Paces opened active ref [] p q p q :=
  ⟨h, .refl h.left, .refl h.right⟩

theorem Paces.trans {places more : List (List Nat)} (h : T.Paces opened active ref places p q p' q')
    (h' : T.Paces opened active ref more p' q' p'' q'') :
    T.Paces opened active ref (places ++ more) p q p'' q'' :=
  ⟨h'.abreast, h.left.trans h'.left, h.right.trans h'.right⟩

/-- A block of the file that both passes work on has changed in both. -/
theorem Abreast.setBody (h : T.Abreast opened p q) (here : Holds p.sheet ref)
    (here' : Holds q.sheet ref) (entered : ∀ i, ref = .own i → .own i ∈ opened) {b b' : Body}
    (left : Underway T.left { p.setBody ref b with session := s })
    (right : Underway T.right { q.setBody ref b' with session := s' })
    (library : s.library = p.session.library) (library' : s'.library = q.session.library) :
    T.Abreast opened { p.setBody ref b with session := s }
      { q.setBody ref b' with session := s' } := by
  have bodies {i : Nat} (ne : BlockRef.own i ≠ ref) :
      ({ p.setBody ref b with session := s } : Pass).body (.own i) = p.body (.own i) ∧
        ({ q.setBody ref b' with session := s' } : Pass).body (.own i) = q.body (.own i) := by
    constructor
    · exact (body_own_congr (p := p.setBody ref b) rfl).trans (Pass.body_setBody_of_ne here ne)
    · exact (body_own_congr (p := q.setBody ref b') rfl).trans (Pass.body_setBody_of_ne here' ne)
  constructor
  case left => exact left
  case right => exact right
  case library => exact library.trans h.library
  case library' => exact library'.trans h.library'
  case asked =>
    show (p.setBody ref b).dependencies ⊆ _
    rw [Pass.dependencies_setBody]
    exact h.asked
  case asked' =>
    show (q.setBody ref b').dependencies ⊆ _
    rw [Pass.dependencies_setBody]
    exact h.asked'
  case registry =>
    show (q.setBody ref b').registry = Table.erase _ (p.setBody ref b).registry
    rw [Pass.registry_setBody, Pass.registry_setBody, h.registry]
  case imported =>
    show (p.setBody ref b).registry.lookup _ = _
    rw [Pass.registry_setBody, h.imported]
  case known =>
    show _ ∈ (p.setBody ref b).dependencies
    rw [Pass.dependencies_setBody]
    exact h.known
  case done =>
    intro i
    show _ ∈ (q.setBody ref b').done ↔ _ ∈ (p.setBody ref b).done
    rw [Pass.done_setBody, Pass.done_setBody, h.done]
  case open_ =>
    intro i mem
    show _ ∉ (p.setBody ref b).done
    rw [Pass.done_setBody]
    exact h.open_ i mem
  case untouched =>
    intro i
    show _ ∉ (p.setBody ref b).done → _
    rw [Pass.done_setBody]
    intro left out
    have ne : BlockRef.own i ≠ ref := fun same => out (entered i same.symm)
    rw [(bodies ne).1, (bodies ne).2]
    exact h.untouched i left out
  case same =>
    intro i
    show _ ∈ (p.setBody ref b).done → _
    rw [Pass.done_setBody]
    intro done
    have ne : BlockRef.own i ≠ ref := fun same => h.open_ i (entered i same.symm) done
    rw [(bodies ne).1, (bodies ne).2]
    exact h.same i done

/-- What the uses that were dealt with have added at a place of two blocks. -/
def Adds (T : Twins) (ref : BlockRef) (path : List Nat) (b b' : Body)
    (uses : List UseDirective) (p q : Pass) : Prop :=
  ∃ k more more', uses.countP T.ways.asks ≤ k ∧ T.ways.SameBut k more more' ∧
    p.body ref = b.modifyAt (· ++ more) path ∧ q.body ref = b'.modifyAt (· ++ more') path

theorem Adds.congr {b b' : Body} {uses more : List UseDirective}
    (h : T.Adds ref path b b' uses p q) (left : p'.body ref = p.body ref)
    (right : q'.body ref = q.body ref) (none : more.countP T.ways.asks = 0) :
    T.Adds ref path b b' (uses ++ more) p' q' := by
  obtain ⟨k, added, added', enough, same, body, body'⟩ := h
  refine ⟨k, added, added', ?_, same, left.trans body, right.trans body'⟩
  rw [List.countP_append, none]
  exact enough

/-- Copies of blocks that are the same but for copies. -/
theorem Adds.copy {b b' t t' : Body} {uses : List UseDirective} {k : Nat}
    (h : T.Adds ref path b b' uses p q) (enough : [u].countP T.ways.asks ≤ k)
    (same : T.ways.SameBut k t t') (left : p'.body ref = (p.body ref).modifyAt (· ++ t) path)
    (right : q'.body ref = (q.body ref).modifyAt (· ++ t') path) :
    T.Adds ref path b b' (uses ++ [u]) p' q' := by
  have joined (c more t : Body) : (c.modifyAt (· ++ more) path).modifyAt (· ++ t) path =
      c.modifyAt (· ++ (more ++ t)) path := by
    rw [Body.modifyAt_modifyAt]
    exact congrArg (Body.modifyAt · path c) (funext fun d => Body.append_assoc d more t)
  obtain ⟨m, added, added', before, alike, body, body'⟩ := h
  refine ⟨m + k, added ++ t, added' ++ t', ?_, alike.append same, ?_, ?_⟩
  · rw [List.countP_append]
    omega
  · rw [left, body, joined]
  · rw [right, body', joined]

/-- A use of the name alone is never one that is being resolved, whichever way it is read. -/
theorem Working.keyOf_not_mem (work : T.Working opened depth active ref) (fair : T.Fair)
    (asks : u.isBare T.name = true) : (Consumer.noting T.file).keyOf u ∉ active ∧
      (Consumer.noting T.file).keyOf (T.ways.turn u) ∉ active := by
  obtain ⟨name, bare⟩ : u.name = T.name ∧ u.source.getD "" = "" := of_decide_eq_true asks
  constructor
  · rw [Consumer.keyOf_bare bare, name]
    exact fun mem => fair.foreign (work.names mem)
  · have key : (Consumer.noting T.file).keyOf ⟨T.name, some T.source⟩ =
        T.provider ++ "#" ++ T.name := by
      unfold Consumer.keyOf
      split
      case _ empty => exact absurd empty fair.source
      case _ => rfl
    rw [ways_turn_of_bare asks, key]
    exact fun mem => fair.apart (work.names mem)

/-- With nothing to load, what is known of the work on a use in the first pass. -/
theorem Working.works_left (work : T.Working opened (depth + 1) active ref) (fair : T.Fair)
    (h : T.Abreast opened p q) {owner : Option String} (used : u ∈ (p.body ref).allUses)
    (run : inlineUse (.noting T.file) (resolveBlock (.noting T.file) depth) active owner ⟨ref, path⟩
      u p = (.ok (), p')) : Works T.left active ref [] p p' := by
  have lawful := Loading.stocked_lawful (s := T.session) T.file fair.clean
  have proceeds : Proceeds _ T.file (fun c => inlineUse c (resolveBlock c depth) active owner
      ⟨ref, path⟩ u) p _ := inlineUse_proceeds lawful (drained lawful T.file T.left depth) h.left
    work.here work.watched work.affords owner used
  exact (proceeds.of_run h.library run).1

theorem Working.works_right (work : T.Working opened (depth + 1) active ref) (fair : T.Fair)
    (h : T.Abreast opened p q) {owner : Option String} (used : u ∈ (q.body ref).allUses)
    (run : inlineUse (.noting T.file) (resolveBlock (.noting T.file) depth) active owner ⟨ref, path⟩
      u q = (.ok (), q')) : Works T.right active ref [] q q' := by
  have lawful := Loading.stocked_lawful (s := T.session) T.file fair.clean
  have proceeds : Proceeds _ T.file (fun c => inlineUse c (resolveBlock c depth) active owner
      ⟨ref, path⟩ u) q _ := inlineUse_proceeds lawful (drained lawful T.file T.right depth) h.right
    (fair.holds_right work.here) (fair.watched_right work.watched) work.affords' owner used
  exact (proceeds.of_run h.library' run).1

/-- In both passes a use at a place gives way to what it asks for. -/
theorem inlineUse_abreast (fair : T.Fair) (keeps : T.Keeps depth)
    (work : T.Working opened (depth + 1) active ref) (owner owner' : Option String)
    {b b' : Body} {uses : List UseDirective} (h : T.Abreast opened p q)
    (adds : T.Adds ref path b b' uses p q) (used : u ∈ (p.body ref).allUses)
    (used' : T.ways.turn u ∈ (q.body ref).allUses) :
    ∃ p' q', inlineUse (.noting T.file) (resolveBlock (.noting T.file) depth) active owner
        ⟨ref, path⟩ u p = (.ok (), p') ∧
      inlineUse (.noting T.file) (resolveBlock (.noting T.file) depth) active owner'
        ⟨ref, path⟩ (T.ways.turn u) q = (.ok (), q') ∧
      T.Paces opened active ref [] p q p' q' ∧ T.Adds ref path b b' (uses ++ [u]) p' q' := by
  suffices steps : ∃ p' q', inlineUse (.noting T.file) (resolveBlock (.noting T.file) depth) active
        owner ⟨ref, path⟩ u p = (.ok (), p') ∧
      inlineUse (.noting T.file) (resolveBlock (.noting T.file) depth) active owner'
        ⟨ref, path⟩ (T.ways.turn u) q = (.ok (), q') ∧
      (Underway T.left p' → Underway T.right q' → T.Abreast opened p' q') ∧
      T.Adds ref path b b' (uses ++ [u]) p' q' by
    obtain ⟨p', q', run, run', abreast, added⟩ := steps
    have left := work.works_left fair h used run
    have right := work.works_right fair h used' run'
    exact ⟨p', q', run, run', ⟨abreast left.1.underway right.1.underway, left, right⟩, added⟩
  by_cases watching : (Consumer.noting T.file).keyOf u ∈ active
  · have other : u.isBare T.name = false :=
      Bool.eq_false_iff.2 fun asks => (work.keyOf_not_mem fair asks).1 watching
    rw [ways_turn_of_not_bare other]
    refine ⟨_, _, inlineUse_circular watching, inlineUse_circular watching,
      fun _ _ => h.log _ _, adds.congr ?_ ?_ (countP_asks other)⟩
    · exact work.watched.body_congr rfl
    · exact work.watched.body_congr rfl
  have watching' : (Consumer.noting T.file).keyOf (T.ways.turn u) ∉ active := by
    by_cases asks : u.isBare T.name = true
    · exact (work.keyOf_not_mem fair asks).2
    · rw [ways_turn_of_not_bare (Bool.eq_false_iff.2 asks)]
      exact watching
  have inFile : u ∈ T.left.allUses := h.left.mem_allUses work.here used
  obtain ⟨found, found', p₁, q₁, looked, looked', h₁, ⟨sheet, sheet'⟩, -, finds⟩ :=
    lookup_abreast fair h inFile owner owner'
  have body := work.watched.body_congr sheet
  have body' := work.watched.body_congr sheet'
  obtain other | ⟨t, t', rfl, rfl⟩ :
      (found = none ∧ found' = none ∧ u.isBare T.name = false) ∨
        ∃ t t', found = some t ∧ found' = some t' := by
    cases finds with
    | none other => exact .inl ⟨rfl, rfl, other⟩
    | own | foreign => exact .inr ⟨_, _, rfl, rfl⟩
  · obtain ⟨rfl, rfl, other⟩ := other
    exact ⟨p₁, q₁, inlineUse_none watching looked, inlineUse_none watching' looked', fun _ _ => h₁,
      adds.congr body body' (countP_asks other)⟩
  obtain ⟨p₂, q₂, settles, settles', settled⟩ :=
    settle_abreast fair keeps work h₁ inFile watching finds
  obtain ⟨k, enough, same⟩ := settled.same
  have here : Holds p₂.sheet ref := settled.abreast.left.holds work.here
  have here' : Holds q₂.sheet ref := settled.abreast.right.holds (fair.holds_right work.here)
  refine ⟨_, _, inlineUse_eq watching looked settles (copy_eq here settled.apart same.uses),
    inlineUse_eq watching' looked' settles' (copy_eq here' settled.apart' same.uses'), ?_, ?_⟩
  · rw [Pass.append_eq_setBody here, Pass.append_eq_setBody here']
    exact fun left right => settled.abreast.setBody here here' work.entered left right rfl rfl
  · refine adds.copy enough same ?_ ?_
    · rw [Pass.append_eq_setBody here, body_setBody_session here, settled.still, body]
    · rw [Pass.append_eq_setBody here', body_setBody_session here', settled.still', body']

/-- Before the first use nothing was added. -/
theorem Adds.start (T : Twins) (ref : BlockRef) (path : List Nat) (p q : Pass) :
    T.Adds ref path (p.body ref) (q.body ref) [] p q := by
  have same (b : Body) : b = b.modifyAt (· ++ .empty) path := by
    have none : (· ++ Body.empty) = (id : Body → Body) := funext Body.append_empty
    rw [none, Body.modifyAt_id]
  exact ⟨0, .empty, .empty, Nat.le_refl 0, .empty T.ways, same _, same _⟩

/-- The uses at a place give way one after the other. -/
theorem uses_abreast (fair : T.Fair) (keeps : T.Keeps depth)
    (work : T.Working opened (depth + 1) active ref) (owner owner' : Option String)
    (h : T.Abreast opened p q)
    (turned : (q.content ⟨ref, path⟩).uses = (p.content ⟨ref, path⟩).uses.map T.ways.turn) :
    ∃ p' q', (p.content ⟨ref, path⟩).uses.forM (inlineUse (.noting T.file)
        (resolveBlock (.noting T.file) depth) active owner ⟨ref, path⟩) p = (.ok (), p') ∧
      (q.content ⟨ref, path⟩).uses.forM (inlineUse (.noting T.file)
        (resolveBlock (.noting T.file) depth) active owner' ⟨ref, path⟩) q = (.ok (), q') ∧
      T.Paces opened active ref [] p q p' q' ∧
      T.Adds ref path (p.body ref) (q.body ref) (p.content ⟨ref, path⟩).uses p' q' := by
  rw [turned]
  refine forM_abreast _ _ _ (I := fun uses p' q' => T.Paces opened active ref [] p q p' q' ∧
    T.Adds ref path (p.body ref) (q.body ref) uses p' q') ⟨.refl h, .start T ref path p q⟩ ?_
  rintro before u after split p' q' ⟨paces, adds⟩
  have here : u ∈ (p.content ⟨ref, path⟩).uses := mem_of_split split
  -- what is added has no uses, so the use still stands there
  have used : u ∈ (p'.body ref).allUses := by
    apply Body.mem_allUses_of_inside path
    rw [paces.left.2 path, if_neg List.not_mem_nil]
    exact here
  have used' : T.ways.turn u ∈ (q'.body ref).allUses := by
    apply Body.mem_allUses_of_inside path
    rw [paces.right.2 path, if_neg List.not_mem_nil]
    show _ ∈ (q.content ⟨ref, path⟩).uses
    rw [turned]
    exact List.mem_map_of_mem here
  obtain ⟨p'', q'', run, run', more, added⟩ :=
    inlineUse_abreast fair keeps work owner owner' paces.abreast adds used used'
  exact ⟨p'', q'', run, run', paces.trans more, added⟩

/-- In both passes the uses at a place are taken away. -/
theorem Working.clear (work : T.Working opened depth active ref) (fair : T.Fair)
    (h : T.Abreast opened p q) (path : List Nat) :
    T.Paces opened active ref [path] p q (p.clearUses ⟨ref, path⟩) (q.clearUses ⟨ref, path⟩) := by
  have there := fair.holds_right work.here
  have here := h.left.holds work.here
  have here' := h.right.holds there
  have general {r : Pass} (here : Holds r.sheet ref) : r.clearUses ⟨ref, path⟩ =
      { r.setBody ref ((r.body ref).modifyAt (fun b => { b with uses := [] }) path) with
        session := r.session } := by
    rw [← Pass.session_setBody here, ← Pass.clearUses_eq_setBody here]
  have left : Works T.left active ref [path] p (p.clearUses ⟨ref, path⟩) :=
    .clear active path h.left work.here (p.clearUses ⟨ref, path⟩).session
  have right : Works T.right active ref [path] q (q.clearUses ⟨ref, path⟩) :=
    .clear active path h.right there (q.clearUses ⟨ref, path⟩).session
  refine ⟨?_, left, right⟩
  have underway := left.1.underway
  have underway' := right.1.underway
  rw [general here] at underway ⊢
  rw [general here'] at underway' ⊢
  exact h.setBody here here' work.entered underway underway' rfl rfl

/-- At a place of a block all uses give way in both passes, and there are none then. -/
theorem inlineAt_abreast (fair : T.Fair) (keeps : T.Keeps depth)
    (work : T.Working opened (depth + 1) active ref) (owner owner' : Option String) {k : Nat}
    (h : T.Abreast opened p q) (there : path ∈ (T.left.block ref).places)
    (grown : T.ways.GrownBut k (T.left.block ref) (p.body ref) (q.body ref)) :
    ∃ p' q', inlineAt (.noting T.file) (resolveBlock (.noting T.file) depth) active owner ref path
        p = (.ok (), p') ∧
      inlineAt (.noting T.file) (resolveBlock (.noting T.file) depth) active owner' ref path q =
        (.ok (), q') ∧
      T.Paces opened active ref [path] p q p' q' ∧
      ∃ m, T.ways.GrownBut m (T.left.block ref) (p'.body ref) (q'.body ref) := by
  obtain ⟨m, level, -⟩ := grown.at_place there
  obtain ⟨p₁, q₁, run, run', paces, k', more, more', enough, same, body, body'⟩ :=
    uses_abreast fair keeps work owner owner' h level.uses
  have here := paces.abreast.left.holds work.here
  have here' := paces.abreast.right.holds (fair.holds_right work.here)
  have cleared (c more : Body) : (c.modifyAt (· ++ more) path).modifyAt
      (fun b => { b with uses := [] }) path =
        c.modifyAt (fun b => { b ++ more with uses := [] }) path := by
    rw [Body.modifyAt_modifyAt]
    rfl
  refine ⟨p₁.clearUses ⟨ref, path⟩, q₁.clearUses ⟨ref, path⟩, (bind_of_ok run).trans rfl,
    (bind_of_ok run').trans rfl, paces.trans (work.clear fair paces.abreast path), ?_⟩
  rw [Pass.clearUses_eq_setBody here, Pass.clearUses_eq_setBody here', Pass.body_setBody_self here,
    Pass.body_setBody_self here', body, body', cleared, cleared]
  exact grown.settle there same enough

/-- A block of the file is resolved in both passes, with so many blocks to enter from there. -/
theorem resolveBlock_abreast (fair : T.Fair) (keeps : T.Keeps depth)
    (work : T.Working opened (depth + 1) active ref) (h : T.Abreast opened p q)
    (body : p.body ref = T.left.block ref) (body' : q.body ref = T.right.block ref) :
    ∃ p' q', resolveBlock (.noting T.file) (depth + 1) active ref p = (.ok (), p') ∧
      resolveBlock (.noting T.file) (depth + 1) active ref q = (.ok (), q') ∧
      T.Resolved opened active ref p q p' q' := by
  have places : (q.body ref).places = (p.body ref).places := by
    rw [body, body', fair.block_right work.here, Body.places_mapUses]
  have start : T.ways.GrownBut 0 (T.left.block ref) (p.body ref) (q.body ref) := by
    rw [body, body', fair.block_right work.here]
    exact .start T.ways _
  -- a block is resolved at the places it had at first, the same in both passes
  obtain ⟨p', q', run, run', paces, grown⟩ := forM_both
    (inlineAt (.noting T.file) (resolveBlock (.noting T.file) depth) active (p.nameOf ref) ref)
    (inlineAt (.noting T.file) (resolveBlock (.noting T.file) depth) active (q.nameOf ref) ref)
    (l := (p.body ref).places)
    (I := fun before p' q' => T.Paces opened active ref before p q p' q' ∧
      ∃ k, T.ways.GrownBut k (T.left.block ref) (p'.body ref) (q'.body ref))
    ⟨.refl h, 0, start⟩ (by
      rintro before path after split p₁ q₁ ⟨paces, k, grown⟩
      have there : path ∈ (T.left.block ref).places := by
        rw [← body]
        exact mem_of_split split
      obtain ⟨p₂, q₂, run, run', more, further⟩ := inlineAt_abreast fair keeps work (p.nameOf ref)
        (q.nameOf ref) paces.abreast there grown
      exact ⟨p₂, q₂, run, run', paces.trans more, further⟩)
  rw [← places] at run'
  have free := ClearedAt.free paces.left.2
  have free' : (q'.body ref).allUses = [] := by
    have cleared := paces.right.2
    rw [← places] at cleared
    exact cleared.free
  exact ⟨p', q', run, run', paces.abreast, paces.left.1, paces.right.1, free, free', grown⟩

/-- Any number of blocks to enter is enough for the blocks that can be entered with it. -/
theorem keeps (fair : T.Fair) (depth : Nat) : T.Keeps depth := by
  induction depth with
  | zero =>
    intro _ _ _ _ _ _ enough
    exact absurd enough (Nat.lt_irrefl 0)
  | succ depth ih => exact fun work _ h body body' => resolveBlock_abreast fair ih work h body body'

end Twins

end Reuse

end NestedStyles
