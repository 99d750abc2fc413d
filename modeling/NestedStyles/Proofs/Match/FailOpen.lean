import Mathlib
import NestedStyles.Proofs.Match.Deferred
import NestedStyles.Proofs.Match.Flat
import NestedStyles.Selector.Compile

/-!
# What the browser decides never excludes an element, outside `:not()`

Matching grants every pseudo-class that the browser decides: it selects what fits under the verdict
that grants all of them (`Selector.mem_select_iff_fits`). So it selects every element that could fit
in the browser as long as those pseudo-classes stand under an even number of `:not()`. Under an odd
one they are granted too, and an element that fits because the browser denies them is left out
(`Selector.select_covers_fits`).
-/

namespace NestedStyles

open Forest Linked

/-! ## Matching as a verdict -/

theorem Scene.hasPseudo_eq_true {s : Scene} {i : NodeId} {name : String} {argument : Option String}
    (h : name ∈ s.config.runtimePseudoClasses ∨ argument.isSome ∨
      StructuralPseudo.ofName? name = none) : s.hasPseudo i name argument = .ok true := by
  unfold hasPseudo
  split
  · rfl
  · next unlisted =>
    rcases h with listed | given | unknown
    · exact absurd listed unlisted
    · obtain ⟨text, rfl⟩ := Option.isSome_iff_exists.1 given
      cases StructuralPseudo.ofName? name <;> rfl
    · rw [unknown]

/-- What the browser decides is taken to hold, unless the runtime set names a pseudo-class with an
argument `an+b`: those are looked at before the set is. -/
theorem Simple.holds_of_deferred {s : Scene} {i : NodeId} {x : Simple} {p : Deferred}
    (unlisted : ∀ p : NthPseudo, p.name ∉ s.config.runtimePseudoClasses)
    (h : x.deferred? s.config = some p) : x.holds s i = .ok true := by
  cases x with
  | pseudo name argument =>
    rw [deferred?] at h
    split at h
    case isTrue left => exact Scene.hasPseudo_eq_true left
    case isFalse => cases h
  | nth p argument coefficients =>
    rw [deferred?] at h
    split at h
    case isTrue left =>
      obtain rfl := left.resolve_left (unlisted p)
      rfl
    case isFalse => cases h
  | type | «class» | id | «attribute» | has | among | except | nesting | any => cases h

theorem Simple.decided_grantAll_iff {s : Scene} {i : NodeId} {x : Simple}
    (unlisted : ∀ p : NthPseudo, p.name ∉ s.config.runtimePseudoClasses) :
    x.Decided s .grantAll i ↔ x.holds s i = .ok true := by
  unfold Decided
  cases hp : x.deferred? s.config with
  | none => exact Iff.rfl
  | some p => exact iff_of_true rfl (holds_of_deferred unlisted hp)

section

variable {s : Scene} {roots : List NodeId} {i j : NodeId}

theorem anyEndsAt_cons_iff (wf : (Template.mk s.forest roots).WellFormed) (hi : s.forest.Has i)
    {c : Chain} {cs : List Chain} :
    anyEndsAt s i (c :: cs) = .ok true ↔
      c.endsAt s i = .ok true ∨ anyEndsAt s i cs = .ok true := by
  obtain ⟨b, hb⟩ := Chain.settled wf hi c
  rw [anyEndsAt, hb]
  cases b <;> simp [bind, Except.bind, pure, Except.pure]

/-- Following a chain forward from some elements gives what it reaches from them. -/
theorem Chain.exists_select (wf : (Template.mk s.forest roots).WellFormed) (starts : List NodeId)
    (c : Chain) : ∃ l, c.select s starts = .ok l ∧
      ∀ j, j ∈ l ↔ c.Reaches s (fun j => ∃ i ∈ starts, s.forest.LeadsTo c.leading i j) j := by
  induction c using combinators.induct with
  | case1 leading compound =>
    exact exists_gather_after wf starts leading fun j hj => Compound.settled wf hj compound
  | case2 previous k compound ih =>
    obtain ⟨reached, hr, mem⟩ := ih
    obtain ⟨l, hl, mem'⟩ := exists_gather_after wf reached k
      fun j hj => Compound.settled wf hj compound
    refine ⟨l, by rw [select, hr]; exact hl, fun j => ?_⟩
    rw [mem', Reaches]
    refine and_congr_left fun _ => exists_congr fun i => and_congr_left fun _ => ?_
    exact mem i

theorem anySelects_cons_iff (wf : (Template.mk s.forest roots).WellFormed) {c : Chain}
    {cs : List Chain} :
    anySelects s i (c :: cs) = .ok true ↔
      (∃ j, c.Reaches s (s.forest.LeadsTo c.leading i) j) ∨ anySelects s i cs = .ok true := by
  obtain ⟨l, hl, mem⟩ := c.exists_select wf [i]
  simp only [List.mem_singleton, exists_eq_left] at mem
  rw [anySelects, hl]
  cases l with
  | nil =>
    have none : ¬ ∃ j, c.Reaches s (s.forest.LeadsTo c.leading i) j :=
      fun ⟨j, hj⟩ => List.not_mem_nil ((mem j).2 hj)
    exact (or_iff_right none).symm
  | cons j l => exact iff_of_true rfl (.inl ⟨j, (mem j).1 List.mem_cons_self⟩)

end

section

variable {s : Scene} {roots : List NodeId}

mutual

/-- An element meets a condition where it does once the browser grants all that is left to it. -/
theorem Simple.fits_grantAll_iff (wf : (Template.mk s.forest roots).WellFormed)
    (unlisted : ∀ p : NthPseudo, p.name ∉ s.config.runtimePseudoClasses) {i : NodeId}
    (hi : s.forest.Has i) (x : Simple) : x.Fits s .grantAll i ↔ x.holds s i = .ok true := by
  cases x with
  | has cs => exact anyFollows_grantAll_iff wf unlisted cs
  | among cs => exact anyPrecedes_grantAll_iff wf unlisted hi cs
  | except cs =>
    obtain ⟨b, hb⟩ := settled_anyEndsAt wf hi cs
    have same : AnyPrecedes s .grantAll i cs ↔ b = true := by
      rw [anyPrecedes_grantAll_iff wf unlisted hi cs, hb, Except.ok.injEq]
    have negated : (Simple.except cs).holds s i = .ok (!b) := by
      rw [Simple.holds, hb]
      rfl
    show ¬ AnyPrecedes s .grantAll i cs ↔ _
    rw [negated, same, Except.ok.injEq, Bool.not_eq_true', Bool.not_eq_true]
  | pseudo | nth => exact Simple.decided_grantAll_iff unlisted
  | type | «class» | id | «attribute» | nesting | any => exact Iff.rfl
termination_by structural x

theorem Compound.fits_grantAll_iff (wf : (Template.mk s.forest roots).WellFormed)
    (unlisted : ∀ p : NthPseudo, p.name ∉ s.config.runtimePseudoClasses) {i : NodeId}
    (hi : s.forest.Has i) (xs : List Simple) :
    Compound.Fits s .grantAll i xs ↔ Compound.holds s i xs = .ok true := by
  cases xs with
  | nil => exact iff_of_true trivial rfl
  | cons x xs =>
    rw [Compound.holds_cons_iff, ← Simple.fits_grantAll_iff wf unlisted hi x,
      ← Compound.fits_grantAll_iff wf unlisted hi xs]
    exact Iff.rfl
termination_by structural xs

theorem Chain.precedes_grantAll_iff (wf : (Template.mk s.forest roots).WellFormed)
    (unlisted : ∀ p : NthPseudo, p.name ∉ s.config.runtimePseudoClasses) {j : NodeId}
    (hj : s.forest.Has j) (c : Chain) :
    c.Precedes s .grantAll j ↔ c.endsAt s j = .ok true := by
  cases c with
  | start _ compound => exact Compound.fits_grantAll_iff wf unlisted hj compound
  | step previous k compound =>
    rw [Chain.endsAt_step_iff wf hj, ← Compound.fits_grantAll_iff wf unlisted hj compound]
    refine and_congr_right fun _ => exists_congr fun i => and_congr_right fun leads => ?_
    have hi := wf.has_of_leadsFrom leads
    exact Chain.precedes_grantAll_iff wf unlisted hi previous
termination_by structural c

theorem Chain.follows_grantAll_iff (wf : (Template.mk s.forest roots).WellFormed)
    (unlisted : ∀ p : NthPseudo, p.name ∉ s.config.runtimePseudoClasses) {First : NodeId → Prop}
    (first : ∀ i, First i → s.forest.Has i) {j : NodeId} (c : Chain) :
    c.Follows s .grantAll First j ↔ c.Reaches s First j := by
  cases c with
  | start _ compound =>
    refine and_congr_right fun hj => ?_
    exact Compound.fits_grantAll_iff wf unlisted (first j hj) compound
  | step previous k compound =>
    have before (i : NodeId) := Chain.follows_grantAll_iff wf unlisted first (j := i) previous
    rw [Chain.Follows, Chain.Reaches]
    simp only [before]
    refine and_congr_right fun ⟨i, _, leads⟩ => ?_
    exact Compound.fits_grantAll_iff wf unlisted (wf.has_of_leadsTo leads) compound
termination_by structural c

theorem anyPrecedes_grantAll_iff (wf : (Template.mk s.forest roots).WellFormed)
    (unlisted : ∀ p : NthPseudo, p.name ∉ s.config.runtimePseudoClasses) {i : NodeId}
    (hi : s.forest.Has i) (cs : List Chain) :
    AnyPrecedes s .grantAll i cs ↔ anyEndsAt s i cs = .ok true := by
  cases cs with
  | nil => exact iff_of_false id (by simp [anyEndsAt])
  | cons c cs =>
    rw [anyEndsAt_cons_iff wf hi, ← Chain.precedes_grantAll_iff wf unlisted hi c,
      ← anyPrecedes_grantAll_iff wf unlisted hi cs]
    exact Iff.rfl
termination_by structural cs

theorem anyFollows_grantAll_iff (wf : (Template.mk s.forest roots).WellFormed)
    (unlisted : ∀ p : NthPseudo, p.name ∉ s.config.runtimePseudoClasses) {i : NodeId}
    (cs : List Chain) : AnyFollows s .grantAll i cs ↔ anySelects s i cs = .ok true := by
  cases cs with
  | nil => exact iff_of_false id (by simp [anySelects])
  | cons c cs =>
    have has : ∀ j, s.forest.LeadsTo c.leading i j → s.forest.Has j :=
      fun j leads => wf.has_of_leadsTo leads
    have first (j : NodeId) := Chain.follows_grantAll_iff wf unlisted has (j := j) c
    rw [anySelects_cons_iff wf, ← anyFollows_grantAll_iff wf unlisted cs]
    simp only [← first]
    exact Iff.rfl
termination_by structural cs

end

end

/-! ## Branches and selectors -/

/-- Under the verdict the branch admits the element in the scope. -/
def Branch.Fits (s : Scene) (scope : Scope) (v : Verdict) (b : Branch) (j : NodeId) : Prop :=
  match b.anchoring with
  | .contextual => j ∈ b.chain.candidates s scope ∧ b.chain.Precedes s v j
  | _ => b.chain.Follows s v (scope.Starts s.forest b) j

theorem Branch.Fits.mono {s : Scene} {scope : Scope} {v w : Verdict} {b : Branch} {j : NodeId}
    (grant : v.Below w (b.chain.deferred s.config true))
    (deny : w.Below v (b.chain.deferred s.config false)) (h : b.Fits s scope v j) :
    b.Fits s scope w j := by
  obtain ⟨c, anchoring⟩ := b
  cases anchoring with
  | contextual => exact ⟨h.1, Chain.Precedes.mono c grant deny h.2⟩
  | free => exact Chain.Follows.mono c grant deny h
  | anchored => exact Chain.Follows.mono c grant deny h

/-- A branch selects what fits once the browser grants all that is left to it. -/
theorem Branch.exists_select_fits {s : Scene} {roots : List NodeId} {scope : Scope}
    (wf : (Template.mk s.forest roots).WellFormed)
    (unlisted : ∀ p : NthPseudo, p.name ∉ s.config.runtimePseudoClasses)
    (inside : scope.Inside s.forest) (b : Branch) :
    ∃ l, b.select s scope = .ok l ∧ ∀ j, j ∈ l ↔ b.Fits s scope .grantAll j := by
  have starts : ∀ i, scope.Starts s.forest b i → s.forest.Has i := by
    rintro i ⟨g, hg, l, rfl, hi⟩
    obtain ⟨l', same, has⟩ := inside.of_starts wf hg
    cases same
    exact has i hi
  by_cases contextual : b.anchoring = .contextual
  · obtain ⟨c, anchoring⟩ := b
    cases contextual
    obtain ⟨l, hl, mem⟩ := exists_select_contextual wf inside.anchors c
    refine ⟨l, hl, fun j => (mem j).trans (and_congr_right fun hj => ?_)⟩
    have has := Chain.has_of_mem_candidates wf inside.anchors hj
    exact (Chain.precedes_grantAll_iff wf unlisted has c).symm
  · obtain ⟨l, hl, mem⟩ := exists_select wf inside contextual
    refine ⟨l, hl, fun j => (mem j).trans ?_⟩
    have fits : b.Fits s scope .grantAll j ↔
        b.chain.Follows s .grantAll (scope.Starts s.forest b) j := by
      obtain ⟨c, _ | _ | _⟩ := b
      · exact Iff.rfl
      · exact Iff.rfl
      · exact absurd rfl contextual
    exact (fits.trans (Chain.follows_grantAll_iff wf unlisted starts b.chain)).symm

namespace Selector

/-- The browser's pseudo-classes in a selector that stand under an even number of `:not()`, or under
an odd one. -/
def deferred (cfg : Config) (even : Bool) (selector : Selector) : List Deferred :=
  selector.branches.flatMap fun b => b.chain.deferred cfg even

/-- Under the verdict the selector admits the element in the scope. -/
def Fits (f : Forest) (cfg : Config) (scope : Scope) (v : Verdict) (selector : Selector)
    (j : NodeId) : Prop :=
  ∃ b ∈ selector.branches, b.Fits ⟨f, cfg, scope.anchors⟩ scope v j

variable {t : Template} {cfg : Config} {scope : Scope}

theorem Fits.mono {f : Forest} {v w : Verdict} {selector : Selector} {j : NodeId}
    (grant : v.Below w (selector.deferred cfg true))
    (deny : w.Below v (selector.deferred cfg false)) (h : selector.Fits f cfg scope v j) :
    selector.Fits f cfg scope w j := by
  obtain ⟨b, hb, fits⟩ := h
  refine ⟨b, hb, fits.mono (fun p hp => grant p ?_) (fun p hp => deny p ?_)⟩
  · exact List.mem_flatMap.2 ⟨b, hb, hp⟩
  · exact List.mem_flatMap.2 ⟨b, hb, hp⟩

/-- A selector selects what fits once the browser grants all that is left to it. -/
theorem exists_select_fits (wf : t.WellFormed)
    (unlisted : ∀ p : NthPseudo, p.name ∉ cfg.runtimePseudoClasses)
    (inside : scope.Inside t.forest) (selector : Selector) :
    ∃ l, selector.select t.forest cfg scope = .ok l ∧
      ∀ j, j ∈ l ↔ selector.Fits t.forest cfg scope .grantAll j := by
  obtain ⟨l, hl, mem⟩ := exists_select fun b _ =>
    Branch.exists_select_fits (s := ⟨t.forest, cfg, scope.anchors⟩) wf unlisted inside b
  exact ⟨l, hl, mem⟩

/-- A selector selects every element that fits under a verdict granting what stands under an odd
number of `:not()`, and only elements that fit if the verdict grants what stands under an even one.
In particular, without any such pseudo-class under an odd number of `:not()` nothing that could fit
in the browser is left out. -/
theorem select_covers_fits (wf : t.WellFormed)
    (unlisted : ∀ p : NthPseudo, p.name ∉ cfg.runtimePseudoClasses)
    (inside : scope.Inside t.forest) (selector : Selector) :
    ∃ l, selector.select t.forest cfg scope = .ok l ∧ ∀ (v : Verdict) j,
      ((∀ p ∈ selector.deferred cfg false, ∀ i, v i p = true) →
        selector.Fits t.forest cfg scope v j → j ∈ l) ∧
      ((∀ p ∈ selector.deferred cfg true, ∀ i, v i p = true) →
        j ∈ l → selector.Fits t.forest cfg scope v j) := by
  obtain ⟨l, hl, mem⟩ := exists_select_fits wf unlisted inside selector
  refine ⟨l, hl, fun v j => ⟨fun granted fits => (mem j).2 ?_, fun granted hj => ?_⟩⟩
  · refine fits.mono (fun p _ i _ => rfl) fun p hp i _ => ?_
    exact granted p hp i
  · refine ((mem j).1 hj).mono (fun p hp i _ => ?_) fun p _ i _ => rfl
    exact granted p hp i

/-- One link. -/
def link : Template :=
  .ofTrees [.node { Label.blank with tag := "a" } []]

/-- Links that the pointer is not over. -/
def notHovered : Selector :=
  ⟨[⟨.start .descendant [.type "a", .except [.start .descendant [.pseudo "hover" none]]], .free⟩],
    []⟩

theorem compile_notHovered : compile "a:not(:hover)" = .ok notHovered := by
  cbv

theorem unlisted_standard (p : NthPseudo) : p.name ∉ Config.standard.runtimePseudoClasses := by
  obtain ⟨_ | _, _ | _⟩ := p <;> decide

/-- With the pointer elsewhere the link fits `a:not(:hover)`, and it is not selected: `:hover` stands
under one `:not()`, and the verdict does not grant it. A verdict that does has to deny the link. -/
theorem select_covers_fits_notHovered :
    link.WellFormed ∧ (Scope.mk link.roots none).Inside link.forest ∧
      compile "a:not(:hover)" = .ok notHovered ∧
      notHovered.deferred .standard false = [.pseudo "hover" none] ∧
      ∃ l, notHovered.select link.forest .standard ⟨link.roots, none⟩ = .ok l ∧ 0 ∉ l ∧
        notHovered.Fits link.forest .standard ⟨link.roots, none⟩ (fun _ _ => false) 0 ∧
        ¬ notHovered.Fits link.forest .standard ⟨link.roots, none⟩ .grantAll 0 := by
  have wf : link.WellFormed := Template.wellFormed_ofTrees _
  have inside := Scope.inside_roots wf
  obtain ⟨l, hl, covers⟩ := select_covers_fits wf unlisted_standard inside notHovered
  have none : l = [] := by
    have selected : notHovered.select link.forest .standard ⟨link.roots, none⟩ = .ok [] := rfl
    exact Except.ok.inj (hl.symm.trans selected)
  refine ⟨wf, inside, compile_notHovered, by decide, l, hl, ?_, ?_, fun fits => ?_⟩
  · rw [none]
    exact List.not_mem_nil
  · refine ⟨_, List.mem_singleton_self _, ?_, ?_, fun hovered => ?_, trivial⟩
    · exact ⟨_, List.mem_singleton_self _, [0], rfl, List.mem_singleton_self 0⟩
    · show Except.ok ((link.forest.label 0).tag == "a") = .ok true
      rfl
    · rcases hovered with ⟨denied, -⟩ | none
      · exact Bool.false_ne_true denied
      · exact none
  · have chosen := (covers .grantAll 0).1 (fun _ _ _ => rfl) fits
    rw [none] at chosen
    exact List.not_mem_nil chosen

end Selector

end NestedStyles
