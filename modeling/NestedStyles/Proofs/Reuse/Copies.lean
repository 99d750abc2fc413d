import Mathlib.Data.List.Basic
import NestedStyles.Proofs.Reuse.Clearing

/-!
# Blocks that differ in what was copied

Two blocks are the same but for copies of a block `x` in the one and of a block `y` in the other
(`SameBut`). Then they are equal if `x` and `y` are, and where at least one copy was made only if
they are (`SameBut.eq_iff`).

While its uses give way to copies, a block still has all the rules it had at first, in front and in
the same order (`GrownBut`). So a place of the block at first is a place in both, and what is done
there in both keeps them the same but for copies (`GrownBut.settle`).
-/

namespace NestedStyles

/-! ## Other uses -/

mutual

/-- The rule with other uses, at any depth. -/
def StyleRule.mapUses (f : UseDirective → UseDirective) : StyleRule → StyleRule
  | ⟨selector, classes, declarations, uses, children⟩ =>
    ⟨selector, classes, declarations, uses.map f, mapUsesAll f children⟩

/-- The rules with other uses, at any depth. -/
def StyleRule.mapUsesAll (f : UseDirective → UseDirective) : List StyleRule → List StyleRule
  | [] => []
  | r :: rs => r.mapUses f :: mapUsesAll f rs

end

/-- The block with other uses, at any depth. -/
def Body.mapUses (f : UseDirective → UseDirective) (b : Body) : Body :=
  ⟨b.classes, b.declarations, b.uses.map f, StyleRule.mapUsesAll f b.children⟩

/-- The export with other uses, at any depth. -/
def ExportBlock.mapUses (f : UseDirective → UseDirective) (e : ExportBlock) : ExportBlock :=
  ⟨e.toBody.mapUses f, e.name⟩

/-- The file with other uses in its rules and exports, at any depth. -/
def Stylesheet.mapUses (f : UseDirective → UseDirective) (sheet : Stylesheet) : Stylesheet :=
  ⟨sheet.rules.map (·.mapUses f), sheet.exports.map (·.mapUses f), sheet.imports⟩

section

variable (f : UseDirective → UseDirective)

@[simp] theorem StyleRule.selector_mapUses (r : StyleRule) :
    (r.mapUses f).selector = r.selector := by
  cases r
  rfl

@[simp] theorem StyleRule.body_mapUses (r : StyleRule) : (r.mapUses f).body = r.body.mapUses f := by
  cases r
  rfl

@[simp] theorem StyleRule.mapUsesAll_eq_map (rs : List StyleRule) :
    mapUsesAll f rs = rs.map (·.mapUses f) := by
  induction rs with
  | nil => rfl
  | cons r rs ih => rw [mapUsesAll, List.map_cons, ih]

mutual

theorem StyleRule.allUses_mapUses (r : StyleRule) :
    (r.mapUses f).body.allUses = r.body.allUses.map f := by
  obtain ⟨selector, classes, declarations, uses, children⟩ := r
  show uses.map f ++ usesIn (mapUsesAll f children) = (uses ++ usesIn children).map f
  rw [usesIn_mapUsesAll, List.map_append]
termination_by structural r

theorem StyleRule.usesIn_mapUsesAll (rs : List StyleRule) :
    usesIn (mapUsesAll f rs) = (usesIn rs).map f := by
  cases rs with
  | nil => rfl
  | cons r rs =>
    rw [mapUsesAll, usesIn_cons, usesIn_cons, List.map_append, allUses_mapUses, usesIn_mapUsesAll]
termination_by structural rs

end

theorem Body.allUses_mapUses (b : Body) : (b.mapUses f).allUses = b.allUses.map f := by
  rw [allUses, allUses, List.map_append, mapUses, StyleRule.usesIn_mapUsesAll]

theorem Stylesheet.allUses_mapUses (sheet : Stylesheet) :
    (sheet.mapUses f).allUses = sheet.allUses.map f := by
  have exports : (sheet.exports.map (·.mapUses f)).flatMap (fun e => e.toBody.allUses) =
      (sheet.exports.flatMap fun e => e.toBody.allUses).map f := by
    rw [List.flatMap_map, List.map_flatMap]
    exact List.flatMap_congr fun e _ => e.toBody.allUses_mapUses f
  have rules : StyleRule.usesIn (sheet.rules.map (·.mapUses f)) =
      (StyleRule.usesIn sheet.rules).map f := by
    rw [← StyleRule.mapUsesAll_eq_map, StyleRule.usesIn_mapUsesAll]
  rw [allUses, allUses, List.map_append, mapUses, exports, rules]

mutual

theorem StyleRule.placesFrom_mapUses (here : List Nat) (r : StyleRule) :
    (r.mapUses f).placesFrom here = r.placesFrom here := by
  obtain ⟨selector, classes, declarations, uses, children⟩ := r
  rw [mapUses, placesFrom, placesFrom, placesFromAll_mapUsesAll]
termination_by structural r

theorem StyleRule.placesFromAll_mapUsesAll (above : List Nat) (k : Nat) (rs : List StyleRule) :
    placesFromAll above k (mapUsesAll f rs) = placesFromAll above k rs := by
  cases rs with
  | nil => rfl
  | cons r rs =>
    rw [mapUsesAll, placesFromAll, placesFromAll, placesFrom_mapUses, placesFromAll_mapUsesAll]
termination_by structural rs

end

/-- The rules stand where they stood. -/
theorem Body.places_mapUses (b : Body) : (b.mapUses f).places = b.places :=
  congrArg ([] :: ·) (StyleRule.placesFromAll_mapUsesAll f [] 0 b.children)

end

/-! ## Lists that differ in what was copied -/

/-- The lists are related entry by entry, but for so many copies of `x` in the first one where there
are copies of `y` in the second one. -/
inductive Copies {α : Type} (R : α → α → Prop) (x y : List α) : Nat → List α → List α → Prop
  | nil : Copies R x y 0 [] []
  | cons {k : Nat} {a b : α} {as bs : List α} (first : R a b) (rest : Copies R x y k as bs) :
    Copies R x y k (a :: as) (b :: bs)
  | copy {k : Nat} {as bs : List α} (rest : Copies R x y k as bs) :
    Copies R x y (k + 1) (x ++ as) (y ++ bs)

namespace Copies

variable {α : Type} {R : α → α → Prop} {x y as bs cs ds : List α} {k m : Nat}

theorem append (h : Copies R x y k as bs) (h' : Copies R x y m cs ds) :
    Copies R x y (k + m) (as ++ cs) (bs ++ ds) := by
  induction h with
  | nil =>
    rw [Nat.zero_add]
    exact h'
  | cons first _ ih => exact .cons first ih
  | copy _ ih =>
    rw [Nat.add_right_comm, List.append_assoc, List.append_assoc]
    exact .copy ih

theorem refl (reflexive : ∀ a, R a a) (as : List α) : Copies R x y 0 as as := by
  induction as with
  | nil => exact .nil
  | cons a as ih => exact .cons (reflexive a) ih

theorem symm (h : Copies R x y k as bs) : Copies (fun a b => R b a) y x k bs as := by
  induction h with
  | nil => exact .nil
  | cons first _ ih => exact .cons first ih
  | copy _ ih => exact .copy ih

theorem length_eq (h : Copies R x y k as bs) :
    ∃ alike, as.length = alike + k * x.length ∧ bs.length = alike + k * y.length := by
  induction h with
  | nil => exact ⟨0, by simp, by simp⟩
  | cons _ _ ih =>
    obtain ⟨alike, left, right⟩ := ih
    refine ⟨alike + 1, ?_, ?_⟩
    · rw [List.length_cons, left, Nat.add_right_comm]
    · rw [List.length_cons, right, Nat.add_right_comm]
  | copy _ ih =>
    obtain ⟨alike, left, right⟩ := ih
    refine ⟨alike, ?_, ?_⟩
    · rw [List.length_append, left, Nat.add_mul, Nat.one_mul]
      omega
    · rw [List.length_append, right, Nat.add_mul, Nat.one_mul]
      omega

/-- Where there is a copy, equal lists hold equal copies. -/
theorem eq_of_eq (h : Copies R x y k as bs) (same : as = bs) (some : 0 < k) : x = y := by
  have long : x.length = y.length := by
    obtain ⟨alike, left, right⟩ := h.length_eq
    rw [same, right] at left
    exact Nat.eq_of_mul_eq_mul_left some (Nat.add_left_cancel left).symm
  induction h with
  | nil => exact absurd some (Nat.lt_irrefl 0)
  | cons _ _ ih => exact ih (List.cons.inj same).2 some
  | copy => exact (List.append_inj same long).1

/-- Where there is a copy, it stands somewhere in the first list. -/
theorem infix_left (h : Copies R x y k as bs) (some : 0 < k) : x <:+: as := by
  induction h with
  | nil => exact absurd some (Nat.lt_irrefl 0)
  | cons _ _ ih => exact (ih some).trans (List.suffix_cons _ _).isInfix
  | copy => exact (List.prefix_append _ _).isInfix

theorem infix_right (h : Copies R x y k as bs) (some : 0 < k) : y <:+: bs :=
  h.symm.infix_left some

/-- Lists with the same copies whose other entries are equal are equal. -/
theorem eq_of_same (h : Copies Eq x x k as bs) : as = bs := by
  induction h with
  | nil => rfl
  | cons first _ ih => rw [first, ih]
  | copy _ ih => rw [ih]

end Copies

/-! ## Blocks that differ in what was copied -/

/-- Content without uses whose parts stand somewhere in the parts of a block stands in it. -/
theorem Body.exists_append_of_infix {t b : Body} (free : t.uses = []) (none : b.uses = [])
    (classes : t.classes <:+: b.classes) (declarations : t.declarations <:+: b.declarations)
    (children : t.children <:+: b.children) : ∃ before after : Body, b = before ++ t ++ after := by
  obtain ⟨c, c', classes⟩ := classes
  obtain ⟨d, d', declarations⟩ := declarations
  obtain ⟨r, r', children⟩ := children
  refine ⟨⟨c, d, [], r⟩, ⟨c', d', [], r'⟩, ?_⟩
  show Body.mk _ _ _ _ = Body.mk _ _ _ _
  simp only [classes_append, declarations_append, uses_append, children_append, classes,
    declarations, children, free, none, List.append_nil]

/-- Two ways to ask for a block. -/
structure TwoWays where
  /-- The uses that ask for it. -/
  asks : UseDirective → Bool
  /-- How a use reads the other way. -/
  turn : UseDirective → UseDirective
  /-- What is copied for such a use the one way. -/
  one : Body
  /-- What is copied for it the other way. -/
  other : Body

namespace TwoWays

/-- The same own content but for so many copies, and no uses. -/
structure SameLevel (W : TwoWays) (k : Nat) (b b' : Body) : Prop where
  classes : Copies Eq W.one.classes W.other.classes k b.classes b'.classes
  declarations :
    Copies Eq W.one.declarations W.other.declarations k b.declarations b'.declarations
  uses : b.uses = []
  uses' : b'.uses = []

/-- The same rules but for so many copies. -/
inductive SameRules (W : TwoWays) : Nat → List StyleRule → List StyleRule → Prop
  | nil : SameRules W 0 [] []
  | cons {k m : Nat} {r r' : StyleRule} {rs rs' : List StyleRule}
      (selector : r'.selector = r.selector) (level : W.SameLevel m r.body r'.body)
      (children : SameRules W m r.children r'.children) (rest : SameRules W k rs rs') :
    SameRules W k (r :: rs) (r' :: rs')
  | copy {k : Nat} {rs rs' : List StyleRule} (rest : SameRules W k rs rs') :
    SameRules W (k + 1) (W.one.children ++ rs) (W.other.children ++ rs')

/-- The same block but for so many copies, not counting those in the rules nested in it. -/
structure SameBut (W : TwoWays) (k : Nat) (b b' : Body) : Prop extends W.SameLevel k b b' where
  children : W.SameRules k b.children b'.children

variable {W : TwoWays} {k m : Nat} {b b' c c' more more' : Body}
variable {rs rs' ts ts' : List StyleRule}

theorem SameLevel.append (h : W.SameLevel k b b') (h' : W.SameLevel m c c') :
    W.SameLevel (k + m) (b ++ c) (b' ++ c') where
  classes := h.classes.append h'.classes
  declarations := h.declarations.append h'.declarations
  uses := by rw [Body.uses_append, h.uses, h'.uses, List.append_nil]
  uses' := by rw [Body.uses_append, h.uses', h'.uses', List.append_nil]

namespace SameRules

theorem append (h : W.SameRules k rs rs') (h' : W.SameRules m ts ts') :
    W.SameRules (k + m) (rs ++ ts) (rs' ++ ts') := by
  induction h with
  | nil =>
    rw [Nat.zero_add]
    exact h'
  | cons selector level children _ _ ih => exact .cons selector level children ih
  | copy _ ih =>
    rw [Nat.add_right_comm, List.append_assoc, List.append_assoc]
    exact .copy ih

/-- As lists, whatever the rules are. -/
theorem copies (h : W.SameRules k rs rs') :
    Copies (fun _ _ => True) W.one.children W.other.children k rs rs' := by
  induction h with
  | nil => exact .nil
  | cons _ _ _ _ _ ih => exact .cons trivial ih
  | copy _ ih => exact .copy ih

/-- Where both ways copy the same, the rules are the same. -/
theorem eq_of_same (h : W.SameRules k rs rs') (same : W.one = W.other) : rs = rs' := by
  induction h with
  | nil => rfl
  | @cons _ _ r r' _ _ selector level _ _ below ih =>
    obtain ⟨classes, declarations, uses, uses'⟩ := level
    rw [same] at classes declarations
    have here : r.body = r'.body := by
      show Body.mk _ _ _ _ = Body.mk _ _ _ _
      rw [show r.classes = r'.classes from classes.eq_of_same,
        show r.declarations = r'.declarations from declarations.eq_of_same,
        show r.uses = [] from uses, show r'.uses = [] from uses', below]
    rw [← StyleRule.toRule_body r, ← StyleRule.toRule_body r', here, selector, ih]
  | copy _ ih => rw [same, ih]

end SameRules

mutual

/-- A rule without uses is the same as itself. -/
theorem sameRule_self (W : TwoWays) (r : StyleRule) (free : r.body.allUses = []) :
    W.SameLevel 0 r.body r.body ∧ W.SameRules 0 r.children r.children := by
  obtain ⟨selector, classes, declarations, uses, children⟩ := r
  obtain ⟨here, below⟩ := List.append_eq_nil_iff.1 free
  exact ⟨⟨.refl Eq.refl _, .refl Eq.refl _, here, here⟩, sameRules_self W children below⟩
termination_by structural r

theorem sameRules_self (W : TwoWays) (rs : List StyleRule) (free : StyleRule.usesIn rs = []) :
    W.SameRules 0 rs rs := by
  cases rs with
  | nil => exact .nil
  | cons r rs =>
    rw [StyleRule.usesIn_cons] at free
    obtain ⟨first, rest⟩ := List.append_eq_nil_iff.1 free
    obtain ⟨level, children⟩ := sameRule_self W r first
    exact .cons rfl level children (sameRules_self W rs rest)
termination_by structural rs

end

namespace SameBut

theorem append (h : W.SameBut k b b') (h' : W.SameBut m c c') :
    W.SameBut (k + m) (b ++ c) (b' ++ c') :=
  ⟨h.toSameLevel.append h'.toSameLevel, h.children.append h'.children⟩

/-- A block without uses is the same as itself. -/
theorem self (W : TwoWays) (free : b.allUses = []) : W.SameBut 0 b b :=
  have h := sameRule_self W (b.toRule "") free
  ⟨h.1, h.2⟩

theorem empty (W : TwoWays) : W.SameBut 0 .empty .empty :=
  self W rfl

/-- What is copied is one copy. -/
theorem copied (one : W.one.uses = []) (other : W.other.uses = []) :
    W.SameBut 1 W.one W.other := by
  refine ⟨⟨?_, ?_, one, other⟩, ?_⟩
  · have h := Copies.copy (R := Eq) (x := W.one.classes) (y := W.other.classes) .nil
    rwa [List.append_nil, List.append_nil] at h
  · have h := Copies.copy (R := Eq) (x := W.one.declarations) (y := W.other.declarations) .nil
    rwa [List.append_nil, List.append_nil] at h
  · have h := SameRules.copy (W := W) .nil
    rwa [List.append_nil, List.append_nil] at h

/-- Where both ways copy the same, the blocks are the same. -/
theorem eq_of_same (h : W.SameBut k b b') (same : W.one = W.other) : b = b' := by
  obtain ⟨⟨classes, declarations, uses, uses'⟩, children⟩ := h
  have rules := children.eq_of_same same
  rw [same] at classes declarations
  show Body.mk _ _ _ _ = Body.mk _ _ _ _
  rw [classes.eq_of_same, declarations.eq_of_same, uses, uses', rules]

/-- Where at least one copy was made, the blocks are equal just if both ways copy the same. -/
theorem eq_iff (h : W.SameBut k b b') (some : 0 < k) (one : W.one.uses = [])
    (other : W.other.uses = []) : b = b' ↔ W.one = W.other := by
  constructor
  · rintro rfl
    have classes := h.classes.eq_of_eq rfl some
    have declarations := h.declarations.eq_of_eq rfl some
    have children := h.children.copies.eq_of_eq rfl some
    show Body.mk _ _ _ _ = Body.mk _ _ _ _
    rw [classes, declarations, one, other, children]
  · exact h.eq_of_same

/-- Where at least one copy was made, it stands in the block. -/
theorem exists_append (h : W.SameBut k b b') (some : 0 < k) (one : W.one.uses = []) :
    ∃ before after, b = before ++ W.one ++ after :=
  Body.exists_append_of_infix one h.uses (h.classes.infix_left some)
    (h.declarations.infix_left some) (h.children.copies.infix_left some)

theorem exists_append' (h : W.SameBut k b b') (some : 0 < k) (other : W.other.uses = []) :
    ∃ before after, b' = before ++ W.other ++ after :=
  Body.exists_append_of_infix other h.uses' (h.classes.infix_right some)
    (h.declarations.infix_right some) (h.children.copies.infix_right some)

end SameBut

/-! ## Blocks in which uses give way to copies -/

/-- The own content of two blocks that were the block `b₀` at first, read the two ways: the same but
for so many copies, at least one for each use that asked for them once there are no uses any
more. -/
structure GrownLevel (W : TwoWays) (k : Nat) (b₀ b b' : Body) : Prop where
  classes : Copies Eq W.one.classes W.other.classes k b.classes b'.classes
  declarations :
    Copies Eq W.one.declarations W.other.declarations k b.declarations b'.declarations
  uses : b'.uses = b.uses.map W.turn
  left : b.uses = b₀.uses ∨ b.uses = [] ∧ b₀.uses.countP W.asks ≤ k

/-- Rules that were `rs₀` at first, and behind them the same rules but for so many copies. -/
inductive GrownRules (W : TwoWays) :
    Nat → List StyleRule → List StyleRule → List StyleRule → Prop
  | rest {k : Nat} {rs rs' : List StyleRule} (added : W.SameRules k rs rs') :
    GrownRules W k [] rs rs'
  | cons {k m : Nat} {r₀ r r' : StyleRule} {rs₀ rs rs' : List StyleRule}
      (selector : r'.selector = r.selector) (level : W.GrownLevel m r₀.body r.body r'.body)
      (children : GrownRules W m r₀.children r.children r'.children)
      (rest : GrownRules W k rs₀ rs rs') :
    GrownRules W k (r₀ :: rs₀) (r :: rs) (r' :: rs')

/-- Two blocks that were the block `b₀` at first, read the two ways: the same but for copies, so
many of them not in the rules nested in it. -/
structure GrownBut (W : TwoWays) (k : Nat) (b₀ b b' : Body) : Prop
    extends W.GrownLevel k b₀ b b' where
  children : W.GrownRules k b₀.children b.children b'.children

variable {b₀ : Body} {rs₀ : List StyleRule}

namespace GrownRules

theorem append (h : W.GrownRules k rs₀ rs rs') (added : W.SameRules m ts ts') :
    W.GrownRules (k + m) rs₀ (rs ++ ts) (rs' ++ ts') := by
  induction h with
  | rest before => exact .rest (before.append added)
  | cons selector level children _ _ ih => exact .cons selector level children ih

/-- Once there are no uses, the rules are the same but for copies. -/
theorem sameRules (h : W.GrownRules k rs₀ rs rs') (free : StyleRule.usesIn rs = []) :
    W.SameRules k rs rs' := by
  induction h with
  | rest added => exact added
  | @cons _ _ r₀ r r' _ _ _ selector level _ _ below ih =>
    rw [StyleRule.usesIn_cons] at free
    obtain ⟨first, others⟩ := List.append_eq_nil_iff.1 free
    obtain ⟨here, inner⟩ := List.append_eq_nil_iff.1 first
    have here' : r'.body.uses = [] := by rw [level.uses, here, List.map_nil]
    exact .cons selector ⟨level.classes, level.declarations, here, here'⟩ (below inner) (ih others)

/-- A rule that was there at first is there, and a change of it in both keeps the rules the same but
for copies if it keeps this rule so. -/
theorem at_index (h : W.GrownRules k rs₀ rs rs') {i : Nat} {r₀ : StyleRule}
    (there : rs₀[i]? = some r₀) : ∃ (m : Nat) (r r' : StyleRule), rs[i]? = some r ∧
      rs'[i]? = some r' ∧ W.GrownBut m r₀.body r.body r'.body ∧
      ∀ (n : Nat) (change change' : Body → Body),
        W.GrownBut n r₀.body (change r.body) (change' r'.body) →
        W.GrownRules k rs₀ (rs.modify i (StyleRule.modifyBody change))
          (rs'.modify i (StyleRule.modifyBody change')) := by
  induction h generalizing i with
  | rest => cases there
  | @cons k m s₀ r r' rs₀ rs rs' selector level children rest _ ih =>
    cases i with
    | zero =>
      cases there
      refine ⟨m, r, r', rfl, rfl, ⟨level, children⟩, fun n change change' grown => ?_⟩
      exact .cons selector grown.toGrownLevel grown.children rest
    | succ i =>
      obtain ⟨m', s, s', found, found', grown, changes⟩ := ih there
      exact ⟨m', s, s', found, found', grown, fun n change change' further =>
        .cons selector level children (changes n change change' further)⟩

end GrownRules

mutual

theorem grownRule_start (W : TwoWays) (r : StyleRule) :
    W.GrownLevel 0 r.body r.body (r.mapUses W.turn).body ∧
      W.GrownRules 0 r.children r.children (r.mapUses W.turn).children := by
  obtain ⟨selector, classes, declarations, uses, children⟩ := r
  exact ⟨⟨.refl Eq.refl _, .refl Eq.refl _, rfl, .inl rfl⟩, grownRules_start W children⟩
termination_by structural r

theorem grownRules_start (W : TwoWays) (rs : List StyleRule) :
    W.GrownRules 0 rs rs (StyleRule.mapUsesAll W.turn rs) := by
  cases rs with
  | nil => exact .rest .nil
  | cons r rs =>
    obtain ⟨level, children⟩ := grownRule_start W r
    exact .cons (r.selector_mapUses W.turn) level children (grownRules_start W rs)
termination_by structural rs

end

namespace GrownBut

/-- A block as it is at first. -/
theorem start (W : TwoWays) (b : Body) : W.GrownBut 0 b b (b.mapUses W.turn) :=
  have h := grownRule_start W (b.toRule "")
  ⟨h.1, h.2⟩

/-- Once there are no uses, the blocks are the same but for copies. -/
theorem sameBut (h : W.GrownBut k b₀ b b') (free : b.allUses = []) : W.SameBut k b b' := by
  obtain ⟨here, below⟩ := List.append_eq_nil_iff.1 free
  have here' : b'.uses = [] := by rw [h.uses, here, List.map_nil]
  exact ⟨⟨h.classes, h.declarations, here, here'⟩, h.children.sameRules below⟩

/-- At a place that was there at first, where a change in both keeps the blocks the same but for
copies if it keeps so what stands there. -/
theorem at_place (h : W.GrownBut k b₀ b b') {path : List Nat} (there : path ∈ b₀.places) :
    ∃ m, W.GrownBut m (b₀.inside path) (b.inside path) (b'.inside path) ∧
      ∀ (n : Nat) (change change' : Body → Body),
        W.GrownBut n (b₀.inside path) (change (b.inside path)) (change' (b'.inside path)) →
        ∃ n', W.GrownBut n' b₀ (b.modifyAt change path) (b'.modifyAt change' path) := by
  induction path generalizing k b₀ b b' with
  | nil => exact ⟨k, h, fun n change change' further => ⟨n, further⟩⟩
  | cons i path ih =>
    obtain ⟨r₀, found₀, inner⟩ := Body.exists_of_mem_places there
    obtain ⟨m, r, r', found, found', grown, changes⟩ := h.children.at_index found₀
    obtain ⟨n, level, further⟩ := ih grown inner
    refine ⟨n, ?_, fun n change change' kept => ?_⟩
    · rw [Body.inside, Body.inside, Body.inside, found₀, found, found']
      exact level
    · rw [Body.inside, Body.inside, Body.inside, found₀, found, found'] at kept
      obtain ⟨n', below⟩ := further n change change' kept
      have rules := changes n' (Body.modifyAt change path) (Body.modifyAt change' path) below
      exact ⟨k, ⟨h.classes, h.declarations, h.uses, h.left⟩, rules⟩

/-- The uses of a block give way to what they add. -/
theorem level_settle (h : W.GrownBut k b₀ b b') (added : W.SameBut m more more')
    (enough : b.uses.countP W.asks ≤ m) :
    W.GrownBut (k + m) b₀ { b ++ more with uses := [] } { b' ++ more' with uses := [] } where
  classes := h.classes.append added.classes
  declarations := h.declarations.append added.declarations
  uses := rfl
  left := by
    right
    refine ⟨rfl, ?_⟩
    rcases h.left with same | ⟨-, before⟩
    · rw [same] at enough
      omega
    · omega
  children := h.children.append added.children

/-- At a place the uses give way to what they add. -/
theorem settle (h : W.GrownBut k b₀ b b') {path : List Nat} (there : path ∈ b₀.places)
    (added : W.SameBut m more more') (enough : (b.inside path).uses.countP W.asks ≤ m) :
    ∃ n, W.GrownBut n b₀ (b.modifyAt (fun c => { c ++ more with uses := [] }) path)
      (b'.modifyAt (fun c => { c ++ more' with uses := [] }) path) := by
  obtain ⟨j, level, changes⟩ := h.at_place there
  exact changes _ _ _ (level.level_settle added enough)

/-- Where there are no uses any more, there are copies for those that asked for them. -/
theorem exists_copies (h : W.GrownBut k b₀ b b') {path : List Nat} (there : path ∈ b₀.places)
    (free : b.allUses = []) {u : UseDirective} (used : u ∈ (b₀.inside path).uses)
    (asks : W.asks u) : ∃ m, 0 < m ∧ W.SameBut m (b.inside path) (b'.inside path) := by
  obtain ⟨m, level, -⟩ := h.at_place there
  have inner : (b.inside path).allUses = [] := by
    refine Body.allUses_eq_nil fun more => ?_
    rw [← Body.inside_append]
    exact Body.uses_inside_of_free free _
  refine ⟨m, ?_, level.sameBut inner⟩
  have asked : 0 < (b₀.inside path).uses.countP W.asks := List.countP_pos_iff.2 ⟨u, used, asks⟩
  rcases level.left with same | ⟨-, enough⟩
  · rw [← same, Body.uses_inside_of_free free path] at asked
    exact absurd asked (Nat.lt_irrefl 0)
  · exact Nat.lt_of_lt_of_le asked enough

end GrownBut

end TwoWays

end NestedStyles
