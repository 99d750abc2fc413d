import Mathlib.Tactic.Ring
import NestedStyles.Proofs.Match.Directions

/-!
# Counting siblings

`Forest.rank` is the place of a node among the siblings that count, told by how many of them stand in
front of it or behind it. A node has a pseudo-class `an+b` if and only if its rank is `a * n + b` for
a natural number `n`, and those without an argument say that the rank is one
(`Template.WellFormed.counts_siblings`).
-/

namespace NestedStyles

/-! ## Progressions -/

theorem inProgression_iff {a b x : Int} :
    inProgression a b x = true ↔ ∃ n : Nat, a * n + b = x := by
  by_cases constant : a = 0
  · simp only [inProgression, constant, BEq.rfl, if_true, beq_iff_eq, Int.zero_mul, Int.zero_add,
      exists_const]
    exact eq_comm
  simp only [inProgression, beq_iff_eq, constant, if_false, Bool.and_eq_true, decide_eq_true_eq]
  constructor
  · rintro ⟨divides, quotient⟩
    obtain ⟨n, hn⟩ := Int.eq_ofNat_of_zero_le quotient
    have whole : a * Int.fdiv (x - b) a + Int.fmod (x - b) a = x - b := Int.mul_fdiv_add_fmod _ _
    rw [divides, hn, Int.add_zero] at whole
    exact ⟨n, by rw [whole, Int.sub_add_cancel]⟩
  · rintro ⟨n, rfl⟩
    rw [Int.add_sub_cancel, Int.mul_fmod_right, Int.mul_fdiv_cancel_left _ constant]
    exact ⟨rfl, Int.natCast_nonneg n⟩

/-- The name of the pseudo-class without an argument of the nodes that come first in this order. -/
def NthPseudo.extreme : NthPseudo → String
  | ⟨false, false⟩ => "first-child"
  | ⟨false, true⟩ => "last-child"
  | ⟨true, false⟩ => "first-of-type"
  | ⟨true, true⟩ => "last-of-type"

/-- The name of the pseudo-class of the nodes that come first in both orders. -/
def NthPseudo.alone (ofType : Bool) : String :=
  if ofType then "only-of-type" else "only-child"

namespace Forest

variable {f : Forest} {i : NodeId} {front back : List NodeId}

/-! ## The rank of a node -/

/-- The nodes in front of a node among the children of its parent. A root has none. -/
def inFront (f : Forest) (i : NodeId) : List NodeId :=
  match f.parent i with
  | none => []
  | some p => (f.children p).takeWhile (· != i)

/-- The nodes behind a node among the children of its parent. A root has none. -/
def behind (f : Forest) (i : NodeId) : List NodeId :=
  match f.parent i with
  | none => []
  | some p => ((f.children p).dropWhile (· != i)).tail

/-- A node counts for another one that is no alternative of it and, if types are counted, has the
same tag. -/
def Counts (f : Forest) (i : NodeId) (ofType : Bool) (j : NodeId) : Bool :=
  !f.areAlternatives i j && (!ofType || (f.label j).tag == (f.label i).tag)

/-- One more than the nodes that count in front of a node, or behind it. -/
def rank (f : Forest) (i : NodeId) (p : NthPseudo) : Nat :=
  1 + (if p.fromEnd then f.behind i else f.inFront i).countP (f.Counts i p.ofType)

/-! ## The pool of a node -/

/-- The siblings that count for a node, itself included. -/
def pool (f : Forest) (i : NodeId) (ofType : Bool) : List NodeId :=
  (f.inFront i).filter (f.Counts i ofType) ++ i :: (f.behind i).filter (f.Counts i ofType)

theorem counts_all (f : Forest) (i : NodeId) :
    f.Counts i false = fun j => !f.areAlternatives i j := by
  funext j
  simp [Counts]

theorem filter_ofSameTag (f : Forest) (i : NodeId) (l : List NodeId) :
    f.ofSameTag i (l.filter fun j => !f.areAlternatives i j) = l.filter (f.Counts i true) := by
  rw [ofSameTag, List.filter_filter]
  refine List.filter_congr fun j _ => ?_
  simp [Counts, Bool.and_comm]

theorem ofSameTag_pool (f : Forest) (i : NodeId) :
    f.ofSameTag i (f.pool i false) = f.pool i true := by
  have joined (l l' : List NodeId) :
      f.ofSameTag i (l ++ i :: l') = f.ofSameTag i l ++ i :: f.ofSameTag i l' := by
    simp [ofSameTag]
  rw [pool, counts_all, joined, filter_ofSameTag, filter_ofSameTag, pool]

/-- A node in its place in a list. -/
theorem positionIn_append (fromEnd : Bool) (fresh : i ∉ front) :
    positionIn i fromEnd (front ++ i :: back) =
      if fromEnd then back.length + 1 else front.length + 1 := by
  have index : (front ++ i :: back).idxOf? i = some front.length := by
    rw [List.idxOf?, List.findIdx?_append, List.findIdx?_eq_none_iff.2]
    · simp [List.findIdx?_cons]
    · intro j hj
      exact beq_false_of_ne fun same => fresh (same ▸ hj)
  simp only [positionIn, index, List.length_append, List.length_cons]
  cases fromEnd <;> simp

theorem head?_append_eq_self (fresh : i ∉ front) :
    ((front ++ i :: back).head? == some i) = front.isEmpty := by
  cases front with
  | nil => simp
  | cons j front =>
    have other : j ≠ i := fun same => fresh (same ▸ List.mem_cons_self)
    simp [other]

theorem getLast?_append_eq_self (fresh : i ∉ back) :
    ((front ++ i :: back).getLast? == some i) = back.isEmpty := by
  have reversed : ((back.reverse ++ i :: front.reverse).head? == some i) = back.reverse.isEmpty :=
    head?_append_eq_self fun mem => fresh (List.mem_reverse.1 mem)
  rw [← List.isEmpty_reverse, ← reversed, ← List.head?_reverse]
  simp

/-- A node that is alone has nothing in front of it and nothing behind it. -/
theorem length_append_eq_one :
    ((front ++ i :: back).length == 1) = (front.isEmpty && back.isEmpty) := by
  cases front <;> cases back <;> simp

/-- The rank is one if no node counts on that side. -/
theorem inProgression_rank (f : Forest) (i : NodeId) (p : NthPseudo) :
    inProgression 0 1 (f.rank i p) =
      ((if p.fromEnd then f.behind i else f.inFront i).filter (f.Counts i p.ofType)).isEmpty := by
  rw [Bool.eq_iff_iff, inProgression_iff, List.isEmpty_iff_length_eq_zero,
    ← List.countP_eq_length_filter, rank]
  constructor
  · rintro ⟨n, one⟩
    omega
  · intro none
    exact ⟨0, by rw [none]; rfl⟩

theorem positionIn_pool (fresh : i ∉ f.inFront i) (p : NthPseudo) :
    positionIn i p.fromEnd (f.pool i p.ofType) = f.rank i p := by
  have fresh' : i ∉ (f.inFront i).filter (f.Counts i p.ofType) :=
    fun mem => fresh (List.mem_filter.1 mem).1
  rw [pool, positionIn_append p.fromEnd fresh', rank]
  cases p.fromEnd <;> simp [List.countP_eq_length_filter, Nat.add_comm]

end Forest

open Forest

namespace Template.WellFormed

variable {t : Template} {i : NodeId}

/-- The siblings of a node are those in front of it and those behind it, less its alternatives. -/
theorem siblingPosition_eq (wf : t.WellFormed) (i : NodeId) :
    t.forest.siblingPosition i =
        .ok (t.forest.pool i false, ((t.forest.inFront i).filter (t.forest.Counts i false)).length) ∧
      i ∉ t.forest.inFront i ∧ i ∉ t.forest.behind i := by
  rcases wf.place_cases i with ⟨root, -⟩ | ⟨p, before, after, parent, place, fresh⟩
  · rw [siblingPosition_of_root root]
    simp [pool, inFront, behind, root]
  · have front : t.forest.inFront i = before := by
      have others : ∀ j ∈ before, (j != i) = true :=
        fun j mem => bne_iff_ne.2 fun same => fresh (same ▸ mem)
      simp [inFront, parent, place, List.takeWhile_append_of_pos others]
    have back : t.forest.behind i = after := by
      have others : ∀ j ∈ before, (j != i) = true :=
        fun j mem => bne_iff_ne.2 fun same => fresh (same ▸ mem)
      simp [behind, parent, place, List.dropWhile_append_of_pos others]
    have fresh' : i ∉ after := by
      have nodup := wf.children_nodup p
      rw [place, List.nodup_middle, List.nodup_cons, List.mem_append, not_or] at nodup
      exact nodup.1.2
    rw [pool, front, back, counts_all, siblingPosition_of_split parent place fresh]
    exact ⟨rfl, fresh, fresh'⟩

/-- Whether a node has a pseudo-class `an+b` is told by its rank. -/
theorem isNth_eq (wf : t.WellFormed) (i : NodeId) (p : NthPseudo) (a b : Int) :
    t.forest.isNth i p (some (a, b)) = .ok (inProgression a b (t.forest.rank i p)) := by
  obtain ⟨position, fresh, -⟩ := wf.siblingPosition_eq i
  have counted : (if p.ofType then t.forest.ofSameTag i (t.forest.pool i false)
      else t.forest.pool i false) = t.forest.pool i p.ofType := by
    cases p.ofType
    · rfl
    · exact ofSameTag_pool t.forest i
  rw [isNth, position, ← positionIn_pool fresh p, ← counted]
  rfl

/-- To be the first or the last of those that count is to have the rank one. -/
theorem matchesStructural_extreme (wf : t.WellFormed) (i : NodeId) (p : NthPseudo) :
    t.forest.matchesStructural i p.extreme = .ok (inProgression 0 1 (t.forest.rank i p)) := by
  obtain ⟨position, fresh, fresh'⟩ := wf.siblingPosition_eq i
  have out {l : List NodeId} (h : i ∉ l) : i ∉ l.filter (t.forest.Counts i true) :=
    fun mem => h (List.mem_filter.1 mem).1
  rw [inProgression_rank]
  obtain ⟨_ | _, _ | _⟩ := p
  · change t.forest.isStructural i .firstChild = _
    rw [isStructural, position]
    have first (front : List NodeId) : (front.length == 0) = front.isEmpty := by
      cases front <;> simp
    exact congrArg _ (first _)
  · change t.forest.isStructural i .lastChild = _
    rw [isStructural, position]
    have last (front back : List NodeId) :
        (front.length + 1 == (front ++ i :: back).length) = back.isEmpty := by
      cases back <;> simp
    exact congrArg _ (last _ _)
  · change t.forest.isStructural i .firstOfType = _
    rw [isStructural, position]
    simp only [Except.map, ofSameTag_pool]
    exact congrArg _ (head?_append_eq_self (out fresh))
  · change t.forest.isStructural i .lastOfType = _
    rw [isStructural, position]
    simp only [Except.map, ofSameTag_pool]
    exact congrArg _ (getLast?_append_eq_self (out fresh'))

/-- To be the only one of those that count is to be the first and the last of them. -/
theorem matchesStructural_alone (wf : t.WellFormed) (i : NodeId) (ofType : Bool) :
    t.forest.matchesStructural i (NthPseudo.alone ofType) =
      .ok (inProgression 0 1 (t.forest.rank i ⟨ofType, false⟩) &&
        inProgression 0 1 (t.forest.rank i ⟨ofType, true⟩)) := by
  obtain ⟨position, -, -⟩ := wf.siblingPosition_eq i
  have counted : t.forest.matchesStructural i (NthPseudo.alone ofType) =
      .ok ((t.forest.pool i ofType).length == 1) := by
    cases ofType with
    | false =>
      change t.forest.isStructural i .onlyChild = _
      rw [isStructural, position]
      rfl
    | true =>
      change t.forest.isStructural i .onlyOfType = _
      rw [isStructural, position]
      simp only [Except.map, ofSameTag_pool]
  rw [counted, pool, length_append_eq_one, inProgression_rank, inProgression_rank]
  rfl

/-- A node has a pseudo-class `an+b` if and only if `a * n + b` is one more than the number of those
that count in front of it, or behind it, for a natural number `n`. It is the first or the last of its
siblings if it has the one with 0 and 1, and the only one if it is both. -/
theorem counts_siblings (wf : t.WellFormed) (i : NodeId) :
    (∀ (p : NthPseudo) (a b : Int), ∃ has, t.forest.isNth i p (some (a, b)) = .ok has ∧
      (has = true ↔ ∃ n : Nat, a * n + b =
        1 + (if p.fromEnd then t.forest.behind i else t.forest.inFront i).countP
          (t.forest.Counts i p.ofType))) ∧
    (∀ p : NthPseudo,
      t.forest.matchesStructural i p.extreme = t.forest.isNth i p (some (0, 1))) ∧
    ∀ ofType : Bool, ∃ first last,
      t.forest.matchesStructural i (NthPseudo.extreme ⟨ofType, false⟩) = .ok first ∧
      t.forest.matchesStructural i (NthPseudo.extreme ⟨ofType, true⟩) = .ok last ∧
      t.forest.matchesStructural i (NthPseudo.alone ofType) = .ok (first && last) := by
  refine ⟨fun p a b => ⟨_, wf.isNth_eq i p a b, ?_⟩, fun p => ?_, fun ofType => ?_⟩
  · rw [inProgression_iff, rank]
    push_cast
    rfl
  · rw [wf.matchesStructural_extreme i p, wf.isNth_eq i p 0 1]
  · exact ⟨_, _, wf.matchesStructural_extreme i _, wf.matchesStructural_extreme i _,
      wf.matchesStructural_alone i ofType⟩

/-- The second of two headings of which one is shown: it is the first child, and the last but one. -/
theorem counts_siblings_eitherHeading :
    Template.eitherHeading.WellFormed ∧
    Template.eitherHeading.forest.isNth 2 ⟨false, true⟩ (some (-3, 5)) = .ok true ∧
    (∃ n : Nat, (-3 : Int) * n + 5 =
      1 + (Template.eitherHeading.forest.behind 2).countP
        (Template.eitherHeading.forest.Counts 2 false)) ∧
    Template.eitherHeading.forest.matchesStructural 2 "first-child" =
      Template.eitherHeading.forest.isNth 2 ⟨false, false⟩ (some (0, 1)) ∧
    Template.eitherHeading.forest.matchesStructural 2 "only-of-type" = .ok true := by
  have wf : Template.eitherHeading.WellFormed := Template.wellFormed_ofTrees _
  obtain ⟨nth, extreme, alone⟩ := counts_siblings wf 2
  obtain ⟨has, found, counted⟩ := nth ⟨false, true⟩ (-3) 5
  have shown : Template.eitherHeading.forest.isNth 2 ⟨false, true⟩ (some (-3, 5)) = .ok true := by
    decide
  obtain ⟨first, last, isFirst, isLast, only⟩ := alone true
  have both : first = true ∧ last = true := by
    have ofFirst :
        Template.eitherHeading.forest.matchesStructural 2 "first-of-type" = .ok true := by
      decide
    have ofLast : Template.eitherHeading.forest.matchesStructural 2 "last-of-type" = .ok true := by
      decide
    exact ⟨Except.ok.inj (isFirst.symm.trans ofFirst), Except.ok.inj (isLast.symm.trans ofLast)⟩
  refine ⟨wf, shown, counted.1 (Except.ok.inj (found.symm.trans shown)),
    extreme ⟨false, false⟩, only.trans ?_⟩
  rw [both.1, both.2]
  rfl

end Template.WellFormed

end NestedStyles
