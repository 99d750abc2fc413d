import NestedStyles.Match.Engine
import NestedStyles.Proofs.Match.Siblings

/-!
# Matching in a well-formed template never fails

Only a node that its parent does not list can make a match fail. `Compound.settled`, `Chain.settled`
and their companions say that every evaluation at a node of a well-formed template has a result. The
lemmas in front of them turn monadic loops over settled tests into those over plain lists.
-/

namespace NestedStyles

open Relation Forest

namespace Linked

variable {α : Type}

/-- There is a result. -/
def Settled (r : Linked α) : Prop :=
  ∃ a, r = .ok a

@[simp] theorem settled_ok (a : α) : Settled (.ok a) :=
  ⟨a, rfl⟩

theorem settled_map {β : Type} {r : Linked α} (h : r.Settled) (g : α → β) :
    Settled (r.map g) := by
  obtain ⟨a, rfl⟩ := h
  exact ⟨g a, rfl⟩

/-- What a settled test says. -/
def isTrue (r : Linked Bool) : Bool :=
  match r with
  | .ok b => b
  | .error _ => false

theorem isTrue_iff {r : Linked Bool} : r.isTrue = true ↔ r = .ok true := by
  cases r <;> simp [isTrue]

theorem Settled.eq_isTrue {r : Linked Bool} (h : r.Settled) : r = .ok r.isTrue := by
  obtain ⟨b, rfl⟩ := h
  rfl

theorem filterAuxM_eq {test : α → Linked Bool} {l : List α} (acc : List α)
    (h : ∀ a ∈ l, (test a).Settled) :
    l.filterAuxM test acc = .ok ((l.filter fun a => (test a).isTrue).reverse ++ acc) := by
  induction l generalizing acc with
  | nil => rfl
  | cons a l ih =>
    have rest : ∀ b ∈ l, (test b).Settled := fun b hb => h b (List.mem_cons_of_mem a hb)
    rw [List.filterAuxM, (h a List.mem_cons_self).eq_isTrue]
    change l.filterAuxM test _ = _
    rw [ih _ rest]
    cases ha : (test a).isTrue <;> simp [ha]

/-- A settled test sorts out like a plain one. -/
theorem filterM_eq {test : α → Linked Bool} {l : List α} (h : ∀ a ∈ l, (test a).Settled) :
    l.filterM test = .ok (l.filter fun a => (test a).isTrue) := by
  rw [List.filterM, filterAuxM_eq [] h]
  change Except.ok _ = _
  simp

/-- A settled search finds what a plain one finds. -/
theorem anyM_eq {test : α → Linked Bool} {l : List α} (h : ∀ a ∈ l, (test a).Settled) :
    l.anyM test = .ok (l.any fun a => (test a).isTrue) := by
  induction l with
  | nil => rfl
  | cons a l ih =>
    have rest : ∀ b ∈ l, (test b).Settled := fun b hb => h b (List.mem_cons_of_mem a hb)
    rw [List.anyM_cons, (h a List.mem_cons_self).eq_isTrue, ih rest]
    cases ha : (test a).isTrue <;> simp [ha, bind, Except.bind, pure, Except.pure]

end Linked

open Linked

/-- Computations that all have a result have one together, and what is in it is in one of theirs. -/
theorem exists_mapM {ε α β : Type} {g : α → Except ε (List β)} {xs : List α}
    (h : ∀ x ∈ xs, ∃ l, g x = .ok l) :
    ∃ ls, xs.mapM g = .ok ls ∧ ∀ y, y ∈ ls.flatten ↔ ∃ x ∈ xs, ∃ l, g x = .ok l ∧ y ∈ l := by
  induction xs with
  | nil => exact ⟨[], rfl, by simp⟩
  | cons x xs ih =>
    obtain ⟨l, hl⟩ := h x List.mem_cons_self
    obtain ⟨ls, hls, mem⟩ := ih fun x hx => h x (List.mem_cons_of_mem _ hx)
    refine ⟨l :: ls, ?_, fun y => ?_⟩
    · rw [List.mapM_cons, hl, hls]
      rfl
    · simp [mem, hl]

/-- Groups without failure are gathered into the elements of all of them that pass the test. -/
theorem gather_eq {ls : List (List NodeId)} {test : NodeId → Linked Bool}
    (h : ∀ l ∈ ls, ∀ j ∈ l, (test j).Settled) :
    gather (ls.map .ok) test = .ok ((ls.flatten.filter fun j => (test j).isTrue).eraseDups) := by
  have each : (ls.map Except.ok).mapM
      (fun group : Linked (List NodeId) => do (← group).filterM test) =
      .ok (ls.map fun l => l.filter fun j => (test j).isTrue) := by
    induction ls with
    | nil => rfl
    | cons l ls ih =>
      have rest : ∀ m ∈ ls, ∀ j ∈ m, (test j).Settled :=
        fun m hm => h m (List.mem_cons_of_mem l hm)
      rw [List.map_cons, List.mapM_cons, ih rest]
      change (l.filterM test >>= _) = _
      rw [filterM_eq (h l List.mem_cons_self)]
      rfl
  unfold gather
  rw [each, List.filter_flatten]
  rfl

/-- Gathering from groups without failure. -/
theorem exists_gather {groups : List (Linked (List NodeId))} {test : NodeId → Linked Bool}
    {P : NodeId → Prop} (hg : ∀ g ∈ groups, ∃ l, g = .ok l ∧ ∀ j ∈ l, P j)
    (ht : ∀ j, P j → (test j).Settled) :
    ∃ l, gather groups test = .ok l ∧
      ∀ j, j ∈ l ↔ (∃ g ∈ groups, ∃ l', g = .ok l' ∧ j ∈ l') ∧ test j = .ok true := by
  obtain ⟨ls, rfl⟩ : ∃ ls : List (List NodeId), groups = ls.map .ok := by
    induction groups with
    | nil => exact ⟨[], rfl⟩
    | cons g groups ih =>
      obtain ⟨l, rfl, -⟩ := hg g List.mem_cons_self
      obtain ⟨ls, rfl⟩ := ih fun g hg' => hg g (List.mem_cons_of_mem _ hg')
      exact ⟨l :: ls, rfl⟩
  have settled : ∀ l ∈ ls, ∀ j ∈ l, (test j).Settled := by
    intro l hl j hj
    obtain ⟨l', same, hP⟩ := hg _ (List.mem_map_of_mem hl)
    cases same
    exact ht j (hP j hj)
  refine ⟨_, gather_eq settled, fun j => ?_⟩
  simp only [List.mem_eraseDups, List.mem_filter, List.mem_flatten, isTrue_iff, List.mem_map,
    exists_exists_and_eq_and, Except.ok.injEq, exists_eq_left']

/-! ## Combinators -/

namespace Template.WellFormed

variable {t : Template} {i : NodeId}

/-- A combinator leads to nodes of the forest. -/
theorem exists_after (wf : t.WellFormed) (i : NodeId) (k : Combinator) :
    ∃ l, t.forest.after i k = .ok l ∧ ∀ j ∈ l, t.forest.Has j := by
  obtain ⟨l, hl, mem, head⟩ := wf.exists_following i
  have has : ∀ {mid j}, t.forest.Between i mid j → t.forest.Has j := by
    intro mid j between
    obtain ⟨p, -, hj⟩ := between.exists_parent
    exact wf.has_child hj
  cases k with
  | descendant =>
    refine ⟨_, rfl, fun j hj => ?_⟩
    obtain ⟨c, hc, hj⟩ := List.mem_flatMap.1 hj
    exact wf.has_of_reach (reach_of_mem_subtreeTo hj) (wf.has_child hc)
  | child => exact ⟨_, rfl, fun j hj => wf.has_child hj⟩
  | adjacent =>
    refine ⟨l.take 1, by simp [after, hl, Except.map], fun j hj => ?_⟩
    obtain ⟨⟨mid, h⟩, -⟩ := (mem j).1 (List.mem_of_mem_take hj)
    exact has h
  | sibling =>
    refine ⟨l, by rw [after, hl], fun j hj => ?_⟩
    obtain ⟨⟨mid, h⟩, -⟩ := (mem j).1 hj
    exact has h

/-- A combinator leads from nodes of the forest. -/
theorem exists_before (wf : t.WellFormed) (i : NodeId) (k : Combinator) :
    ∃ l, t.forest.before i k = .ok l ∧ ∀ j ∈ l, t.forest.Has j := by
  obtain ⟨l, hl, mem, head⟩ := wf.exists_preceding i
  have has : ∀ {mid j}, t.forest.Between j mid i → t.forest.Has j := by
    intro mid j between
    obtain ⟨p, hj, -⟩ := between.exists_parent
    exact wf.has_child hj
  cases k with
  | descendant =>
    refine ⟨_, rfl, fun j hj => ?_⟩
    obtain ⟨c, hc, -⟩ := TransGen.head'_iff.1 (wf.reach_of_mem_ancestorsTo hj)
    exact has_of_isChild hc
  | child =>
    refine ⟨_, rfl, fun j hj => has_of_isChild (wf.child_of_parent (j := i) ?_)⟩
    simpa using hj
  | adjacent =>
    refine ⟨l.take 1, by simp [before, hl, Except.map], fun j hj => ?_⟩
    obtain ⟨⟨mid, h⟩, -⟩ := (mem j).1 (List.mem_of_mem_take hj)
    exact has h
  | sibling =>
    refine ⟨l, by rw [before, hl], fun j hj => ?_⟩
    obtain ⟨⟨mid, h⟩, -⟩ := (mem j).1 hj
    exact has h

theorem settled_isStructural (wf : t.WellFormed) (p : StructuralPseudo) :
    (t.forest.isStructural i p).Settled := by
  have position := wf.exists_siblingPosition i
  cases p <;> first | exact settled_ok _ | exact settled_map position _

theorem settled_isNth (wf : t.WellFormed) (p : NthPseudo) (c : Option (Int × Int)) :
    (t.forest.isNth i p c).Settled := by
  cases c with
  | none => exact settled_ok _
  | some c => exact settled_map (wf.exists_siblingPosition i) _

end Template.WellFormed

/-! ## Conditions and chains -/

section

variable {s : Scene} {roots : List NodeId}

theorem Scene.settled_hasPseudo (wf : (Template.mk s.forest roots).WellFormed) (i : NodeId)
    (name : String) (argument : Option String) : (s.hasPseudo i name argument).Settled := by
  unfold hasPseudo
  split
  · exact settled_ok _
  · split
    · exact wf.settled_isStructural _
    · exact settled_ok _

/-- Following a combinator from several elements. -/
theorem exists_gather_after (wf : (Template.mk s.forest roots).WellFormed) (reached : List NodeId)
    (k : Combinator) {test : NodeId → Linked Bool} (ht : ∀ j, s.forest.Has j → (test j).Settled) :
    ∃ l, gather (reached.map fun i => s.forest.after i k) test = .ok l ∧
      ∀ j, j ∈ l ↔
        (∃ i ∈ reached, ∃ l', s.forest.after i k = .ok l' ∧ j ∈ l') ∧ test j = .ok true := by
  have groups : ∀ g ∈ reached.map fun i => s.forest.after i k,
      ∃ l, g = .ok l ∧ ∀ j ∈ l, s.forest.Has j := by
    intro g hg
    obtain ⟨i, -, rfl⟩ := List.mem_map.1 hg
    exact wf.exists_after i k
  obtain ⟨l, hl, mem⟩ := exists_gather groups ht
  exact ⟨l, hl, fun j => by rw [mem]; simp only [List.mem_map, exists_exists_and_eq_and]⟩

mutual

/-- A condition has a result at every node. -/
theorem Simple.settled (wf : (Template.mk s.forest roots).WellFormed) {i : NodeId}
    (hi : s.forest.Has i) (x : Simple) : (x.holds s i).Settled := by
  cases x with
  | type | «class» | id | «attribute» | nesting | any => exact settled_ok _
  | pseudo name argument => exact s.settled_hasPseudo wf i name argument
  | nth p _ c => exact wf.settled_isNth p c
  | has cs => exact settled_anySelects wf i cs
  | among cs => exact settled_anyEndsAt wf hi cs
  | except cs =>
    obtain ⟨b, hb⟩ := settled_anyEndsAt wf hi cs
    exact ⟨!b, by rw [Simple.holds, hb]; rfl⟩
termination_by structural x

/-- A compound has a result at every node. -/
theorem Compound.settled (wf : (Template.mk s.forest roots).WellFormed) {i : NodeId}
    (hi : s.forest.Has i) (xs : List Simple) : (Compound.holds s i xs).Settled := by
  cases xs with
  | nil => exact settled_ok _
  | cons x xs =>
    obtain ⟨b, hb⟩ := Simple.settled wf hi x
    obtain ⟨b', hb'⟩ := Compound.settled wf hi xs
    cases b with
    | false => exact ⟨false, by rw [Compound.holds, hb]; rfl⟩
    | true => exact ⟨b', by rw [Compound.holds, hb]; exact hb'⟩
termination_by structural xs

/-- Looking for the elements of a chain backward has a result at every node. -/
theorem Chain.settled (wf : (Template.mk s.forest roots).WellFormed) {i : NodeId}
    (hi : s.forest.Has i) (c : Chain) : (c.endsAt s i).Settled := by
  cases c with
  | start _ compound => exact Compound.settled wf hi compound
  | step previous k compound =>
    obtain ⟨b, hb⟩ := Compound.settled wf hi compound
    obtain ⟨l, hl, has⟩ := wf.exists_before i k
    have found := anyM_eq fun j hj => Chain.settled wf (has j hj) previous
    cases b with
    | false => exact ⟨false, by rw [Chain.endsAt, hb]; rfl⟩
    | true => exact ⟨_, by rw [Chain.endsAt, hb, hl]; exact found⟩
termination_by structural c

/-- Following a chain forward has a result, which consists of nodes of the forest. -/
theorem Chain.settled_select (wf : (Template.mk s.forest roots).WellFormed)
    (starts : List NodeId) (c : Chain) : (c.select s starts).Settled := by
  cases c with
  | start leading compound =>
    obtain ⟨l, hl, -⟩ := exists_gather_after wf starts leading
      fun j hj => Compound.settled wf hj compound
    exact ⟨l, by rw [Chain.select, hl]⟩
  | step previous k compound =>
    obtain ⟨reached, hr⟩ := Chain.settled_select wf starts previous
    obtain ⟨l, hl, -⟩ :=
      exists_gather_after wf reached k fun j hj => Compound.settled wf hj compound
    exact ⟨l, by rw [Chain.select, hr]; exact hl⟩
termination_by structural c

theorem settled_anyEndsAt (wf : (Template.mk s.forest roots).WellFormed) {i : NodeId}
    (hi : s.forest.Has i) (cs : List Chain) : (anyEndsAt s i cs).Settled := by
  cases cs with
  | nil => exact settled_ok _
  | cons c cs =>
    obtain ⟨b, hb⟩ := Chain.settled wf hi c
    obtain ⟨b', hb'⟩ := settled_anyEndsAt wf hi cs
    cases b with
    | false => exact ⟨b', by rw [anyEndsAt, hb]; exact hb'⟩
    | true => exact ⟨true, by rw [anyEndsAt, hb]; rfl⟩
termination_by structural cs

theorem settled_anySelects (wf : (Template.mk s.forest roots).WellFormed) (i : NodeId)
    (cs : List Chain) : (anySelects s i cs).Settled := by
  cases cs with
  | nil => exact settled_ok _
  | cons c cs =>
    obtain ⟨l, hl⟩ := Chain.settled_select wf [i] c
    obtain ⟨b, hb⟩ := settled_anySelects wf i cs
    cases l with
    | nil => exact ⟨b, by rw [anySelects, hl]; exact hb⟩
    | cons j l => exact ⟨true, by rw [anySelects, hl]; rfl⟩
termination_by structural cs

end

end

end NestedStyles
