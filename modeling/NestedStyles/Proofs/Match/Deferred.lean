import NestedStyles.Proofs.Match.Directions

/-!
# Pseudo-classes that the browser decides

Pseudo-classes of the runtime set, unknown ones, and those with an argument `an+b` that could not be
read are not decided when a selector is matched. `Simple.Fits` is what a selector says once the
browser has decided them: a verdict gives each of them its truth value at each element, and
everything else is as the matching has it.

A verdict that grants more admits more elements as far as the pseudo-classes stand under an even
number of `:not()`, and fewer as far as they stand under an odd one (`Simple.Fits.mono`).
-/

namespace NestedStyles

open Forest

/-- A pseudo-class that the browser decides. -/
inductive Deferred
  | pseudo (name : String) (argument : Option String)
  | nth (pseudo : NthPseudo) (argument : String)
  deriving DecidableEq, Repr

/-- What the browser says about its pseudo-classes at each element. -/
abbrev Verdict := NodeId → Deferred → Bool

/-- The pseudo-class that the browser decides, if the condition is one. -/
def Simple.deferred? (cfg : Config) : Simple → Option Deferred
  | .pseudo name argument =>
    if name ∈ cfg.runtimePseudoClasses ∨ argument.isSome ∨ StructuralPseudo.ofName? name = none then
      some (.pseudo name argument)
    else none
  | .nth p argument coefficients =>
    if p.name ∈ cfg.runtimePseudoClasses ∨ coefficients = none then some (.nth p argument) else none
  | _ => none

/-- The element meets the condition as the verdict or, if it is silent, the matching has it. -/
def Simple.Decided (s : Scene) (v : Verdict) (i : NodeId) (x : Simple) : Prop :=
  match x.deferred? s.config with
  | some p => v i p = true
  | none => x.holds s i = .ok true

mutual

/-- The element meets the condition under the verdict. -/
def Simple.Fits (s : Scene) (v : Verdict) (i : NodeId) : Simple → Prop
  | .has cs => AnyFollows s v i cs
  | .among cs => AnyPrecedes s v i cs
  | .except cs => ¬ AnyPrecedes s v i cs
  | x => x.Decided s v i

/-- The element meets all conditions of a compound under the verdict. -/
def Compound.Fits (s : Scene) (v : Verdict) (i : NodeId) : List Simple → Prop
  | [] => True
  | x :: xs => x.Fits s v i ∧ Compound.Fits s v i xs

/-- Under the verdict the element is the last of the chain, looking for the others backward. -/
def Chain.Precedes (s : Scene) (v : Verdict) (j : NodeId) : Chain → Prop
  | .start _ compound => Compound.Fits s v j compound
  | .step previous k compound =>
    Compound.Fits s v j compound ∧ ∃ i, s.forest.LeadsFrom k j i ∧ previous.Precedes s v i

/-- Under the verdict the chain leads to the element from one that may be its first. -/
def Chain.Follows (s : Scene) (v : Verdict) (First : NodeId → Prop) (j : NodeId) : Chain → Prop
  | .start _ compound => First j ∧ Compound.Fits s v j compound
  | .step previous k compound =>
    (∃ i, previous.Follows s v First i ∧ s.forest.LeadsTo k i j) ∧ Compound.Fits s v j compound

/-- Under the verdict the element is the last of one of the chains. -/
def AnyPrecedes (s : Scene) (v : Verdict) (i : NodeId) : List Chain → Prop
  | [] => False
  | c :: cs => c.Precedes s v i ∨ AnyPrecedes s v i cs

/-- Under the verdict one of the chains leads from the element to some element. -/
def AnyFollows (s : Scene) (v : Verdict) (i : NodeId) : List Chain → Prop
  | [] => False
  | c :: cs => (∃ j, c.Follows s v (s.forest.LeadsTo c.leading i) j) ∨ AnyFollows s v i cs

end

mutual

/-- The browser's pseudo-classes in a condition that stand under an even number of `:not()`, or
under an odd one. -/
def Simple.deferred (cfg : Config) (even : Bool) : Simple → List Deferred
  | .has cs => deferredIn cfg even cs
  | .among cs => deferredIn cfg even cs
  | .except cs => deferredIn cfg (!even) cs
  | x => if even then (x.deferred? cfg).toList else []

/-- The browser's pseudo-classes in a compound. -/
def Compound.deferred (cfg : Config) (even : Bool) : List Simple → List Deferred
  | [] => []
  | x :: xs => x.deferred cfg even ++ Compound.deferred cfg even xs

/-- The browser's pseudo-classes in a chain. -/
def Chain.deferred (cfg : Config) (even : Bool) : Chain → List Deferred
  | .start _ compound => Compound.deferred cfg even compound
  | .step previous _ compound => previous.deferred cfg even ++ Compound.deferred cfg even compound

/-- The browser's pseudo-classes in a list of chains. -/
def deferredIn (cfg : Config) (even : Bool) : List Chain → List Deferred
  | [] => []
  | c :: cs => c.deferred cfg even ++ deferredIn cfg even cs

end

namespace Verdict

/-- All pseudo-classes are granted, which is what the matching takes for granted. -/
def grantAll : Verdict := fun _ _ => true

/-- What `v` grants among these pseudo-classes, `w` grants. -/
def Below (v w : Verdict) (ps : List Deferred) : Prop :=
  ∀ p ∈ ps, ∀ i, v i p = true → w i p = true

theorem below_append_iff {v w : Verdict} {ps qs : List Deferred} :
    v.Below w (ps ++ qs) ↔ v.Below w ps ∧ v.Below w qs := by
  simp only [Below, List.mem_append, or_imp, forall_and]

end Verdict

section

variable {s : Scene} {v w : Verdict}

theorem Simple.Decided.mono {x : Simple} (grant : v.Below w (x.deferred? s.config).toList)
    {i : NodeId} (h : x.Decided s v i) : x.Decided s w i := by
  unfold Decided at h ⊢
  cases hp : x.deferred? s.config with
  | none => rwa [hp] at h
  | some p =>
    rw [hp] at h grant
    exact grant p (List.mem_singleton_self p) i h

mutual

/-- A verdict that grants what another one does under an even number of `:not()`, and no more under
an odd one, admits what that one admits. -/
theorem Simple.Fits.mono {v w : Verdict} (x : Simple) (grant : v.Below w (x.deferred s.config true))
    (deny : w.Below v (x.deferred s.config false)) {i : NodeId} (h : x.Fits s v i) :
    x.Fits s w i := by
  cases x with
  | has cs => exact AnyFollows.mono cs grant deny h
  | among cs => exact AnyPrecedes.mono cs grant deny h
  | except cs => exact fun found => h (AnyPrecedes.mono cs deny grant found)
  | pseudo name argument => exact Simple.Decided.mono grant h
  | nth p argument coefficients => exact Simple.Decided.mono grant h
  | type | «class» | id | «attribute» | nesting | any => exact h
termination_by structural x

theorem Compound.Fits.mono {v w : Verdict} (xs : List Simple)
    (grant : v.Below w (Compound.deferred s.config true xs))
    (deny : w.Below v (Compound.deferred s.config false xs)) {i : NodeId}
    (h : Compound.Fits s v i xs) : Compound.Fits s w i xs := by
  cases xs with
  | nil => trivial
  | cons x xs =>
    obtain ⟨grantFirst, grantRest⟩ := Verdict.below_append_iff.1 grant
    obtain ⟨denyFirst, denyRest⟩ := Verdict.below_append_iff.1 deny
    exact ⟨Simple.Fits.mono x grantFirst denyFirst h.1,
      Compound.Fits.mono xs grantRest denyRest h.2⟩
termination_by structural xs

theorem Chain.Precedes.mono {v w : Verdict} (c : Chain)
    (grant : v.Below w (c.deferred s.config true))
    (deny : w.Below v (c.deferred s.config false)) {j : NodeId} (h : c.Precedes s v j) :
    c.Precedes s w j := by
  cases c with
  | start _ compound => exact Compound.Fits.mono compound grant deny h
  | step previous k compound =>
    obtain ⟨grantBefore, grantLast⟩ := Verdict.below_append_iff.1 grant
    obtain ⟨denyBefore, denyLast⟩ := Verdict.below_append_iff.1 deny
    obtain ⟨fits, i, leads, before⟩ := h
    exact ⟨Compound.Fits.mono compound grantLast denyLast fits, i, leads,
      Chain.Precedes.mono previous grantBefore denyBefore before⟩
termination_by structural c

theorem Chain.Follows.mono {v w : Verdict} (c : Chain)
    (grant : v.Below w (c.deferred s.config true))
    (deny : w.Below v (c.deferred s.config false)) {First : NodeId → Prop} {j : NodeId}
    (h : c.Follows s v First j) : c.Follows s w First j := by
  cases c with
  | start _ compound => exact ⟨h.1, Compound.Fits.mono compound grant deny h.2⟩
  | step previous k compound =>
    obtain ⟨grantBefore, grantLast⟩ := Verdict.below_append_iff.1 grant
    obtain ⟨denyBefore, denyLast⟩ := Verdict.below_append_iff.1 deny
    obtain ⟨⟨i, before, leads⟩, fits⟩ := h
    exact ⟨⟨i, Chain.Follows.mono previous grantBefore denyBefore before, leads⟩,
      Compound.Fits.mono compound grantLast denyLast fits⟩
termination_by structural c

theorem AnyPrecedes.mono {v w : Verdict} (cs : List Chain)
    (grant : v.Below w (deferredIn s.config true cs))
    (deny : w.Below v (deferredIn s.config false cs)) {i : NodeId} (h : AnyPrecedes s v i cs) :
    AnyPrecedes s w i cs := by
  cases cs with
  | nil => exact h
  | cons c cs =>
    obtain ⟨grantFirst, grantRest⟩ := Verdict.below_append_iff.1 grant
    obtain ⟨denyFirst, denyRest⟩ := Verdict.below_append_iff.1 deny
    rcases h with h | h
    · exact .inl (Chain.Precedes.mono c grantFirst denyFirst h)
    · exact .inr (AnyPrecedes.mono cs grantRest denyRest h)
termination_by structural cs

theorem AnyFollows.mono {v w : Verdict} (cs : List Chain)
    (grant : v.Below w (deferredIn s.config true cs))
    (deny : w.Below v (deferredIn s.config false cs)) {i : NodeId} (h : AnyFollows s v i cs) :
    AnyFollows s w i cs := by
  cases cs with
  | nil => exact h
  | cons c cs =>
    obtain ⟨grantFirst, grantRest⟩ := Verdict.below_append_iff.1 grant
    obtain ⟨denyFirst, denyRest⟩ := Verdict.below_append_iff.1 deny
    rcases h with ⟨j, h⟩ | h
    · exact .inl ⟨j, Chain.Follows.mono c grantFirst denyFirst h⟩
    · exact .inr (AnyFollows.mono cs grantRest denyRest h)
termination_by structural cs

end

end

end NestedStyles
