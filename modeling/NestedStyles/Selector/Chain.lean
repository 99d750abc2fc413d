import NestedStyles.Selector.Compound

/-!
# Chains of compounds

Compounds with combinators between them, and lists of such chains. In a forgiving list a chain that
cannot be read is left out, and reading goes on from the tokens the reader has left.
-/

namespace NestedStyles

open Css

namespace Selector

/-! ## Chains and lists of chains -/

/-- A chain, and whether a pseudo-element ends it. -/
structure Found where
  chain : Settled Chain
  pseudoElement : Bool

/-- The combinator that a token is. -/
def combinator? : Token → Option Combinator
  | .literal mark => Combinator.ofMark? mark
  | _ => none

/-- The combinator at the start, behind which a compound has to follow, and the parts after it.
White space in front of a compound is a combinator too. -/
def readCombinator (ps : List Part) : Option (Combinator × List Part) :=
  match skipSpace ps with
  | [] => none
  | p :: rest =>
    if p.token.isLiteral "," then none
    else
      match combinator? p.token with
      | some combinator => some (combinator, rest)
      | none =>
        if (skipSpace ps).length < ps.length then some (.descendant, p :: rest) else none

theorem length_readCombinator {ps rest : List Part} {combinator : Combinator}
    (h : readCombinator ps = some (combinator, rest)) : rest.length < ps.length := by
  have h0 := length_skipSpace ps
  unfold readCombinator at h
  split at h
  · cases h
  · next p after e =>
    split at h
    · cases h
    · rw [e] at h0 h
      split at h
      · cases h
        simp only [List.length_cons] at h0
        omega
      · split at h
        · cases h
          omega
        · cases h

/-- The rest of a chain, after `found`. -/
def readSteps (found : Found) (ps : List Part) : Reading Found :=
  if found.pseudoElement then ⟨.ok found, skipSpace ps⟩
  else
    match h : readCombinator ps with
    | none => ⟨.ok found, skipSpace ps⟩
    | some (combinator, rest) =>
      have := length_readCombinator h
      have := readCompound_takes rest
      let r := readCompound rest
      match r.outcome with
      | .error e => ⟨.error e, r.rest⟩
      | .ok (compound, pseudoElement) =>
        let chain : Settled Chain := do
          let compound ← compound
          return .step (← found.chain) combinator compound
        readSteps ⟨chain, pseudoElement⟩ r.rest
termination_by ps.length

/-- The combinator that a relative chain starts with. -/
def readLeading (ps : List Part) : Combinator × List Part :=
  match (peek ps).bind combinator? with
  | some combinator => (combinator, ps.tail)
  | none => (.descendant, ps)

/-- A chain. A relative one may start with a combinator. -/
def readChain (relative : Bool) (ps : List Part) : Reading Found :=
  let (leading, ps) :=
    if relative then readLeading (skipSpace ps) else (.descendant, skipSpace ps)
  (readCompound ps).andThen fun (compound, pseudoElement) rest =>
    readSteps ⟨compound.map (.start leading), pseudoElement⟩ rest

theorem length_readSteps (found : Found) (ps : List Part) :
    (readSteps found ps).rest.length ≤ ps.length := by
  fun_induction readSteps found ps with
  | case1 => exact length_skipSpace _
  | case2 => exact length_skipSpace _
  | case3 found ps _ combinator rest _ h1 h2 r e _ =>
    have : r.rest.length ≤ rest.length := h2.1
    dsimp only
    omega
  | case4 found ps _ combinator rest _ h1 h2 r _ _ _ _ ih =>
    have : r.rest.length ≤ rest.length := h2.1
    omega

theorem length_readChain (relative : Bool) (ps : List Part) :
    (readChain relative ps).rest.length ≤ ps.length := by
  have h0 := length_skipSpace ps
  unfold readChain
  generalize hl : (if relative then readLeading (skipSpace ps) else (.descendant, skipSpace ps)) = l
  have h1 : l.2.length ≤ ps.length := by
    subst hl
    split
    · unfold readLeading
      split
      · simp; omega
      · exact h0
    · exact h0
  obtain ⟨leading, qs⟩ := l
  have h2 := readCompound_takes qs
  simp only [Reading.andThen] at h1 ⊢
  split
  · exact Nat.le_trans (length_readSteps _ _) (by omega)
  · simp only; omega

/-- The chains after the first of a list. In a forgiving list a chain that cannot be read is left
out, and so is a token that is no comma. -/
def readMore (forgiving relative : Bool) (ps : List Part) : Except Failure (List Found) :=
  match ps with
  | [] => .ok []
  | p :: rest =>
    if p.token.isLiteral "," then
      have := length_readChain relative rest
      let r := readChain relative rest
      match r.outcome with
      | .ok found => (readMore forgiving relative r.rest).map (found :: ·)
      | .error (.rejected why) =>
        if forgiving then readMore forgiving relative r.rest else .error (.rejected why)
      | .error e => .error e
    else if forgiving then readMore forgiving relative rest
    else .error (.rejected (.leftover p.token))
termination_by ps.length
decreasing_by all_goals simp only [List.length_cons]; omega

/-- The chains of a list. A forgiving list whose first chain cannot be read is empty. -/
def readList (forgiving relative : Bool) (ps : List Part) : Except Failure (List Found) :=
  let r := readChain relative ps
  match r.outcome with
  | .ok found => (readMore forgiving relative r.rest).map (found :: ·)
  | .error (.rejected why) => if forgiving then .ok [] else .error (.rejected why)
  | .error e => .error e

/-! ## Tokens with their meaning -/

/-- What the arguments of a function mean, if they are a list of chains. Chains that end in a
pseudo-element are left out. -/
def readAlternatives (function : String) (arguments : List Part) :
    Except Failure (Settled (List Chain)) :=
  let chains (forgiving relative : Bool) :=
    (readList forgiving relative arguments).map fun founds =>
      Settled.all ((founds.filter fun f => !f.pseudoElement).map Found.chain)
  match function with
  | "is" | "where" => chains true false
  | "not" => chains false false
  | "has" => chains true true
  | _ => .ok (.ok [])

end Selector

mutual

/-- A token with the chains its arguments mean. -/
def Part.ofToken : Token → Part
  | .function name arguments =>
    ⟨.function name arguments,
      Selector.readAlternatives (Text.lowerAsciiString name) (Part.ofTokens arguments)⟩
  | t => .plain t

/-- Tokens with the chains their arguments mean. -/
def Part.ofTokens : List Token → List Part
  | [] => []
  | t :: ts => Part.ofToken t :: Part.ofTokens ts

end

/-- Reads tokens that are one chain. -/
def Chain.ofTokens (ts : List Token) : Except Failure (Settled Chain) := do
  let r := Selector.readChain false (Part.ofTokens ts)
  let found ← r.outcome
  match r.rest with
  | [] => return found.chain
  | p :: _ => throw (.rejected (.leftover p.token))

end NestedStyles
