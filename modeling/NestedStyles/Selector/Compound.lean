import NestedStyles.Css.Printer
import NestedStyles.Selector.Attribute
import NestedStyles.Text.Blank

/-!
# Compound selectors

A compound is a type, conditions in any number, or both. A pseudo-element ends it and is not kept.
`readCompound_takes` says that a reader that finds a compound has taken something, on which the end
of all reading of chains rests.
-/

namespace NestedStyles.Selector

open Css

/-- The pseudo-elements that are known after two colons. -/
def pseudoElements : List String :=
  ["first-line", "first-letter", "prefix", "postfix", "selection", "target-text",
    "spelling-error", "grammar-error", "before", "after", "marker", "placeholder",
    "file-selector-button", "footnote-call", "footnote-marker", "note-call", "note-marker",
    "note-callback", "content", "shadow"]

/-- The pseudo-elements that may be written with one colon. -/
def oldPseudoElements : List String :=
  ["before", "after", "first-line", "first-letter"]

/-- The name of the pseudo-class that stands for `&`. -/
def nestingPseudo : String := "-tailnest-nesting"

/-- A pseudo-class without an argument. -/
def ofPseudoName (name : String) : Simple :=
  if name == nestingPseudo then .nesting else .pseudo name none

/-- A pseudo-class with an argument. -/
def ofFunction (name : String) (arguments : List Token)
    (alternatives : Except Failure (Settled (List Chain))) : Except Failure (Settled Simple) :=
  match name with
  | "is" | "where" => alternatives.map fun cs => cs.map .among
  | "not" => alternatives.map fun cs => cs.map .except
  | "has" => alternatives.map fun cs => cs.map .has
  | _ =>
    let text := String.ofList (Text.trim (writeTokens arguments))
    match NthPseudo.ofName? name with
    | some p => .ok ((readNth arguments).map (.nth p text))
    | none => .ok (.ok (.pseudo name (some text)))

/-- The conditions of a compound, and whether a pseudo-element ends it. -/
structure Conditions where
  simples : List (Settled Simple)
  pseudoElement : Bool

/-- One more condition in front. -/
def Conditions.cons (s : Settled Simple) (c : Conditions) : Conditions :=
  { c with simples := s :: c.simples }

/-- The reading with one more condition in front. -/
def withCondition (s : Settled Simple) (r : Reading Conditions) : Reading Conditions :=
  { r with outcome := r.outcome.map (Conditions.cons s) }

/-- The conditions after the type of a compound, as far as they go. -/
def readConditions : List Part → Reading Conditions
  | [] => ⟨.ok ⟨[], false⟩, []⟩
  | p :: rest =>
    match p.token with
    | .hash name true => withCondition (.ok (.id name)) (readConditions rest)
    | .block .square content =>
      match readAttribute content with
      | .ok s => withCondition (.ok s) (readConditions rest)
      | .error e => ⟨.error e, rest⟩
    | .literal "." =>
      match rest with
      | ⟨.ident name, _⟩ :: rest => withCondition (.ok (.class name)) (readConditions rest)
      | rest => .reject (.noClassName (peek rest)) rest.tail
    | .literal ":" =>
      match rest with
      | ⟨.literal ":", _⟩ :: ⟨.ident name, _⟩ :: rest =>
        let name := Text.lowerAsciiString name
        if name ∈ pseudoElements then ⟨.ok ⟨[], true⟩, rest⟩
        else .reject (.unknownPseudoElement name) rest
      | ⟨.literal ":", _⟩ :: rest => .reject (.noPseudoElement (peek rest)) rest.tail
      | ⟨.ident name, _⟩ :: rest =>
        let name := Text.lowerAsciiString name
        if name ∈ oldPseudoElements then ⟨.ok ⟨[], true⟩, rest⟩
        else withCondition (.ok (ofPseudoName name)) (readConditions rest)
      | ⟨.function name arguments, alternatives⟩ :: rest =>
        match ofFunction (Text.lowerAsciiString name) arguments alternatives with
        | .ok s => withCondition s (readConditions rest)
        | .error e => ⟨.error e, rest⟩
      | rest => .reject (.noPseudoClass (peek rest)) rest.tail
    | _ => ⟨.ok ⟨[], false⟩, p :: rest⟩

/-- The conditions that the type of a compound stands for. -/
def typeConditions (qualified : Option QualifiedName) : List (Settled Simple) :=
  match qualified with
  | none => []
  | some q =>
    (q.name.map fun name => .ok (.type name)).toList ++
      if q.anyNamespace then [] else [.ok .any]

/-- A compound, and whether a pseudo-element ends it. -/
def readCompound (ps : List Part) : Reading (Settled Compound × Bool) :=
  (readQualifiedName true (skipSpace ps)).andThen fun qualified rest =>
    (readConditions rest).andThen fun conditions rest =>
      if qualified.isNone && conditions.simples.isEmpty && !conditions.pseudoElement then
        .reject (.noCompound (peek rest)) rest
      else
        ⟨.ok (Settled.all (typeConditions qualified ++ conditions.simples),
          conditions.pseudoElement), rest⟩

/-- A reader of conditions takes a part or finds none. -/
theorem readConditions_takes (ps : List Part) :
    (readConditions ps).rest.length < ps.length ∨ readConditions ps = ⟨.ok ⟨[], false⟩, ps⟩ := by
  induction h : ps.length using Nat.strongRecOn generalizing ps with
  | ind n ih =>
    have le (qs : List Part) (hq : qs.length < n) :
        (readConditions qs).rest.length ≤ qs.length := by
      rcases ih _ hq qs rfl with h' | h'
      · exact Nat.le_of_lt h'
      · simp [h']
    subst h
    unfold readConditions
    split
    · exact .inr rfl
    · next p rest =>
      have hr := le rest (by simp)
      split
      · exact .inl (by simp only [withCondition, List.length_cons]; omega)
      · exact .inl (by split <;> simp only [withCondition, List.length_cons] <;> omega)
      · left
        split
        · next rest =>
          have := le rest (by simp only [List.length_cons]; omega)
          simp only [withCondition, List.length_cons]
          omega
        · simp only [Reading.reject, List.length_tail, List.length_cons]
          omega
      · left
        split
        · dsimp only
          split <;> simp only [Reading.reject, List.length_cons] <;> omega
        · simp only [Reading.reject, List.length_tail, List.length_cons]
          omega
        · next rest =>
          have := le rest (by simp only [List.length_cons]; omega)
          dsimp only
          split <;> simp only [withCondition, List.length_cons] <;> omega
        · next rest =>
          have := le rest (by simp only [List.length_cons]; omega)
          split <;> simp only [withCondition, List.length_cons] <;> omega
        · simp only [Reading.reject, List.length_tail, List.length_cons]
          omega
      · exact .inr rfl

/-- The parts left by a reader of a compound are no more than before, and fewer if there is a
compound. -/
theorem readCompound_takes (ps : List Part) :
    (readCompound ps).rest.length ≤ ps.length ∧
      ∀ c, (readCompound ps).outcome = .ok c → (readCompound ps).rest.length < ps.length := by
  have h0 := length_skipSpace ps
  unfold readCompound Reading.andThen
  rcases readQualifiedName_takes true (skipSpace ps) with h1 | h1
  · generalize readQualifiedName true (skipSpace ps) = r at h1
    obtain ⟨outcome, rest⟩ := r
    have h2 : (readConditions rest).rest.length ≤ rest.length := by
      rcases readConditions_takes rest with h2 | h2
      · omega
      · simp [h2]
    dsimp only at h1 ⊢
    split
    · split
      · split <;> exact ⟨by simp only [Reading.reject]; omega, fun _ _ => by
          simp only [Reading.reject]; omega⟩
      · exact ⟨by dsimp only; omega, fun _ _ => by dsimp only; omega⟩
    · exact ⟨by dsimp only; omega, fun _ _ => by dsimp only; omega⟩
  · simp only [h1]
    rcases readConditions_takes (skipSpace ps) with h2 | h2
    · split
      · split <;> exact ⟨by simp only [Reading.reject]; omega, fun _ _ => by
          simp only [Reading.reject]; omega⟩
      · exact ⟨by dsimp only; omega, fun _ _ => by dsimp only; omega⟩
    · simp [h2, Reading.reject, h0]

end NestedStyles.Selector
