import NestedStyles.Proofs.Selector.Arguments
import NestedStyles.Selector.Compile

/-!
# Where a selector breaks off

Reading a selector fails otherwise than by rejecting a branch only where the text is unfinished: an
argument `an+b` breaks off, or a name is missing behind a bar at the very end of a branch, of an
attribute or of the arguments of a pseudo-class (`Unfinished`). `Sound` says that the parts of a
reading have no such place. Every reader keeps that and gives a known value or a rejection
(`Reading.Safe`), so a branch that breaks off is unfinished (`Branch.BreaksOff.unfinished`). Where
none does, all branches are read or become error texts (`Selector.ofBranches_ends`).
-/

namespace NestedStyles

open Css

/-! ## Unfinished tokens -/

/-- The tokens end in a bar. -/
def endsInBar (ts : List Token) : Bool :=
  ts.getLast?.any (Token.isLiteral "|")

/-- The pseudo-classes whose arguments are chains. -/
def takesChains : List String :=
  ["is", "where", "not", "has"]

mutual

/-- Inside the token of a selector one more token is needed at an end. -/
inductive Broken : Token → Prop
  | brackets {content} (last : endsInBar content = true) : Broken (.block .square content)
  | argument {name arguments p missing}
      (counts : NthPseudo.ofName? (Text.lowerAsciiString name) = some p)
      (breaks : readNth arguments = .error missing) : Broken (.function name arguments)
  | within {name arguments} (chains : Text.lowerAsciiString name ∈ takesChains)
      (inner : Unfinished arguments) : Broken (.function name arguments)

/-- Somewhere in the tokens of a selector one more token is needed at an end. -/
inductive Unfinished : List Token → Prop
  | bar {ts} (last : endsInBar ts = true) : Unfinished ts
  | among {ts t} (mem : t ∈ ts) (broken : Broken t) : Unfinished ts

end

theorem endsInBar_cons {t : Token} {rest : List Token} (h : endsInBar rest = true) :
    endsInBar (t :: rest) = true := by
  cases rest with
  | nil => cases h
  | cons t' rest => simpa [endsInBar, List.getLast?_cons_cons] using h

theorem Unfinished.cons {t : Token} {rest : List Token} (h : Unfinished rest) :
    Unfinished (t :: rest) := by
  cases h with
  | bar last => exact .bar (endsInBar_cons last)
  | among mem broken => exact .among (List.mem_cons_of_mem t mem) broken

/-! ## Numbers with too many digits -/

namespace Css

/-- The most digits that an integer may be written with. The readers take any number of them: texts
with more are left out where it is told how the reading of a text ends. -/
def maxDigits : Nat := 4300

/-- There are more digits among the characters. -/
def isOverlong (s : List Char) : Bool :=
  maxDigits < s.countP Char.isDigit

/-- The number is an integer that is overlong. -/
def Numeral.isOverlong (n : Numeral) : Bool :=
  n.integer.isSome && Css.isOverlong n.text.toList

/-- The characters are `n` with an overlong integer behind it. -/
def isOverlongUnit (unit : List Char) : Bool :=
  (afterN? unit).isSome && isOverlong unit

/-- As a part of an argument `an+b` the token holds an overlong integer in a name. -/
def Token.isOverlongUnit : Token → Bool
  | .dimension n unit => n.integer.isSome && Css.isOverlongUnit (unit.toList.map Char.toLower)
  | .ident value =>
    match value.toList.map Char.toLower with
    | '-' :: unit => Css.isOverlongUnit unit
    | unit => Css.isOverlongUnit unit
  | _ => false

mutual

/-- There is an overlong integer in the token. -/
def Token.isOverlong : Token → Bool
  | .number n | .percentage n | .dimension n _ => n.isOverlong
  | .block _ content => anyOverlong content
  | .function name arguments =>
    anyOverlong arguments ||
      (NthPseudo.ofName? (Text.lowerAsciiString name)).isSome && arguments.any Token.isOverlongUnit
  | _ => false

/-- There is an overlong integer in the tokens. -/
def anyOverlong : List Token → Bool
  | [] => false
  | t :: ts => t.isOverlong || anyOverlong ts

end

/-- There is an overlong integer in the argument `an+b`. -/
def isOverlongArgument (ts : List Token) : Bool :=
  anyOverlong ts || ts.any Token.isOverlongUnit

theorem anyOverlong_eq_any (ts : List Token) : anyOverlong ts = ts.any Token.isOverlong := by
  induction ts with
  | nil => rfl
  | cons t ts ih => rw [anyOverlong, ih, List.any_cons]

theorem isOverlongArgument_append (ts us : List Token) :
    isOverlongArgument (ts ++ us) = (isOverlongArgument ts || isOverlongArgument us) := by
  simp only [isOverlongArgument, anyOverlong_eq_any, List.any_append]
  ac_rfl

/-- An argument that breaks off is completed by a token that is short. -/
theorem exists_short_completing {ts : List Token} {missing : CutOff}
    (breaks : readNth ts = .error missing) (short : ¬ isOverlongArgument ts) :
    ∃ more c, ¬ isOverlongArgument (ts ++ more) ∧ readNth (ts ++ more) = .ok (some c) := by
  obtain ⟨t, mem, c, complete⟩ := exists_completing breaks
  have each : ∀ t ∈ completing, ¬ isOverlongArgument [t] := by decide +kernel
  refine ⟨[t], c, ?_, complete⟩
  rw [isOverlongArgument_append, Bool.or_eq_true]
  exact not_or.2 ⟨short, each t mem⟩

end Css

/-! ## Readings without a break -/

/-- The value is known. -/
def Settled.Known {α : Type} (s : Settled α) : Prop :=
  ∃ a, s = .ok a

theorem Settled.Known.map {α β : Type} {s : Settled α} (h : s.Known) (g : α → β) :
    Settled.Known (Except.map g s) := by
  obtain ⟨a, rfl⟩ := h
  exact ⟨g a, rfl⟩

theorem Settled.known_all {α : Type} {l : List (Settled α)} (h : ∀ s ∈ l, s.Known) :
    (Settled.all l).Known := by
  induction l with
  | nil => exact ⟨[], rfl⟩
  | cons s l ih =>
    obtain ⟨a, rfl⟩ := h s List.mem_cons_self
    obtain ⟨as, rest⟩ := ih fun s hs => h s (List.mem_cons_of_mem _ hs)
    exact ⟨a :: as, by rw [Settled.all, rest]; rfl⟩

/-- There is a rejection, or a value with this property. -/
def Fine {α : Type} (P : α → Prop) : Except Failure α → Prop
  | .ok a => P a
  | .error (.rejected _) => True
  | .error (.cutOff _) => False

theorem Fine.map {α β : Type} {P : α → Prop} {Q : β → Prop} {e : Except Failure α} {g : α → β}
    (h : Fine P e) (step : ∀ a, P a → Q (g a)) : Fine Q (e.map g) := by
  cases e with
  | ok a => exact step a h
  | error why =>
    cases why with
    | rejected => trivial
    | cutOff => exact h

theorem Fine.of_error {α β : Type} {P : α → Prop} {Q : β → Prop} {why : Failure}
    (h : Fine P (.error why)) : Fine Q (.error why) := by
  cases why with
  | rejected => trivial
  | cutOff => exact h

/-- Neither an attribute nor the arguments of a pseudo-class break off in this part. -/
structure Part.Whole (p : Part) : Prop where
  brackets : ∀ content, p.token = .block .square content → endsInBar content = false
  argument : ∀ name arguments q, p.token = .function name arguments →
    NthPseudo.ofName? (Text.lowerAsciiString name) = some q → Settled.Known (readNth arguments)
  alternatives : Fine Settled.Known p.alternatives

/-- Each of the parts is so, and the last one is no bar. -/
structure Sound (W : Part → Prop) (ps : List Part) : Prop where
  each : ∀ p ∈ ps, W p
  last : endsInBar (ps.map Part.token) = false

namespace Sound

variable {W : Part → Prop} {p : Part} {ps rest : List Part}

theorem tail (h : Sound W (p :: rest)) : Sound W rest where
  each q hq := h.each q (List.mem_cons_of_mem p hq)
  last := by
    cases bar : endsInBar (rest.map Part.token) with
    | false => rfl
    | true => exact absurd (endsInBar_cons (t := p.token) bar) (by simpa using h.last)

theorem tail' (h : Sound W ps) : Sound W ps.tail := by
  cases ps with
  | nil => exact h
  | cons p rest => exact h.tail

theorem skipSpace (h : Sound W ps) : Sound W (Selector.skipSpace ps) := by
  induction ps with
  | nil => exact h
  | cons p rest ih =>
    unfold Selector.skipSpace at ih ⊢
    rw [List.dropWhile_cons]
    split
    · exact ih h.tail
    · exact h

/-- A bar is not the last of the parts. -/
theorem ne_nil_of_bar (h : Sound W (p :: rest)) (bar : p.token.isLiteral "|" = true) :
    rest ≠ [] := by
  rintro rfl
  have last := h.last
  simp [endsInBar, bar] at last

end Sound

/-- The reader gives a value with this property or a rejection, and leaves sound parts. -/
structure Reading.Safe {α : Type} (W : Part → Prop) (P : α → Prop) (r : Reading α) : Prop where
  outcome : Fine P r.outcome
  rest : Sound W r.rest

namespace Reading.Safe

variable {α β : Type} {W : Part → Prop} {P : α → Prop} {Q : β → Prop} {ps : List Part}

theorem ok {a : α} (h : P a) (sound : Sound W ps) : Safe W P ⟨.ok a, ps⟩ :=
  ⟨h, sound⟩

theorem reject (why : Rejection) (sound : Sound W ps) : Safe W P (.reject why ps) :=
  ⟨trivial, sound⟩

theorem andThen {r : Reading α} {next : α → List Part → Reading β} (h : Safe W P r)
    (step : ∀ a, P a → Safe W Q (next a r.rest)) : Safe W Q (r.andThen next) := by
  obtain ⟨outcome, rest⟩ := r
  cases outcome with
  | ok a => exact step a h.outcome
  | error why =>
    cases why with
    | rejected => exact ⟨trivial, h.rest⟩
    | cutOff => exact h.outcome.elim

end Reading.Safe

namespace Selector

open Reading

/-! ## The readers -/

variable {W : Part → Prop} {ps : List Part}

theorem safe_readLocalName (star anyNamespace : Bool) (sound : Sound W ps) (more : ps ≠ []) :
    Safe W (fun _ => True) (readLocalName star anyNamespace ps) := by
  cases ps with
  | nil => exact absurd rfl more
  | cons p rest =>
    simp only [readLocalName]
    split
    · exact .ok trivial sound.tail
    · split
      · exact .ok trivial sound.tail
      · exact .reject _ sound.tail

theorem safe_readQualifiedName (star : Bool) (sound : Sound W ps) :
    Safe W (fun _ => True) (readQualifiedName star ps) := by
  unfold readQualifiedName
  split
  · exact .reject _ sound.tail.tail
  · exact .ok trivial sound.tail
  · exact safe_readLocalName _ _ sound.tail.tail (sound.tail.ne_nil_of_bar rfl)
  · split
    · exact .ok trivial sound.tail
    · exact .reject _ sound.tail
  · exact safe_readLocalName _ _ sound.tail (sound.ne_nil_of_bar rfl)
  · exact .ok trivial sound

theorem fine_endAttribute (s : Simple) (ts : List Token) :
    Fine (fun _ => True) (endAttribute s ts) := by
  unfold endAttribute
  split
  · trivial
  · dsimp only
    split <;> trivial
  · trivial

theorem fine_readAttributeValue (name : String) (comparison : Comparison) (ts : List Token) :
    Fine (fun _ => True) (readAttributeValue name comparison ts) := by
  unfold readAttributeValue
  split
  · exact fine_endAttribute _ _
  · exact fine_endAttribute _ _
  · trivial

theorem fine_readAttributeTest (name : String) (ts : List Token) :
    Fine (fun _ => True) (readAttributeTest name ts) := by
  unfold readAttributeTest
  split
  · trivial
  · split
    · exact fine_readAttributeValue _ _ _
    · trivial
  · trivial

/-- What the tokens from the first that is not white space end in, all of them do. -/
theorem endsInBar_significant {ts : List Token} (h : endsInBar (significant ts) = true) :
    endsInBar ts = true := by
  induction ts with
  | nil => exact h
  | cons t rest ih =>
    unfold significant at h ih
    rw [List.dropWhile_cons] at h
    split at h
    · exact endsInBar_cons (ih h)
    · exact h

theorem fine_readAttribute {ts : List Token} (last : endsInBar ts = false) :
    Fine (fun _ => True) (readAttribute ts) := by
  have sound : Sound (fun _ => True) ((significant ts).map .plain) := by
    refine ⟨fun _ _ => trivial, ?_⟩
    have tokens : ((significant ts).map Part.plain).map Part.token = significant ts := by
      simp [Part.plain, Function.comp_def]
    rw [tokens]
    cases bar : endsInBar (significant ts) with
    | false => rfl
    | true => exact absurd (endsInBar_significant bar) (by simp [last])
  have read := safe_readQualifiedName false sound
  unfold readAttribute
  generalize readQualifiedName false ((significant ts).map .plain) = r at read
  obtain ⟨outcome, rest⟩ := r
  cases outcome with
  | ok found =>
    cases found with
    | none => trivial
    | some qualified => exact fine_readAttributeTest _ _
  | error why =>
    cases why with
    | rejected => trivial
    | cutOff => exact read.outcome.elim

theorem fine_ofFunction {p : Part} {name : String} {arguments : List Token} (whole : p.Whole)
    (token : p.token = .function name arguments) :
    Fine Settled.Known (ofFunction (Text.lowerAsciiString name) arguments p.alternatives) := by
  unfold ofFunction
  split
  · exact whole.alternatives.map fun cs known => known.map _
  · exact whole.alternatives.map fun cs known => known.map _
  · exact whole.alternatives.map fun cs known => known.map _
  · exact whole.alternatives.map fun cs known => known.map _
  · dsimp only
    split
    · next q counts => exact (whole.argument name arguments q token counts).map _
    · exact ⟨_, rfl⟩

/-- All conditions are known. -/
def Conditions.Known (c : Conditions) : Prop :=
  ∀ s ∈ c.simples, s.Known

theorem Conditions.known_nil (pseudoElement : Bool) : Conditions.Known ⟨[], pseudoElement⟩ := by
  simp [Known]

theorem safe_withCondition {s : Settled Simple} {r : Reading Conditions} (known : s.Known)
    (h : Safe W Conditions.Known r) : Safe W Conditions.Known (withCondition s r) where
  outcome := h.outcome.map fun c rest s' hs => by
    obtain rfl | hs := List.mem_cons.1 hs
    · exact known
    · exact rest s' hs
  rest := h.rest

theorem safe_readConditions (sound : Sound Part.Whole ps) :
    Safe Part.Whole Conditions.Known (readConditions ps) := by
  have known (s : Simple) : Settled.Known (.ok s) := ⟨s, rfl⟩
  fun_induction readConditions ps with
  | case1 => exact .ok (Conditions.known_nil false) sound
  | case2 p rest name token ih => exact safe_withCondition (known _) (ih sound.tail)
  | case3 p rest content token s read ih => exact safe_withCondition (known _) (ih sound.tail)
  | case4 p rest content token e read =>
    have whole := sound.each p List.mem_cons_self
    have fine := fine_readAttribute (whole.brackets content token)
    rw [read] at fine
    exact ⟨fine.of_error, sound.tail⟩
  | case5 p token name alternatives rest ih =>
    exact safe_withCondition (known _) (ih sound.tail.tail)
  | case6 => exact .reject _ sound.tail.tail'
  | case7 => exact .ok (Conditions.known_nil true) sound.tail.tail.tail
  | case8 => exact .reject _ sound.tail.tail.tail
  | case9 => exact .reject _ sound.tail.tail.tail'
  | case10 => exact .ok (Conditions.known_nil true) sound.tail.tail
  | case11 p token name alternatives rest lower new ih =>
    exact safe_withCondition (known _) (ih sound.tail.tail)
  | case12 p token name arguments alternatives rest s read ih =>
    have whole := sound.tail.each _ List.mem_cons_self
    have fine := fine_ofFunction whole rfl
    rw [read] at fine
    exact safe_withCondition fine (ih sound.tail.tail)
  | case13 p token name arguments alternatives rest e read =>
    have whole := sound.tail.each _ List.mem_cons_self
    have fine := fine_ofFunction whole rfl
    rw [read] at fine
    exact ⟨fine.of_error, sound.tail.tail⟩
  | case14 => exact .reject _ sound.tail.tail'
  | case15 => exact .ok (Conditions.known_nil false) sound

theorem safe_readCompound (sound : Sound Part.Whole ps) :
    Safe Part.Whole (fun r : Settled Compound × Bool => r.1.Known) (readCompound ps) := by
  have typed (found : Option QualifiedName) : ∀ s ∈ typeConditions found, Settled.Known s := by
    intro s hs
    unfold typeConditions at hs
    cases found with
    | none => exact absurd hs List.not_mem_nil
    | some q =>
      simp only [List.mem_append, Option.mem_toList, Option.map_eq_some_iff] at hs
      obtain ⟨name, -, rfl⟩ | hs := hs
      · exact ⟨_, rfl⟩
      · split at hs
        · exact absurd hs List.not_mem_nil
        · exact ⟨_, List.mem_singleton.1 hs⟩
  unfold readCompound
  refine (safe_readQualifiedName true sound.skipSpace).andThen fun found _ => ?_
  have rest := (safe_readQualifiedName true sound.skipSpace).rest
  refine (safe_readConditions rest).andThen fun conditions known => ?_
  split
  · exact .reject _ (safe_readConditions rest).rest
  · refine .ok (Settled.known_all fun s hs => ?_) (safe_readConditions rest).rest
    obtain hs | hs := List.mem_append.1 hs
    · exact typed found s hs
    · exact known s hs

/-- The chain is known. -/
def Found.Known (f : Found) : Prop :=
  f.chain.Known

theorem sound_readCombinator {rest : List Part} {combinator : Combinator}
    (sound : Sound Part.Whole ps) (h : readCombinator ps = some (combinator, rest)) :
    Sound Part.Whole rest := by
  have skipped := sound.skipSpace
  unfold readCombinator at h
  split at h
  · cases h
  · next p after first =>
    rw [first] at skipped
    split at h
    · cases h
    · split at h
      · cases h
        exact skipped.tail
      · split at h
        · cases h
          exact skipped
        · cases h

theorem safe_readSteps {found : Found} (known : found.Known) (sound : Sound Part.Whole ps) :
    Safe Part.Whole Found.Known (readSteps found ps) := by
  fun_induction readSteps found ps with
  | case1 => exact .ok known sound.skipSpace
  | case2 => exact .ok known sound.skipSpace
  | case3 found ps _ combinator rest combines _ _ r e outcome =>
    have read := safe_readCompound (sound_readCombinator sound combines)
    refine ⟨?_, read.rest⟩
    have fine := read.outcome
    rw [show (readCompound rest).outcome = .error e from outcome] at fine
    exact fine.of_error
  | case4 found ps _ combinator rest combines _ _ r compound pseudoElement outcome chain ih =>
    have read := safe_readCompound (sound_readCombinator sound combines)
    have fine := read.outcome
    rw [show (readCompound rest).outcome = .ok (compound, pseudoElement) from outcome] at fine
    refine ih ?_ read.rest
    obtain ⟨c, previous⟩ := known
    obtain ⟨last, same⟩ := fine
    exact ⟨.step c combinator last, by simp only [chain, previous, show compound = _ from same]; rfl⟩

theorem safe_readChain (relative : Bool) (sound : Sound Part.Whole ps) :
    Safe Part.Whole Found.Known (readChain relative ps) := by
  have leading : Sound Part.Whole (if relative then readLeading (skipSpace ps)
      else (.descendant, skipSpace ps)).2 := by
    split
    · unfold readLeading
      split
      · exact sound.skipSpace.tail'
      · exact sound.skipSpace
    · exact sound.skipSpace
  unfold readChain
  have read := safe_readCompound leading
  refine read.andThen fun r known => ?_
  exact safe_readSteps (known.map _) read.rest

/-- All chains of a list are known. -/
def AllKnown (founds : List Found) : Prop :=
  ∀ f ∈ founds, f.Known

theorem Fine.cons {found : Found} {e : Except Failure (List Found)} (known : found.Known)
    (h : Fine AllKnown e) : Fine AllKnown (e.map (found :: ·)) :=
  h.map fun founds rest f hf => by
    obtain rfl | hf := List.mem_cons.1 hf
    · exact known
    · exact rest f hf

theorem fine_readMore (forgiving relative : Bool) (sound : Sound Part.Whole ps) :
    Fine AllKnown (readMore forgiving relative ps) := by
  fun_induction readMore forgiving relative ps with
  | case1 => exact fun f hf => absurd hf List.not_mem_nil
  | case2 p rest comma _ r found outcome ih =>
    have read := safe_readChain relative sound.tail
    have known := read.outcome
    rw [show (readChain relative rest).outcome = .ok found from outcome] at known
    exact Fine.cons known (ih read.rest)
  | case3 p rest comma _ r why outcome skips ih =>
    exact ih (safe_readChain relative sound.tail).rest
  | case4 => trivial
  | case5 p rest comma _ r e other outcome =>
    have read := (safe_readChain relative sound.tail).outcome
    rw [show (readChain relative rest).outcome = .error e from outcome] at read
    exact read.of_error
  | case6 p rest comma skips ih => exact ih sound.tail
  | case7 => trivial

theorem fine_readList (forgiving relative : Bool) (sound : Sound Part.Whole ps) :
    Fine AllKnown (readList forgiving relative ps) := by
  have read := safe_readChain relative sound
  unfold readList
  generalize readChain relative ps = r at read
  obtain ⟨outcome, rest⟩ := r
  cases outcome with
  | ok found => exact Fine.cons read.outcome (fine_readMore forgiving relative read.rest)
  | error why =>
    cases why with
    | rejected why =>
      cases forgiving with
      | true => exact fun f hf => absurd hf List.not_mem_nil
      | false => trivial
    | cutOff => exact read.outcome.elim

/-- Chains are asked for only by the pseudo-classes that take them. -/
theorem fine_readAlternatives {function : String}
    (sound : function ∈ takesChains → Sound Part.Whole ps) :
    Fine Settled.Known (readAlternatives function ps) := by
  have chains (forgiving relative : Bool) (h : function ∈ takesChains) :
      Fine Settled.Known ((readList forgiving relative ps).map fun founds =>
        Settled.all ((founds.filter fun f => !f.pseudoElement).map Found.chain)) := by
    refine (fine_readList forgiving relative (sound h)).map fun founds known => ?_
    refine Settled.known_all fun s hs => ?_
    obtain ⟨f, hf, rfl⟩ := List.mem_map.1 hs
    exact known f (List.mem_filter.1 hf).1
  unfold readAlternatives
  split
  · exact chains true false (by decide)
  · exact chains true false (by decide)
  · exact chains false false (by decide)
  · exact chains true true (by decide)
  · exact ⟨[], rfl⟩

end Selector

/-! ## Parts of finished tokens -/

theorem Unfinished.of_suffix {ts us : List Token} (suffix : us <:+ ts) (h : Unfinished us) :
    Unfinished ts := by
  obtain ⟨front, rfl⟩ := suffix
  induction front with
  | nil => exact h
  | cons t front ih => exact ih.cons

theorem tokens_ofTokens (ts : List Token) : (Part.ofTokens ts).map Part.token = ts := by
  induction ts with
  | nil => rfl
  | cons t ts ih =>
    rw [Part.ofTokens, List.map_cons, ih]
    cases t <;> rfl

mutual

/-- A token in finished tokens gives a whole part. -/
theorem Part.whole_ofToken (t : Token) (finished : ¬ Broken t) :
    (Part.ofToken t).Whole := by
  cases t with
  | function name arguments =>
    constructor
    · intro content h
      cases h
    · intro name' arguments' q same counts
      cases same
      cases read : readNth arguments with
      | ok c => exact ⟨c, rfl⟩
      | error missing => exact absurd (.argument counts read) finished
    · refine Selector.fine_readAlternatives fun chains => ?_
      exact Part.sound_ofTokens arguments fun inner =>
        finished (.within chains inner)
  | block bracket content =>
    constructor
    · intro content' same
      cases same
      cases last : endsInBar content with
      | false => rfl
      | true => exact absurd (.brackets last) finished
    · intro name arguments q h
      cases h
    · exact ⟨[], rfl⟩
  | _ =>
    refine ⟨fun content h => ?_, fun name arguments q h => ?_, ⟨[], rfl⟩⟩
    · cases h
    · cases h
termination_by structural t

/-- Finished tokens give sound parts. -/
theorem Part.sound_ofTokens (ts : List Token) (finished : ¬ Unfinished ts) :
    Sound Part.Whole (Part.ofTokens ts) := by
  cases ts with
  | nil => exact ⟨by simp [Part.ofTokens], rfl⟩
  | cons t rest =>
    have first := Part.whole_ofToken t fun broken => finished (.among List.mem_cons_self broken)
    have others := Part.sound_ofTokens rest fun h => finished h.cons
    constructor
    · intro p hp
      obtain rfl | hp := List.mem_cons.1 hp
      · exact first
      · exact others.each p hp
    · rw [tokens_ofTokens]
      cases bar : endsInBar (t :: rest) with
      | false => rfl
      | true => exact absurd (.bar bar) finished
termination_by structural ts

end

/-! ## Branches -/

theorem Chain.fine_ofTokens {ts : List Token} (finished : ¬ Unfinished ts) :
    Fine Settled.Known (Chain.ofTokens ts) := by
  have read := Selector.safe_readChain false (Part.sound_ofTokens ts finished)
  unfold ofTokens
  generalize Selector.readChain false (Part.ofTokens ts) = r at read
  obtain ⟨outcome, rest⟩ := r
  cases outcome with
  | ok found =>
    cases rest with
    | nil => exact read.outcome
    | cons p rest => trivial
  | error why => exact read.outcome.of_error

theorem endsInBar_append {ts more : List Token} (h : more ≠ []) :
    endsInBar (ts ++ more) = endsInBar more := by
  unfold endsInBar
  rw [List.getLast?_append, List.getLast?_eq_some_getLast h, Option.some_or]

namespace Branch

theorem markNesting_cons (t : Token) (ts : List Token) : markNesting (t :: ts) =
    (if isNesting t then [.literal ":", .ident Selector.nestingPseudo] else [t]) ++
      markNesting ts :=
  rfl

theorem markNesting_ne_nil {ts : List Token} (h : ts ≠ []) : markNesting ts ≠ [] := by
  cases ts with
  | nil => exact absurd rfl h
  | cons t ts =>
    rw [markNesting_cons]
    split <;> simp

theorem endsInBar_markNesting {ts : List Token} (h : endsInBar (markNesting ts) = true) :
    endsInBar ts = true := by
  induction ts with
  | nil => exact h
  | cons t rest ih =>
    rw [markNesting_cons] at h
    cases rest with
    | nil =>
      split at h
      · cases h
      · exact h
    | cons t' rest =>
      rw [endsInBar_append (markNesting_ne_nil (List.cons_ne_nil t' rest))] at h
      exact endsInBar_cons (ih h)

/-- Writing `&` as a pseudo-class leaves nothing unfinished. -/
theorem unfinished_of_markNesting {ts : List Token} (h : Unfinished (markNesting ts)) :
    Unfinished ts := by
  cases h with
  | bar last => exact .bar (endsInBar_markNesting last)
  | among mem broken =>
    obtain ⟨t, ht, mem⟩ := List.mem_flatMap.1 mem
    split at mem
    · simp only [List.mem_cons, List.not_mem_nil, or_false] at mem
      obtain rfl | rfl := mem <;> cases broken
    · obtain rfl := List.mem_singleton.1 mem
      exact .among ht broken

theorem unfinished_of_chainTokens {first : Token} {rest : List Token}
    (h : Unfinished (chainTokens first rest)) : Unfinished (first :: rest) := by
  unfold chainTokens at h
  split at h
  · exact h
  · cases h with
    | bar last =>
      cases rest with
      | nil => cases last
      | cons t rest => exact .bar (by simpa [endsInBar, List.getLast?_cons_cons] using last)
    | among mem broken =>
      obtain rfl | mem := List.mem_cons.1 mem
      · cases broken
      · exact .among (List.mem_cons_of_mem first mem) broken
  · exact unfinished_of_markNesting h

/-- A finished branch is read or rejected. -/
theorem fine_ofTokens {ts : List Token} (finished : ¬ Unfinished ts) :
    Fine Settled.Known (Branch.ofTokens ts) := by
  have tokens : ¬ Unfinished (significant ts) :=
    fun h => finished (h.of_suffix (List.dropWhile_suffix _))
  unfold Branch.ofTokens
  split
  · trivial
  · next first rest found =>
    rw [found] at tokens
    split
    · have chain := Chain.fine_ofTokens fun h => tokens (unfinished_of_chainTokens h)
      exact chain.map fun chain known => known.map _
    · split
      · trivial
      · next after _ =>
        have behind : ¬ Unfinished (significant rest) :=
          fun h => tokens (h.of_suffix (List.dropWhile_suffix _)).cons
        have chain : Fine Settled.Known (Chain.ofTokens
            (if (anchoringOf first rest == .contextual) = true then markNesting (significant rest)
              else significant rest)) := by
          split
          · exact Chain.fine_ofTokens fun h => behind (unfinished_of_markNesting h)
          · exact Chain.fine_ofTokens behind
        exact chain.map fun chain known => known.map _

/-- Reading the branch needs one more token. -/
def BreaksOff (ts : List Token) (missing : CutOff) : Prop :=
  Branch.ofTokens ts = .error (.cutOff missing) ∨ Branch.ofTokens ts = .ok (.error missing)

theorem BreaksOff.unfinished {ts : List Token} {missing : CutOff} (h : BreaksOff ts missing) :
    Unfinished ts := by
  refine Classical.byContradiction fun finished => ?_
  have fine := fine_ofTokens finished
  obtain h | h := h
  · rw [h] at fine
    exact fine
  · rw [h] at fine
    obtain ⟨b, known⟩ := fine
    cases known

/-- The branch that these tokens are, if they can be read. -/
def read? (ts : List Token) : Option Branch :=
  match Branch.ofTokens ts with
  | .ok (.ok b) => some b
  | _ => none

/-- What is wrong with these tokens, if they are rejected as a branch. -/
def error? (ts : List Token) : Option String :=
  match Branch.ofTokens ts with
  | .error (.rejected why) => some (Selector.errorText ts why)
  | _ => none

end Branch

namespace Selector

/-- A selector has the branches that can be read and error texts for the others, in their order. -/
structure Gathers (bs : List (List Token)) (selector : Selector) : Prop where
  branches : selector.branches = bs.filterMap Branch.read?
  errors : selector.errors = bs.filterMap Branch.error?
  all : selector.branches.length + selector.errors.length = bs.length

namespace Gathers

variable {bs : List (List Token)} {selector : Selector} {ts : List Token}

/-- A branch that can be read comes first. -/
theorem cons_branch {b : Branch} (h : Gathers bs selector)
    (read : Branch.ofTokens ts = .ok (.ok b)) :
    Gathers (ts :: bs) { selector with branches := b :: selector.branches } where
  branches := by
    have found : Branch.read? ts = some b := by simp [Branch.read?, read]
    rw [List.filterMap_cons_some found, h.branches]
  errors := by
    have none : Branch.error? ts = none := by simp [Branch.error?, read]
    rw [List.filterMap_cons_none none, h.errors]
  all := by
    have all := h.all
    simp only [List.length_cons]
    omega

/-- A branch that is rejected comes first. -/
theorem cons_error {why : Rejection} (h : Gathers bs selector)
    (rejected : Branch.ofTokens ts = .error (.rejected why)) :
    Gathers (ts :: bs) { selector with errors := errorText ts why :: selector.errors } where
  branches := by
    have none : Branch.read? ts = none := by simp [Branch.read?, rejected]
    rw [List.filterMap_cons_none none, h.branches]
  errors := by
    have found : Branch.error? ts = some (errorText ts why) := by simp [Branch.error?, rejected]
    rw [List.filterMap_cons_some found, h.errors]
  all := by
    have all := h.all
    simp only [List.length_cons]
    omega

end Gathers

/-- At a branch that breaks off reading ends. Any other branch adds something to what is gathered
from those behind it. -/
theorem ofBranches_cons (ts : List Token) :
    (∃ missing, Branch.BreaksOff ts missing ∧ ∀ bs, ofBranches (ts :: bs) = .error missing) ∨
      (∀ missing, ¬ Branch.BreaksOff ts missing) ∧ ∃ add : Selector → Selector,
        (∀ bs, ofBranches (ts :: bs) = (ofBranches bs).map add) ∧
          ∀ bs selector, Gathers bs selector → Gathers (ts :: bs) (add selector) := by
  cases outcome : Branch.ofTokens ts with
  | ok branch =>
    cases branch with
    | ok b =>
      refine .inr ⟨by simp [Branch.BreaksOff, outcome],
        fun others => { others with branches := b :: others.branches }, fun bs => ?_,
        fun bs selector gathers => gathers.cons_branch outcome⟩
      simp only [ofBranches, outcome]
      cases ofBranches bs <;> rfl
    | error missing =>
      refine .inl ⟨missing, .inr outcome, fun bs => ?_⟩
      simp only [ofBranches, outcome]
      rfl
  | error failure =>
    cases failure with
    | rejected why =>
      refine .inr ⟨by simp [Branch.BreaksOff, outcome],
        fun others => { others with errors := errorText ts why :: others.errors }, fun bs => ?_,
        fun bs selector gathers => gathers.cons_error outcome⟩
      simp only [ofBranches, outcome]
      cases ofBranches bs <;> rfl
    | cutOff missing =>
      refine .inl ⟨missing, .inl outcome, fun bs => ?_⟩
      simp only [ofBranches, outcome]

/-- Branches are gathered unless one of them breaks off. -/
theorem ofBranches_ends (bs : List (List Token)) :
    (∃ ts ∈ bs, ∃ missing, Branch.BreaksOff ts missing ∧ ofBranches bs = .error missing) ∨
      (∀ ts ∈ bs, ∀ missing, ¬ Branch.BreaksOff ts missing) ∧
        ∃ selector, ofBranches bs = .ok selector ∧ Gathers bs selector := by
  induction bs with
  | nil => exact .inr ⟨by simp, _, rfl, rfl, rfl, rfl⟩
  | cons ts bs ih =>
    obtain ⟨missing, breaks, ends⟩ | ⟨whole, add, adds, gathers⟩ := ofBranches_cons ts
    · exact .inl ⟨ts, List.mem_cons_self, missing, breaks, ends bs⟩
    · rw [adds bs]
      obtain ⟨us, hu, missing, breaks, rest⟩ | ⟨rest, selector, read, gathered⟩ := ih
      · exact .inl ⟨us, List.mem_cons_of_mem ts hu, missing, breaks, by rw [rest]; rfl⟩
      · exact .inr ⟨List.forall_mem_cons.2 ⟨whole, rest⟩, add selector, by rw [read]; rfl,
          gathers bs selector gathered⟩

end Selector

end NestedStyles
