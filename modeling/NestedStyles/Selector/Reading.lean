import NestedStyles.Css.Nth
import NestedStyles.Selector.Basic

/-!
# Reading selectors from tokens

What the readers of selectors work on and what they give. The arguments of `:is()`, `:where()`,
`:not()` and `:has()` are lists of chains of their own: they are read first, so that every token
comes with what its arguments mean. A reader that rejects a chain leaves the tokens behind those it
has looked at.

A complete chain may still hold an argument `an+b` that is cut off. Whether it does is known when
the chain is read, and counts once the whole selector is.
-/

namespace NestedStyles

open Css

/-- Why a chain cannot be read. -/
inductive Rejection
  | emptySelector
  /-- Nothing follows the combinator at the start. -/
  | nothingAfter (combinator : Combinator)
  /-- A compound is required and this is there. -/
  | noCompound (found : Option Token)
  /-- The chain is complete and this follows. -/
  | leftover (found : Token)
  | undefinedNamespace (name : String)
  | noLocalName (found : Token)
  | noClassName (found : Option Token)
  | noPseudoElement (found : Option Token)
  | unknownPseudoElement (name : String)
  /-- This follows a colon. -/
  | noPseudoClass (found : Option Token)
  | noAttributeName (found : Option Token)
  | noAttributeValue (found : Option Token)
  | noComparison (found : Token)
  | attributeLeftover (found : Token)
  deriving Repr

/-- The wording of a rejection. -/
def Rejection.message : Rejection → String
  | emptySelector => "empty selector"
  | nothingAfter combinator => "expected a selector after '" ++ combinator.text ++ "'"
  | noCompound found =>
    "expected a compound selector, got " ++ (found.map Token.kind).getD "EOF"
  | leftover found => "unexpected " ++ found.kind ++ " token."
  | undefinedNamespace name => "undefined namespace prefix: " ++ name
  | noLocalName found => "expected local name, got " ++ found.kind
  | noClassName found => "Expected a class name, got " ++ Token.textOrNone found
  | noPseudoElement found => "Expected a pseudo-element name, got " ++ Token.textOrNone found
  | unknownPseudoElement name => "Expected a supported pseudo-element, got " ++ name
  | noPseudoClass found => "unexpected " ++ Token.textOrNone found ++ " token."
  | noAttributeName found => "expected attribute name, got " ++ Token.textOrNone found
  | noAttributeValue found =>
    "expected attribute value, got " ++ (found.map Token.kind).getD "None"
  | noComparison found => "expected attribute selector operator, got " ++ found.text
  | attributeLeftover found => "expected ], got " ++ found.kind

/-- Why reading stops: the chain is rejected, or the text is cut off where no rejection is
provided for. -/
inductive Failure
  | rejected (why : Rejection)
  | cutOff (missing : CutOff)
  deriving Repr

/-- A value that is known unless an argument in it is cut off. -/
abbrev Settled := Except CutOff

/-- The values of a list, if all of them are known. -/
def Settled.all {α : Type} : List (Settled α) → Settled (List α)
  | [] => .ok []
  | x :: xs => do return (← x) :: (← all xs)

/-- A token of a selector with the chains its arguments mean. -/
structure Part where
  token : Token
  alternatives : Except Failure (Settled (List Chain))

/-- A token without arguments that are chains. -/
def Part.plain (t : Token) : Part :=
  ⟨t, .ok (.ok [])⟩

/-- What a reader gives: a value or the reason for none, and the parts it has left. -/
structure Reading (α : Type) where
  outcome : Except Failure α
  rest : List Part

/-- The reading of a value followed by the reading of another from the parts that are left. -/
def Reading.andThen {α β : Type} (r : Reading α) (next : α → List Part → Reading β) : Reading β :=
  match r.outcome with
  | .ok a => next a r.rest
  | .error e => ⟨.error e, r.rest⟩

/-- A rejection in front of `rest`. -/
def Reading.reject {α : Type} (why : Rejection) (rest : List Part) : Reading α :=
  ⟨.error (.rejected why), rest⟩

namespace Selector

/-- The first part's token. -/
def peek (ps : List Part) : Option Token :=
  ps.head?.map Part.token

/-- The parts from the first that is not white space. -/
def skipSpace (ps : List Part) : List Part :=
  ps.dropWhile fun p => p.token.isWhitespace

theorem length_skipSpace (ps : List Part) : (skipSpace ps).length ≤ ps.length :=
  (List.dropWhile_sublist _).length_le

end Selector

end NestedStyles
