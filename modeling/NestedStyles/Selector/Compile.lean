import NestedStyles.Css.Lexer
import NestedStyles.Selector.Chain

/-!
# Compiling a selector

A selector is cut at its commas into branches. A branch may start with a combinator or with `&`,
and may hold `&` elsewhere. A branch that cannot be read becomes an error text, and the others are
kept.
-/

namespace NestedStyles

open Css

namespace Branch

/-- The token stands for the elements of the enclosing rule. -/
def isNesting (t : Token) : Bool :=
  t.isLiteral "&"

/-- The tokens with each `&` as a pseudo-class. -/
def markNesting (ts : List Token) : List Token :=
  ts.flatMap fun t =>
    if isNesting t then [.literal ":", .ident Selector.nestingPseudo] else [t]

/-- What `&` does in a branch with these tokens. -/
def anchoringOf (first : Token) (rest : List Token) : Anchoring :=
  if rest.any isNesting then .contextual
  else if isNesting first then .anchored
  else .free

/-- The tokens of the chain, where a `&` at the start that anchors it leaves `*` behind. -/
def chainTokens (first : Token) (rest : List Token) : List Token :=
  match anchoringOf first rest with
  | .free => first :: rest
  | .anchored => .literal "*" :: rest
  | .contextual => markNesting (first :: rest)

/-- Reads the tokens of a branch. -/
def ofTokens (ts : List Token) : Except Failure (Settled Branch) :=
  match significant ts with
  | [] => .error (.rejected .emptySelector)
  | first :: rest =>
    let anchoring := anchoringOf first rest
    match Selector.combinator? first with
    | none =>
      (Chain.ofTokens (chainTokens first rest)).map fun chain => chain.map fun c => ⟨c, anchoring⟩
    | some combinator =>
      match significant rest with
      | [] => .error (.rejected (.nothingAfter combinator))
      | rest =>
        (Chain.ofTokens (if anchoring == .contextual then markNesting rest else rest)).map
          fun chain => chain.map fun c => ⟨c.withLeading combinator, anchoring⟩

end Branch

namespace Selector

/-- The tokens between the commas that are in no block. -/
def splitBranches (ts : List Token) : List (List Token) :=
  ts.splitOnP (Token.isLiteral ",")

/-- What is wrong with a branch. -/
def errorText (ts : List Token) (why : Rejection) : String :=
  "\"" ++ String.ofList (Text.trim (writeTokens ts)) ++ "\": " ++ why.message

/-- Reads the branches of a selector. -/
def ofBranches : List (List Token) → Except CutOff Selector
  | [] => .ok ⟨[], []⟩
  | ts :: rest =>
    match Branch.ofTokens ts with
    | .ok branch => do
      let branch ← branch
      let others ← ofBranches rest
      return { others with branches := branch :: others.branches }
    | .error (.rejected why) => do
      let others ← ofBranches rest
      return { others with errors := errorText ts why :: others.errors }
    | .error (.cutOff missing) => .error missing

/-- Reads a selector. -/
def compile (source : String) : Except CutOff Selector :=
  ofBranches (splitBranches (tokenize source.toList))

end Selector

end NestedStyles
