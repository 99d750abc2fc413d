import NestedStyles.Match.Selection
import NestedStyles.Rule
import NestedStyles.Template.Tree

/-!
# Matching a tree of rules

A rule is applied to the roots of the template, and a nested rule to the children of each element
its enclosing rule has selected. What happens on the way is kept as a trace, from which the classes
and declarations of each element, the rules that matched and the diagnostics are read off.
-/

namespace NestedStyles

/-- The place of a rule in a rule tree: its index at each level, from the top. -/
abbrev RulePath := List Nat

/-- A rule has selected an element. -/
structure Hit where
  path : RulePath
  rule : StyleRule
  element : NodeId
  deriving DecidableEq, Repr

/-- What happens while rules are matched. -/
inductive MatchEvent
  /-- A selector is applied. -/
  | applied (selector : String)
  | hit (hit : Hit)
  deriving DecidableEq, Repr

/-- What happened while rules were matched, in order. -/
structure Matching where
  trace : List MatchEvent
  deriving DecidableEq, Repr

mutual

/-- Matches the rule at `path` in a scope. -/
def matchRule (f : Forest) (cfg : Config) (path : RulePath) (scope : Scope) :
    StyleRule → Except MatchError (List MatchEvent)
  | r@⟨selector, _, _, _, children⟩ => do
    let selected ← selectText f cfg scope selector
    let hits ← selected.mapM fun i => do
      let inner ← matchRules f cfg path 0 ⟨f.children i, some [i]⟩ children
      return .hit ⟨path, r, i⟩ :: inner
    return .applied selector :: hits.flatten

/-- Matches the rules from the one with index `k` on below the rule at `path`. -/
def matchRules (f : Forest) (cfg : Config) (path : RulePath) (k : Nat) (scope : Scope) :
    List StyleRule → Except MatchError (List MatchEvent)
  | [] => .ok []
  | r :: rs => do
    let first ← matchRule f cfg (path ++ [k]) scope r
    let others ← matchRules f cfg path (k + 1) scope rs
    return first ++ others

end

namespace Matching

/-- Nothing happened. -/
def empty : Matching := ⟨[]⟩

/-- Matches a rule tree against a template. -/
def ofRules (t : Template) (cfg : Config) (rules : List StyleRule) : Except MatchError Matching :=
  (matchRules t.forest cfg [] 0 ⟨t.roots, none⟩ rules).map Matching.mk

/-- The rules and the elements they selected, in the order of the rule tree. -/
def hits (m : Matching) : List Hit :=
  m.trace.filterMap fun
    | .hit h => some h
    | .applied _ => none

/-- The selectors that were applied. -/
def appliedSelectors (m : Matching) : List String :=
  m.trace.filterMap fun
    | .hit _ => none
    | .applied selector => some selector

/-- Adds words to those of an element. An element that had none comes after those that had some. -/
def addWords (i : NodeId) (words : List String) :
    List (NodeId × List String) → List (NodeId × List String)
  | [] => [(i, words)]
  | (j, old) :: rest =>
    if i == j then (j, old ++ words) :: rest else (j, old) :: addWords i words rest

/-- What the rules say about each element, in the order of the rule tree. -/
def collect (words : StyleRule → List String) (hits : List Hit) : List (NodeId × List String) :=
  hits.foldl (fun found h =>
    if (words h.rule).isEmpty then found else addWords h.element (words h.rule) found) []

/-- The classes of each element that has any. -/
def classes (m : Matching) : List (NodeId × List String) :=
  collect StyleRule.classes m.hits

/-- The declarations of each element that has any. -/
def declarations (m : Matching) : List (NodeId × List String) :=
  collect StyleRule.declarations m.hits

/-- The classes of an element as one text, each once. -/
def classText (m : Matching) (i : NodeId) : String :=
  " ".intercalate ((m.classes.lookup i).getD []).eraseDups

/-- The rules that selected some element, in the order in which they first did. -/
def matchedRules (m : Matching) : List RulePath :=
  (m.hits.map Hit.path).eraseDups

/-- The rule selected some element. -/
def isMatched (m : Matching) (path : RulePath) : Bool :=
  m.hits.any (·.path == path)

/-- The diagnostics for the selectors that were applied. -/
def diagnostics (file : Option String) (m : Matching) : List Diagnostic :=
  reportSelectors file [] m.appliedSelectors

end Matching

end NestedStyles
