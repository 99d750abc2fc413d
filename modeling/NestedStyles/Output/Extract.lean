import NestedStyles.Rule
import NestedStyles.Text.Lines

/-!
# Rules that match no element

A rule on `:slotted()` content speaks of elements of another template, and a rule on a
pseudo-element of a box that is no element. `extract` takes such rules out of the tree, each with
the rules nested in it.
-/

namespace NestedStyles.Output

open Text

/-- A rule taken out of the tree and the selectors of the rules it was nested in, from the top. -/
structure Extracted where
  rule : StyleRule
  path : List String
  deriving DecidableEq, Repr

/-- The selector speaks of slotted content. -/
def isSlotted (selector : String) : Bool :=
  occursIn ":slotted(".toList selector.toList

/-- The selector speaks of a pseudo-element. -/
def isPseudoElement (selector : String) : Bool :=
  occursIn "::".toList selector.toList

/-- The rules left in a tree and those taken out of it. -/
structure Partition where
  kept : List StyleRule
  extracted : List Extracted
  deriving DecidableEq, Repr

mutual

/-- Takes the rules with such a selector out of one rule, which stands at `path`. -/
def extractRule (p : String → Bool) (path : List String) : StyleRule → Partition
  | r@⟨selector, classes, declarations, uses, children⟩ =>
    if p selector then ⟨[], [⟨r, path⟩]⟩
    else
      let inner := extractAll p (path ++ [selector]) children
      ⟨[⟨selector, classes, declarations, uses, inner.kept⟩], inner.extracted⟩

/-- Takes the rules with such a selector out of rules that stand side by side. -/
def extractAll (p : String → Bool) (path : List String) : List StyleRule → Partition
  | [] => ⟨[], []⟩
  | r :: rs =>
    let first := extractRule p path r
    let others := extractAll p path rs
    ⟨first.kept ++ others.kept, first.extracted ++ others.extracted⟩

end

/-- Takes the rules whose selector satisfies `p` out of a rule tree, at any depth. -/
def extract (p : String → Bool) (rules : List StyleRule) : Partition :=
  extractAll p [] rules

end NestedStyles.Output
