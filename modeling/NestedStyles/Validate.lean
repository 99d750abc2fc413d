import NestedStyles.Match.RuleTree
import NestedStyles.Output.Extract

/-!
# Checks after matching

What a user should know about styles that were matched: selectors without an element, elements whose
tag is not known, and slotted content in a template without a slot. None of these is an error.
-/

namespace NestedStyles

/-- What the checks find. -/
inductive Finding
  /-- An element is rendered with a tag chosen when the page is shown. -/
  | dynamicComponent (tag : String)
  /-- A rule selects no element. `classesOpen` says that some classes of the template are known only
  when the page is shown. -/
  | unmatchedSelector (selector : String) (classesOpen : Bool)
  /-- There is slotted content and no slot. -/
  | slottedWithoutSlot
  deriving DecidableEq, Repr

namespace Finding

/-- The identifier of the kind of finding. -/
def rule : Finding → String
  | dynamicComponent _ => "dynamic-component"
  | unmatchedSelector _ _ => "unmatched-selector"
  | slottedWithoutSlot => "slotted-without-slot"

/-- A tag that is not known is a warning and all else for information. -/
def severity : Finding → Severity
  | dynamicComponent _ => .warning
  | _ => .info

/-- The wording of a finding. -/
def message : Finding → String
  | dynamicComponent tag =>
    "<" ++ tag ++ " :is=\"...\"> renders a dynamic tag; tag-based selectors " ++
      "may not match at runtime. Use class or attribute selectors instead."
  | unmatchedSelector selector classesOpen =>
    "Selector \"" ++ selector ++ "\" matched no elements in the template" ++
      if classesOpen && selector.toList.contains '.' then
        ". Note: some elements use dynamic :class bindings which cannot be " ++
          "matched at compile time"
      else ""
  | slottedWithoutSlot =>
    ":slotted() rules found but template has no <slot> element; " ++
      "the emitted CSS will never apply"

/-- The diagnostic for a finding in a file. -/
def toDiagnostic (file : Option String) (f : Finding) : Diagnostic :=
  ⟨f.rule, f.severity, f.message, Location.ofFile file⟩

end Finding

namespace Validate

/-- The elements with the tag that is decided when the page is shown. -/
def dynamicComponents (cfg : Config) (t : Template) : List Finding :=
  (t.elements.filter fun i => (t.forest.label i).tag == cfg.dynamicComponentTag).map fun _ =>
    .dynamicComponent cfg.dynamicComponentTag

mutual

/-- The rule, if it is to be reported, or else the rules in it that are. -/
def unmatchedRule (isMatched : RulePath → Bool) (path : RulePath) : StyleRule → List StyleRule
  | r@⟨selector, _, _, _, children⟩ =>
    if selector == "&" || isMatched path then unmatchedRules isMatched path 0 children
    else if r.hasContent then [r]
    else []

/-- The rules to be reported among those from the one with index `k` on below the rule at
`path`. -/
def unmatchedRules (isMatched : RulePath → Bool) (path : RulePath) (k : Nat) :
    List StyleRule → List StyleRule
  | [] => []
  | r :: rs =>
    unmatchedRule isMatched (path ++ [k]) r ++ unmatchedRules isMatched path (k + 1) rs

end

/-- The rules with content that selected no element. A `&` rule is never among them, and neither is
a rule inside one that is. -/
def unmatchedSelectors (t : Template) (rules : List StyleRule) (m : Matching) : List Finding :=
  let classesOpen := t.elements.any fun i => (t.forest.label i).hasDynamicClass
  (unmatchedRules m.isMatched [] 0 rules).map fun r => .unmatchedSelector r.selector classesOpen

/-- Slotted content in a template without a slot. -/
def slotted (slotted : List Output.Extracted) (hasSlot : Bool) : List Finding :=
  if slotted.isEmpty || hasSlot then [] else [.slottedWithoutSlot]

/-- All findings about styles that were matched. -/
def all (cfg : Config) (t : Template) (rules : List StyleRule) (m : Matching)
    (extracted : List Output.Extracted) (hasSlot : Bool) : List Finding :=
  dynamicComponents cfg t ++ unmatchedSelectors t rules m ++ slotted extracted hasSlot

end Validate

/-- The message of a build that stops because of errors, if there are any. -/
def failureMessage? (ds : List Diagnostic) : Option String :=
  match ds.filter Diagnostic.isError with
  | [] => none
  | errors =>
    some ("Compilation failed with " ++ toString errors.length ++ " error(s): " ++
      "; ".intercalate (errors.map Diagnostic.text))

end NestedStyles
