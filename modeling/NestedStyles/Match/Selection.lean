import NestedStyles.Diagnostic
import NestedStyles.Match.Engine
import NestedStyles.Selector.Compile

/-!
# Selecting elements by the text of a selector

A selector is compiled and applied in a scope. The empty selector and `&` stand for the elements of
the enclosing rule. The branches that cannot be read are reported once for each selector text.
-/

namespace NestedStyles

/-- Why a selector cannot be applied. -/
inductive MatchError
  /-- The selector breaks off inside an argument. -/
  | cutOff (missing : Css.CutOff)
  /-- The template's links do not agree. -/
  | stray (node : StrayNode)
  deriving DecidableEq, Repr

/-- The selector stands for the elements of the enclosing rule. -/
def isParentSelector (text : String) : Bool :=
  let trimmed := Text.trim text.toList
  trimmed.isEmpty || trimmed == ['&']

/-- The elements a selector selects in a scope. -/
def selectText (forest : Forest) (config : Config) (scope : Scope) (text : String) :
    Except MatchError (List NodeId) :=
  if isParentSelector text then .ok scope.anchors
  else
    match Selector.compile text with
    | .error missing => .error (.cutOff missing)
    | .ok selector => (selector.select forest config scope).mapError .stray

/-- What is wrong with a selector. -/
def selectorErrors (text : String) : List String :=
  if isParentSelector text then []
  else
    match Selector.compile text with
    | .error _ => []
    | .ok selector => selector.errors

/-- The diagnostic for one error of a selector. -/
def invalidSelector (file : Option String) (error : String) : Diagnostic :=
  ⟨"invalid-selector", .error, "Invalid selector " ++ error, Location.ofFile file⟩

/-- The diagnostics for a selector, and the selectors that have been reported then. -/
def reportSelector (file : Option String) (reported : List String) (text : String) :
    List Diagnostic × List String :=
  let errors := selectorErrors text
  if errors.isEmpty || text ∈ reported then ([], reported)
  else (errors.map (invalidSelector file), text :: reported)

/-- The diagnostics for selectors that are applied one after the other. -/
def reportSelectors (file : Option String) (reported : List String) :
    List String → List Diagnostic
  | [] => []
  | text :: rest =>
    (reportSelector file reported text).1 ++
      reportSelectors file (reportSelector file reported text).2 rest

end NestedStyles
