import NestedStyles.Output.Css
import NestedStyles.Reuse.Inline
import NestedStyles.Validate

/-!
# Compiling styles for a template

The whole way from the style blocks of a component and its template to the classes and declarations
of each element and the CSS for what classes cannot express.
-/

namespace NestedStyles

open Reuse

/-- Why a compilation cannot be finished. -/
inductive CompileFault
  | undecodable (file : Undecodable)
  | unmatched (why : MatchError)
  deriving DecidableEq, Repr

/-- What is compiled. -/
structure Component where
  /-- The path of the component. -/
  file : String
  /-- The texts of its style blocks. -/
  sources : List String
  template : Template
  /-- The template has a slot. -/
  hasSlot : Bool

/-- What a compilation gives. -/
structure Compiled where
  /-- The rules that are matched against the template. -/
  rules : List StyleRule
  matching : Matching
  /-- The rules that match no element: first those on slotted content, then those on
  pseudo-elements. -/
  extracted : List Output.Extracted
  css : Option String
  /-- The files whose exports were asked for. -/
  dependencies : List String
  diagnostics : List Diagnostic

namespace Component

/-- The style blocks of a component as one stylesheet, and the faults in them. -/
def parse (cfg : Config) (c : Component) : Block.Reported Stylesheet :=
  (c.sources.map (Stylesheet.parse cfg)).foldl (· ++ ·) ⟨.empty, []⟩

/-- Parts of the CSS as one text, if there are any. -/
def joinCss (parts : List (Option String)) : Option String :=
  Output.joined (parts.filterMap id)

/-- The steps after resolution, which need no other file. `earlier` are the diagnostics so far. -/
def finish (cfg : Config) (c : Component) (r : Resolution) (earlier : List Diagnostic) :
    Except MatchError Compiled := do
  let slotted := Output.extract Output.isSlotted r.sheet.rules
  let pseudo := Output.extract Output.isPseudoElement slotted.kept
  let matching ← Matching.ofRules c.template cfg pseudo.kept
  let findings := Validate.all cfg c.template pseudo.kept matching slotted.extracted c.hasSlot
  return {
    rules := pseudo.kept
    matching := matching
    extracted := slotted.extracted ++ pseudo.extracted
    css := joinCss [Output.scopedCss pseudo.kept, Output.applyCss slotted.extracted,
      Output.applyCss pseudo.extracted]
    dependencies := r.dependencies
    diagnostics := earlier ++ matching.diagnostics (some c.file) ++
      findings.map (·.toDiagnostic (some c.file)) }

/-- Compiles a component. `load` makes the exports of other files known. -/
def compile (cfg : Config) (load : String → SessionM Unit) (c : Component) :
    ExceptT CompileFault (StateM Session) Compiled := fun s =>
  let parsed := c.parse cfg
  let start := s.log (parsed.reports.map (.misread c.file))
  match (parsed.value.resolve ⟨c.file, load⟩ true) start with
  | (.error e, later) => (.error (.undecodable e), later)
  | (.ok r, later) =>
    let events := later.journal.drop s.journal.length
    ((c.finish cfg r (diagnostics events)).mapError .unmatched, later)

end Component

end NestedStyles
