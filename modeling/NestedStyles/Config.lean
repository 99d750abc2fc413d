/-!
# Configuration

The word lists that drive reading and matching, their defaults and their extension.
-/

namespace NestedStyles

/-- The words with a special meaning, each list read as a set. -/
structure Config where
  /-- Element names that are utility classes too: alone before a block they are a class. -/
  ambiguousWords : List String
  /-- Pseudo-classes that only a browser can decide. -/
  runtimePseudoClasses : List String
  /-- At-rules that are skipped with a warning. -/
  unsupportedAtRules : List String
  /-- The tag whose element is chosen when the page is shown. -/
  dynamicComponentTag : String
  deriving DecidableEq, Repr

namespace Config

/-- The configuration in force unless another is given. -/
def standard : Config where
  ambiguousWords :=
    ["flex", "grid", "table", "hidden", "block", "inline", "contents", "fixed", "absolute",
      "relative", "sticky", "static", "visible", "invisible", "collapse"]
  runtimePseudoClasses :=
    ["hover", "focus", "active", "visited", "link", "focus-within", "focus-visible", "checked",
      "disabled", "enabled", "required", "optional", "valid", "invalid", "in-range",
      "out-of-range", "placeholder-shown", "autofill", "read-only", "read-write", "target",
      "scope", "defined", "fullscreen", "modal", "picture-in-picture", "any-link", "local-link",
      "default", "indeterminate"]
  unsupportedAtRules :=
    ["media", "keyframes", "supports", "layer", "container", "font-face", "property", "page",
      "counter-style"]
  dynamicComponentTag := "component"

instance : Inhabited Config := ⟨standard⟩

/-- The word without the marks `mark` in front of it. -/
def withoutMark (mark : Char) (word : String) : String :=
  .ofList (word.toList.dropWhile (· == mark))

/-- The words of both lists, each once if that holds of the first. -/
def union (old new : List String) : List String :=
  new.foldl (fun ws w => ws.insert w) old

/-- Adds words to the three lists. A pseudo-class may be given with its colons and an at-rule with
its `@`. -/
def extend (cfg : Config) (ambiguous runtime unsupported : List String) : Config :=
  { cfg with
    ambiguousWords := union cfg.ambiguousWords ambiguous
    runtimePseudoClasses := union cfg.runtimePseudoClasses (runtime.map (withoutMark ':'))
    unsupportedAtRules := union cfg.unsupportedAtRules (unsupported.map (withoutMark '@')) }

end Config

end NestedStyles
