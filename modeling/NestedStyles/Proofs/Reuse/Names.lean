import Mathlib.Data.Option.Basic
import Mathlib.Data.List.TakeWhile
import NestedStyles.Block.Sheet
import NestedStyles.Proofs.Reuse.Answers

/-!
# Names that are read

The names of uses and of exports that are read from a text consist of word characters and hyphens.
So there is no `#` in them, and the key of a use that names a file is not the name of an export and
tells which file it is (`keysApart_parse`).
-/

namespace NestedStyles

open Block Text

/-- All characters of the name can stand in names. -/
def Block.IsPlain (name : String) : Prop :=
  ∀ c ∈ name.toList, isNameChar c = true

/-- The names of all uses in the block are plain. -/
def Body.PlainUses (b : Body) : Prop :=
  ∀ u ∈ b.allUses, IsPlain u.name

namespace Block

variable {s rest name : List Char} {cfg : Config} {text : List Char}

theorem isPlain_of_splitName? (h : splitName? s = some (name, rest)) : IsPlain (.ofList name) := by
  cases s with
  | nil => cases h
  | cons c s =>
    rw [splitName?] at h
    split at h
    case isFalse => cases h
    case isTrue word =>
      obtain ⟨rfl, -⟩ := Prod.mk.inj (Option.some.inj h)
      intro d mem
      rw [String.toList_ofList] at mem
      rcases List.mem_cons.1 mem with rfl | mem
      · rw [isNameChar, word, Bool.true_or]
      · exact List.mem_takeWhile_imp mem

theorem isPlain_of_readUse {u : UseDirective} (h : readUse s = some u) : IsPlain u.name := by
  simp only [readUse, Option.bind_eq_bind, Option.bind_eq_some_iff] at h
  obtain ⟨_, -, _, -, ⟨name, rest⟩, named, h⟩ := h
  have plain := isPlain_of_splitName? named
  split at h
  case isTrue =>
    cases h
    exact plain
  case isFalse =>
    simp only [Option.bind_eq_some_iff] at h
    obtain ⟨_, -, _, -, _, -, _, -, _, -, h⟩ := h
    cases h
    exact plain

theorem isPlain_of_readExport {name : String} (h : readExport s = some name) : IsPlain name := by
  simp only [readExport, Option.bind_eq_bind, Option.bind_eq_some_iff] at h
  obtain ⟨_, -, _, -, ⟨name, rest⟩, named, _, -, h⟩ := h
  cases h
  exact isPlain_of_splitName? named

end Block

theorem StyleRule.usesIn_append (rs rs' : List StyleRule) :
    usesIn (rs ++ rs') = usesIn rs ++ usesIn rs' := by
  induction rs with
  | nil => rfl
  | cons r rs ih => rw [List.cons_append, usesIn_cons, ih, usesIn_cons, List.append_assoc]

namespace Body

variable {a b : Body}

theorem plainUses_of_free (free : b.allUses = []) : b.PlainUses := by
  intro u used
  rw [free] at used
  exact absurd used List.not_mem_nil

theorem PlainUses.append (ha : a.PlainUses) (hb : b.PlainUses) : (a ++ b).PlainUses := by
  intro u used
  rw [allUses, uses_append, children_append, StyleRule.usesIn_append] at used
  simp only [List.mem_append] at used
  rcases used with (own | own) | inner | inner
  · exact ha u (List.mem_append_left _ own)
  · exact hb u (List.mem_append_left _ own)
  · exact ha u (List.mem_append_right _ inner)
  · exact hb u (List.mem_append_right _ inner)

/-- A nested rule brings its uses. -/
theorem PlainUses.child (h : b.PlainUses) (selector : String) :
    ({ Body.empty with children := [b.toRule selector] } : Body).PlainUses := by
  intro u used
  have same : ({ Body.empty with children := [b.toRule selector] } : Body).allUses =
      b.allUses := by
    rw [allUses, StyleRule.usesIn_cons, StyleRule.body_toRule, StyleRule.usesIn_nil,
      List.append_nil]
    rfl
  exact h u (same ▸ used)

end Body

namespace Block

variable {s : List Char} {cfg : Config} {text : List Char}

theorem plainUses_ofTrimmed (line : List Char) (number : Nat) :
    ((ContentLine.ofTrimmed line).contribution number).value.PlainUses := by
  cases read : ContentLine.ofTrimmed line with
  | use directive =>
    have found : readUse line = some directive := by
      rw [ContentLine.ofTrimmed] at read
      split at read
      · cases read
      split at read
      · split at read
        · cases read
          assumption
        · cases read
      split at read
      · cases read
      split at read
      · cases read
      · cases read
    intro u used
    obtain rfl := List.mem_singleton.1 used
    exact isPlain_of_readUse found
  | blank | malformedUse | misplacedImport | declaration | classes =>
    exact Body.plainUses_of_free rfl

theorem plainUses_readContent (number : Nat) : (readContent number s).value.PlainUses := by
  rw [readContent]
  generalize lines (stripComments true s) = ls
  induction ls generalizing number with
  | nil => exact Body.plainUses_of_free rfl
  | cons line ls ih => exact (plainUses_ofTrimmed _ number).append (ih (number + 1))

/-- The uses that are read of a block have plain names. -/
theorem plainUses_readBody (start stop : Nat) : (readBody cfg text start stop).value.PlainUses := by
  fun_induction readBody cfg text start stop
  case case1 => exact plainUses_readContent _
  case case2 line header close nested inner after =>
    have inside : nested.value.PlainUses := by
      cases unsupported : unsupportedAtRule? cfg header.selector with
      | some name =>
        simp only [nested, unsupported]
        exact Body.plainUses_of_free rfl
      | none =>
        simp only [nested, unsupported]
        split
        case isTrue => exact Body.plainUses_of_free rfl
        case isFalse => exact inner.child _
    refine (plainUses_readContent line).append ?_
    exact (Body.plainUses_of_free rfl).append (inside.append after)
  case case3 => exact Body.plainUses_of_free rfl

/-- All names of exports and of uses in the file are plain. -/
structure PlainNames (sheet : Stylesheet) : Prop where
  uses : ∀ u ∈ sheet.allUses, IsPlain u.name
  exports : ∀ e ∈ sheet.exports, IsPlain e.name

namespace PlainNames

variable {sheet sheet' : Stylesheet}

theorem nothing : PlainNames .empty :=
  ⟨fun _ mem => absurd mem List.not_mem_nil, fun _ mem => absurd mem List.not_mem_nil⟩

theorem append (h : PlainNames sheet) (h' : PlainNames sheet') : PlainNames (sheet ++ sheet') where
  uses u used := by
    rw [Stylesheet.allUses, Stylesheet.exports_append, Stylesheet.rules_append,
      List.flatMap_append, StyleRule.usesIn_append] at used
    simp only [List.mem_append] at used
    rcases used with (own | other) | own | other
    · exact h.uses u (List.mem_append_left _ own)
    · exact h'.uses u (List.mem_append_left _ other)
    · exact h.uses u (List.mem_append_right _ own)
    · exact h'.uses u (List.mem_append_right _ other)
  exports e mem := by
    rw [Stylesheet.exports_append] at mem
    exact (List.mem_append.1 mem).elim (h.exports e) (h'.exports e)

theorem rule {b : Body} (h : b.PlainUses) (selector : String) :
    PlainNames { Stylesheet.empty with rules := [b.toRule selector] } where
  uses u used := by
    have same : ({ Stylesheet.empty with rules := [b.toRule selector] } : Stylesheet).allUses =
        b.allUses := by
      rw [Stylesheet.allUses, StyleRule.usesIn_cons, StyleRule.body_toRule, StyleRule.usesIn_nil,
        List.append_nil]
      rfl
    exact h u (same ▸ used)
  exports _ mem := absurd mem List.not_mem_nil

theorem exported {b : Body} {name : String} (h : b.PlainUses) (plain : IsPlain name) :
    PlainNames { Stylesheet.empty with exports := [⟨b, name⟩] } where
  uses u used := by
    have same : ({ Stylesheet.empty with exports := [⟨b, name⟩] } : Stylesheet).allUses =
        b.allUses := by
      rw [Stylesheet.allUses, List.flatMap_singleton]
      exact List.append_nil _
    exact h u (same ▸ used)
  exports e mem := by
    obtain rfl := List.mem_singleton.1 mem
    exact plain

end PlainNames

theorem plainNames_readItem {line : Nat} {header : List Char} {body : Reported Body}
    (h : body.value.PlainUses) : PlainNames (readItem line header body).value := by
  rw [readItem]
  split
  case isTrue =>
    cases read : readExport header with
    | some name => exact .exported h (isPlain_of_readExport read)
    | none => exact .nothing
  case isFalse => exact .rule h _

/-- The names that are read of a text are plain. -/
theorem plainNames_readSheet (start : Nat) : PlainNames (readSheet cfg text start).value := by
  fun_induction readSheet cfg text start
  case case1 pos _ rest _ line after =>
    refine .append ?_ after
    rw [readImportLine]
    split
    · exact ⟨fun _ mem => absurd mem List.not_mem_nil, fun _ mem => absurd mem List.not_mem_nil⟩
    · exact .nothing
  case case2 =>
    rw [readStray]
    split
    · exact .nothing
    · exact .nothing
  case case3 pos _ rest _ brace _ _ _ header close item after =>
    have inside : PlainNames item.value := by
      cases unsupported : unsupportedAtRule? cfg header with
      | some name =>
        simp only [item, unsupported]
        exact .nothing
      | none =>
        simp only [item, unsupported]
        exact plainNames_readItem (plainUses_readBody _ _)
    exact PlainNames.nothing.append (inside.append after)
  case case4 => exact .nothing

end Block

namespace Reuse

variable {file : String} {u : UseDirective}

/-- The key of a use that names a file ends in a `#` and a name. -/
theorem toList_keyIn (source : u.source.getD "" ≠ "") : (keyIn file u).toList =
    (pathIn file (u.source.getD "")).toList ++ '#' :: u.name.toList := by
  have key : keyIn file u = pathIn file (u.source.getD "") ++ "#" ++ u.name := by
    unfold keyIn Consumer.keyOf
    split
    case _ bare => exact absurd bare source
    case _ => rfl
  rw [key, String.toList_append, String.toList_append, List.append_assoc]
  rfl

theorem hash_notMem_of_plain {name : String} (plain : IsPlain name) : '#' ∉ name.toList :=
  fun mem => absurd (plain '#' mem) (by decide)

/-- What stands in front of the last `#` of two equal texts is the same. -/
theorem eq_of_append_hash {a b n m : List Char} (same : a ++ '#' :: n = b ++ '#' :: m)
    (hn : '#' ∉ n) (hm : '#' ∉ m) : a = b := by
  rcases List.append_eq_append_iff.1 same with ⟨more, rfl, rest⟩ | ⟨more, rfl, rest⟩
  · cases more with
    | nil => exact (List.append_nil a).symm
    | cons c more =>
      obtain ⟨-, rfl⟩ := List.cons.inj rest
      exact absurd (List.mem_append_right more List.mem_cons_self) hn
  · cases more with
    | nil => exact List.append_nil b
    | cons c more =>
      obtain ⟨-, rfl⟩ := List.cons.inj rest
      exact absurd (List.mem_append_right more List.mem_cons_self) hm

/-- Where names are plain, the key of a use that names a file is like no other. -/
theorem keysApart_of_plain {sheet : Stylesheet} (plain : PlainNames sheet) :
    KeysApart file sheet := by
  intro u used named
  have source : u.source.getD "" ≠ "" := fun bare => named (sourceOf_bare bare)
  have key : '#' ∈ (keyIn file u).toList := by
    rw [toList_keyIn source]
    exact List.mem_append_right _ List.mem_cons_self
  refine ⟨fun i same => ?_, fun u' used' same => ?_⟩
  · obtain ⟨e, found, name⟩ := Option.map_eq_some_iff.1 same
    rw [← name] at key
    exact hash_notMem_of_plain (plain.exports e (List.mem_of_getElem? found)) key
  · by_cases bare : u'.source.getD "" = ""
    · have name : keyIn file u' = u'.name := Consumer.keyOf_bare bare
      rw [← same, name] at key
      exact absurd key (hash_notMem_of_plain (plain.uses u' used'))
    · have texts := congrArg String.toList same
      rw [toList_keyIn source, toList_keyIn bare] at texts
      have paths := eq_of_append_hash texts (hash_notMem_of_plain (plain.uses u' used'))
        (hash_notMem_of_plain (plain.uses u used))
      rw [sourceOf_qualified bare, sourceOf_qualified source, String.toList_inj.1 paths]

/-- So it is in a file that is read. -/
theorem keysApart_parse (file : String) (cfg : Config) (text : String) :
    KeysApart file (Stylesheet.parse cfg text).value :=
  keysApart_of_plain (plainNames_readSheet 0)

end Reuse

end NestedStyles
