import NestedStyles.Proofs.Block.Imports
import NestedStyles.Proofs.Block.Parts

/-!
# Directives in blocks

If a plain space follows the keyword, a line of content that is read as a use adds that use to its
block and nothing else, and one that is read as an `@import` adds nothing and is reported. With any
other white space there the line is a declaration or a line of classes
(`Stylesheet.parse_directive_iff`).
-/

namespace NestedStyles.Block

open Text

variable {cfg : Config} {text s : List Char} {number : Nat}

/-! ## Lines -/

theorem readLines_of_getElem? {ls : List (List Char)} {i : Nat} {l : List Char}
    (here : ls[i]? = some l) (number : Nat) :
    readLines number ls = readLines number (ls.take i) ++
      ((ContentLine.ofTrimmed (trim l)).contribution (number + i) ++
        readLines (number + i + 1) (ls.drop (i + 1))) := by
  obtain ⟨room, rfl⟩ := List.getElem?_eq_some_iff.1 here
  conv_lhs => rw [← List.take_append_drop i ls, List.drop_eq_getElem_cons room]
  rw [readLines_append, readLines, List.length_take_of_le room.le]

theorem headedBy_append_cons (keyword rest : List Char) (c : Char) :
    headedBy keyword (keyword ++ c :: rest) = (c == ' ') := by
  have more : (keyword ++ c :: rest == keyword) = false := by simp
  have spaced : (keyword ++ [' ']).isPrefixOf (keyword ++ c :: rest) = (c == ' ') := by
    rw [Bool.eq_iff_iff, List.isPrefixOf_iff_prefix, List.prefix_append_right_inj,
      List.cons_prefix_cons, beq_iff_eq, eq_comm]
    exact and_iff_left List.nil_prefix
  rw [headedBy, more, spaced, Bool.false_or]

theorem trim_trim (s : List Char) : trim (trim s) = trim s := by
  obtain ⟨u, v, whole, blank, blank'⟩ := exists_trim s
  have trimmed := congrArg trim whole
  rw [trim_append_blank blank', trim_blank_append blank] at trimmed
  exact trimmed.symm

/-- A directive is its keyword, white space and more. -/
theorem exists_cons_of_afterBlanks? {named rest : List Char} (h : afterBlanks? named = some rest) :
    ∃ c more, named = c :: more := by
  cases named with
  | nil => cases h
  | cons c more => exact ⟨c, more, rfl⟩

/-- A line is said to be a use just if a plain space follows the keyword. -/
theorem contribution_use_iff {l : List Char} {d : UseDirective} (read : readUse l = some d) :
    (ContentLine.ofTrimmed (trim l)).contribution number =
        ⟨{ Body.empty with uses := [d] }, []⟩ ↔
      ['@', 'u', 's', 'e', ' '] <+: trim l := by
  have again : readUse (trim l) = some d := by
    rw [readUse, trim_trim]
    exact read
  obtain ⟨c, more, line⟩ : ∃ c more, trim l = ['@', 'u', 's', 'e'] ++ c :: more := by
    simp only [readUse, Option.bind_eq_bind, Option.bind_eq_some_iff] at read
    obtain ⟨named, keyword, rest, parted, -⟩ := read
    obtain ⟨c, more, rfl⟩ := exists_cons_of_afterBlanks? parted
    exact ⟨c, more, after?_eq_some_iff.1 keyword⟩
  have plain : ['@', 'u', 's', 'e', ' '] <+: trim l ↔ c = ' ' := by
    rw [line]
    simp [eq_comm]
  have headed : headedBy ['@', 'u', 's', 'e'] (trim l) = (c == ' ') :=
    line ▸ headedBy_append_cons _ more c
  have noImport : headedBy ['@', 'i', 'm', 'p', 'o', 'r', 't'] (trim l) = false := by
    rw [line]
    rfl
  have nonempty : (trim l).isEmpty = false := by
    rw [line]
    rfl
  rw [plain, ContentLine.ofTrimmed, nonempty, headed, noImport, again]
  constructor
  · intro same
    by_contra other
    rw [beq_false_of_ne other] at same
    have uses := congrArg (fun r => r.value.uses) same
    revert uses
    simp only [Bool.false_eq_true, if_false]
    split <;> simp [ContentLine.contribution, Body.empty]
  · rintro rfl
    rfl

/-- A line is said to be an import just if a plain space follows the keyword. -/
theorem contribution_import_iff {l : List Char} {d : ImportDirective}
    (read : readImport l = some d) :
    (ContentLine.ofTrimmed (trim l)).contribution number =
        ⟨.empty, [⟨.misplacedImport (.ofList (trim l)), number⟩]⟩ ↔
      ['@', 'i', 'm', 'p', 'o', 'r', 't', ' '] <+: trim l := by
  obtain ⟨c, more, line⟩ : ∃ c more, trim l = ['@', 'i', 'm', 'p', 'o', 'r', 't'] ++ c :: more := by
    obtain ⟨i, form, -⟩ := exists_importText read
    obtain ⟨c, gap, cons⟩ := List.exists_cons_of_ne_nil i.space.nonempty
    refine ⟨c, gap ++ (i.list.chars ++ (i.before.chars ++ (['f', 'r', 'o', 'm'] ++
      (i.after.chars ++ (i.path.text ++ i.ending.text))))), ?_⟩
    simp [form, Layout.ImportText.text, cons]
  have plain : ['@', 'i', 'm', 'p', 'o', 'r', 't', ' '] <+: trim l ↔ c = ' ' := by
    rw [line]
    simp [eq_comm]
  have noUse : headedBy ['@', 'u', 's', 'e'] (trim l) = false := by
    rw [line]
    rfl
  have headed : headedBy ['@', 'i', 'm', 'p', 'o', 'r', 't'] (trim l) = (c == ' ') :=
    line ▸ headedBy_append_cons _ more c
  have nonempty : (trim l).isEmpty = false := by
    rw [line]
    rfl
  rw [plain, ContentLine.ofTrimmed, nonempty, headed, noUse]
  constructor
  · intro same
    by_contra other
    rw [beq_false_of_ne other] at same
    have reports := congrArg Reported.reports same
    revert reports
    simp only [Bool.false_eq_true, if_false]
    split <;> simp [ContentLine.contribution]
  · rintro rfl
    rfl

end NestedStyles.Block

namespace NestedStyles

open Text Block

/-- A line of a rule, at any depth, that is read as a use adds the use to the rule and nothing else,
if and only if a plain space follows the keyword. A line that is read as an import is reported and
adds nothing, on the same condition. -/
theorem Stylesheet.parse_directive_iff {cfg : Config} {text s l : List Char} {number i : Nat}
    {put : Reported Body → Reported Stylesheet} (part : ContentPart cfg text number s put)
    (line : (lines (stripComments true s))[i]? = some l) :
    let above := readLines number ((lines (stripComments true s)).take i)
    let below := readLines (number + i + 1) ((lines (stripComments true s)).drop (i + 1))
    (∀ d, readUse l = some d →
      (parse cfg (.ofList text) =
          put (above ++ (⟨{ Body.empty with uses := [d] }, []⟩ ++ below)) ↔
        ['@', 'u', 's', 'e', ' '] <+: trim l)) ∧
    ∀ d, readImport l = some d →
      (parse cfg (.ofList text) =
          put (above ++ (⟨.empty, [⟨.misplacedImport (.ofList (trim l)), number + i⟩]⟩ ++ below)) ↔
        ['@', 'i', 'm', 'p', 'o', 'r', 't', ' '] <+: trim l) := by
  intro above below
  have whole : parse cfg (.ofList text) =
      put (above ++ ((ContentLine.ofTrimmed (trim l)).contribution (number + i) ++ below)) := by
    rw [parse, String.toList_ofList, part.read, readContent, readLines_of_getElem? line]
  have injective : Function.Injective fun r => put (above ++ (r ++ below)) :=
    part.injective.comp ((reported_append_injective body_append_injective above).comp
      (append_reported_injective append_body_injective below))
  constructor
  · intro d read
    rw [whole, ← contribution_use_iff read]
    exact injective.eq_iff
  · intro d read
    rw [whole, ← contribution_import_iff read]
    exact injective.eq_iff

namespace Stylesheet

/-- A rule with a use in which a tab follows the keyword. -/
def tabbed : List Char :=
  ".a \x7b\n@use\tname\n\x7d".toList

/-- The lines of the rule. -/
def tabbedLines : List Char :=
  "\n@use\tname\n".toList

/-- The use is read as two classes. -/
theorem parse_directive_iff_tabbed :
    ∃ put, ContentPart .standard tabbed 1 tabbedLines put ∧
      (lines (stripComments true tabbedLines))[1]? = some "@use\tname".toList ∧
      readUse "@use\tname".toList = some ⟨"name", none⟩ ∧
      parse .standard (.ofList tabbed) ≠
        put (readLines 1 [[]] ++ (⟨{ Body.empty with uses := [⟨"name", none⟩] }, []⟩ ++
          readLines 3 [[]])) ∧
      parse .standard (.ofList tabbed) =
        ⟨{ empty with rules := [⟨".a", ["@use", "name"], [], [], []⟩] }, []⟩ := by
  have starts : skipGap tabbed 0 tabbed.length = 0 := by decide +kernel
  have inside := @InBody.outermost .standard tabbed 0 0 3 _ .start starts (by decide +kernel)
    (by decide +kernel) (by decide +kernel) (by decide +kernel)
  have closed : closing tabbed 3 = 15 := by decide +kernel
  have number : lineAt tabbed (3 + 1) = 1 := by decide +kernel
  have between : slice tabbed (3 + 1) 15 = tabbedLines := by decide +kernel
  rw [closed] at inside
  have part := ContentPart.last inside (by decide) (by decide +kernel)
  rw [number, between] at part
  have parts : lines (stripComments true tabbedLines) = [[], "@use\tname".toList, []] := by
    decide +kernel
  have line : (lines (stripComments true tabbedLines))[1]? = some "@use\tname".toList := by
    rw [parts]
    rfl
  have read : readUse "@use\tname".toList = some ⟨"name", none⟩ := by decide +kernel
  have spaced := (parse_directive_iff part line).1 _ read
  rw [parts] at spaced
  refine ⟨_, part, line, read, fun same => ?_, by decide +kernel⟩
  exact absurd (spaced.1 same) (by decide +kernel)

end Stylesheet

end NestedStyles
