import NestedStyles.Proofs.Block.CommentedLines
import NestedStyles.Proofs.Block.RoundTrip
import NestedStyles.Proofs.Block.Spans

/-!
# Declarations with strings in them

The lines of a block are declarations in which quoted strings may stand, and in these anything that
would mean something elsewhere: braces, brackets and the delimiters of comments. `declared` is what
such a block says. It is read from the text if and only if no `*/` follows a `/*` in it
(`Stylesheet.parse_declared_iff`): comments are taken out of the text without regard to strings,
while blocks are told with regard to them.
-/

namespace NestedStyles.Layout

open Text Block

variable {cfg : Config}

/-- A span that may stand in a declaration: a string, or a character that is no bracket and no
brace. -/
def IsFlat : Span → Prop
  | .plain c => c ≠ '{' ∧ c ≠ '}'
  | .quoted _ _ => True
  | .opener | .closer | .comment _ | .unended _ _ => False

/-- A line that is a declaration in which strings may stand. -/
structure QuotedDeclaration where
  spans : List Span
  legible : Legible [] spans
  flat : ∀ p ∈ spans, IsFlat p
  noBackslash : '\\' ∉ written spans
  inline : '\n' ∉ written spans
  trimmed : trim (written spans) = written spans
  finished : spans.getLast? = some (.plain ';')
  noUse : headedBy ['@', 'u', 's', 'e'] (written spans) = false
  noImport : headedBy ['@', 'i', 'm', 'p', 'o', 'r', 't'] (written spans) = false

/-- A line of a block, blank or with a declaration. -/
structure Row where
  indent : Gap
  declaration : Option QuotedDeclaration
  trail : Gap

/-- The line as written. -/
def Row.text (r : Row) : List Char :=
  r.indent.chars ++ (r.declaration.elim [] fun d => written d.spans) ++ r.trail.chars

/-- The lines of a block as written. -/
def rowsText (rows : List Row) : List Char :=
  unlines (rows.map Row.text)

/-- The declarations of the lines. -/
def declared (rows : List Row) : List (List Char) :=
  rows.filterMap fun r => r.declaration.map fun d => written d.spans

/-- A rule around others, in a block. -/
structure Surrounding (cfg : Config) where
  start : Break
  selector : NestedSelector cfg
  gap : Blanks
  finish : Blanks

/-- A text inside of rules that are nested in each other. -/
def surround : List (Surrounding cfg) → List Char → List Char
  | [], s => s
  | r :: rs, s =>
    r.start.chars ++ braced r.selector.chars r.gap (surround rs s) ++ r.finish.chars

/-- The content of the rules that are nested in each other, with `b` in the innermost. -/
def nest : List (Surrounding cfg) → Body → Body
  | [], b => b
  | r :: rs, b =>
    { Body.empty with children := [(nest rs b).toRule (.ofList r.selector.chars)] }

end NestedStyles.Layout

namespace NestedStyles.Block

open Text Layout

variable {cfg : Config} {s u v : List Char} {ps : List Span} {rows : List Row} {b b' : Body}

/-! ## What is left without comments -/

/-- A closing delimiter of a comment follows an opening one. -/
def HasComment (s : List Char) : Prop :=
  ∃ front inner back, s = front ++ '/' :: '*' :: (inner ++ '*' :: '/' :: back)

theorem exists_indexOf?_closer (inner back : List Char) :
    ∃ i, indexOf? ['*', '/'] (inner ++ '*' :: '/' :: back) = some i := by
  induction inner with
  | nil => exact ⟨0, rfl⟩
  | cons c inner ih =>
    obtain ⟨i, found⟩ := ih
    rw [List.cons_append, indexOf?, found]
    split
    · exact ⟨0, rfl⟩
    · exact ⟨i + 1, rfl⟩

/-- A comment that does not start a text is behind its first character. -/
theorem HasComment.tail {c : Char} (h : HasComment (c :: s)) (none : splitComment (c :: s) = none) :
    HasComment s := by
  obtain ⟨front, inner, back, whole⟩ := h
  cases front with
  | nil =>
    obtain ⟨i, found⟩ := exists_indexOf?_closer inner back
    rw [whole, List.nil_append, splitComment, found] at none
    cases none
  | cons d front =>
    obtain ⟨-, rfl⟩ := List.cons_eq_cons.1 whole
    exact ⟨front, inner, back, rfl⟩

theorem stripComments_of_noComment (keep : Bool) (no : ¬ HasComment s) :
    stripComments keep s = s := by
  fun_induction stripComments keep s with
  | case1 s comment rest found _ ih =>
    obtain ⟨inner, rfl, -⟩ := eq_of_splitComment found
    exact absurd ⟨[], inner, rest, rfl⟩ no
  | case2 => rfl
  | case3 c rest _ ih =>
    refine congrArg _ (ih fun within => no ?_)
    obtain ⟨front, inner, back, rfl⟩ := within
    exact ⟨c :: front, inner, back, rfl⟩

/-- The number of characters of a text that are no white space. -/
def solids (s : List Char) : Nat :=
  s.countP fun c => !isBlank c

theorem solids_append (u v : List Char) : solids (u ++ v) = solids u + solids v :=
  List.countP_append

theorem solids_cons (c : Char) (s : List Char) : solids (c :: s) = solids [c] + solids s :=
  solids_append [c] s

theorem solids_of_blank (blank : AllBlank s) : solids s = 0 := by
  apply List.countP_eq_zero.2
  intro c mem
  simp [blank c mem]

theorem solids_trim_le (s : List Char) : solids (trim s) ≤ solids s := by
  have shorter : (trimLeft s).Sublist s := List.dropWhile_sublist _
  have trimmed : (trim s).Sublist (trimLeft s) := by
    rw [← List.reverse_sublist, trim, trimRight, List.reverse_reverse]
    exact List.dropWhile_sublist _
  exact (trimmed.trans shorter).countP_le

theorem solids_unlines (ls : List (List Char)) : solids (unlines ls) = solids ls.flatten := by
  induction ls with
  | nil => rfl
  | cons l ls ih =>
    rw [List.flatten_cons, solids_append, ← ih]
    cases ls with
    | nil => simp [unlines, solids]
    | cons m ms =>
      rw [unlines_cons, List.append_cons, solids_append, solids_append,
        solids_of_blank allBlank_newline, Nat.add_zero]

theorem solids_newlines (s : List Char) : solids (s.filter (· == '\n')) = 0 := by
  apply solids_of_blank
  intro c mem
  obtain rfl : c = '\n' := eq_of_beq (List.mem_filter.1 mem).2
  exact isBlank_newline

theorem solids_stripComments_le (s : List Char) : solids (stripComments true s) ≤ solids s := by
  fun_induction stripComments true s with
  | case1 s comment rest found _ ih =>
    rw [← append_of_splitComment found, solids_append, solids_append, if_pos rfl, solids_newlines]
    omega
  | case2 => exact le_rfl
  | case3 c rest _ ih =>
    rw [solids_cons, solids_cons c rest]
    omega

/-- Each comment takes its delimiters with it. -/
theorem solids_stripComments_lt (h : HasComment s) : solids (stripComments true s) < solids s := by
  fun_induction stripComments true s with
  | case1 s comment rest found _ ih =>
    have behind := solids_stripComments_le rest
    obtain ⟨inner, whole, -⟩ := eq_of_splitComment found
    obtain rfl : comment = '/' :: '*' :: (inner ++ ['*', '/']) := by
      rw [comment_append, ← append_of_splitComment found] at whole
      exact List.append_cancel_right whole
    have delimiters : 0 < solids ('/' :: '*' :: (inner ++ ['*', '/'])) := by
      have slash : solids ['/'] = 1 := by decide
      rw [solids_cons, slash]
      omega
    rw [← append_of_splitComment found, solids_append, solids_append, if_pos rfl, solids_newlines]
    omega
  | case2 =>
    obtain ⟨front, inner, back, whole⟩ := h
    simp at whole
  | case3 c rest none ih =>
    have behind := ih (h.tail none)
    rw [solids_cons, solids_cons c rest]
    omega

/-! ## The lines of a block -/

theorem declarations_contribution (number : Nat) (line : List Char) :
    ((ContentLine.ofTrimmed line).contribution number).value.declarations = [] ∨
      ((ContentLine.ofTrimmed line).contribution number).value.declarations = [.ofList line] := by
  unfold ContentLine.ofTrimmed
  split_ifs
  · exact .inl rfl
  · cases readUse line with
    | none => exact .inl rfl
    | some directive => exact .inl rfl
  · exact .inl rfl
  · exact .inr rfl
  · exact .inl rfl

/-- Declarations are parts of the lines they are read from. -/
theorem solids_declarations_le (number : Nat) (ls : List (List Char)) :
    solids ((readLines number ls).value.declarations.flatMap String.toList) ≤
      solids ls.flatten := by
  induction ls generalizing number with
  | nil => exact le_rfl
  | cons l ls ih =>
    have behind := ih (number + 1)
    have own := solids_trim_le l
    rw [readLines, Reported.value_append, Body.declarations_append, List.flatMap_append,
      List.flatten_cons, solids_append, solids_append]
    obtain none | line := declarations_contribution number (trim l)
    · rw [none, List.flatMap_nil, solids_of_blank (List.forall_mem_nil _)]
      omega
    · rw [line, List.flatMap_singleton, String.toList_ofList]
      omega

theorem solids_text (r : Row) :
    solids r.text = solids (r.declaration.elim [] fun d => written d.spans) := by
  rw [Row.text, solids_append, solids_append, solids_of_blank r.indent.blank,
    solids_of_blank r.trail.blank, Nat.zero_add, Nat.add_zero]

theorem solids_rowsText (rows : List Row) :
    solids (rowsText rows) = solids (declared rows).flatten := by
  rw [rowsText, solids_unlines, declared]
  induction rows with
  | nil => rfl
  | cons r rows ih =>
    rw [List.map_cons, List.flatten_cons, solids_append, ih, solids_text, List.filterMap_cons]
    cases r.declaration with
    | none => exact Nat.zero_add _
    | some d => exact (solids_append _ _).symm

/-! ## What the lines say -/

theorem getLast?_declaration (d : QuotedDeclaration) : (written d.spans).getLast? = some ';' := by
  obtain ⟨front, same⟩ := List.getLast?_eq_some_iff.1 d.finished
  rw [same, written_append]
  exact List.getLast?_concat

theorem contribution_declaration (d : QuotedDeclaration) (number : Nat) :
    (ContentLine.ofTrimmed (written d.spans)).contribution number =
      ⟨{ Body.empty with declarations := [.ofList (written d.spans)] }, []⟩ := by
  have nonempty : (written d.spans).isEmpty = false := by
    cases same : written d.spans with
    | nil => cases same ▸ getLast?_declaration d
    | cons => rfl
  rw [ContentLine.ofTrimmed, nonempty, d.noUse, d.noImport, getLast?_declaration]
  rfl

theorem adds_row (r : Row) :
    Adds r.text { Body.empty with declarations := (declared [r]).map .ofList } := by
  obtain ⟨indent, declaration, trail⟩ := r
  cases declaration with
  | none =>
    apply Adds.of_blank
    exact (indent.blank.append (by simp [AllBlank])).append trail.blank
  | some d =>
    refine (Adds.of_line ?_ fun number => ?_).append_blank trail.blank
    · simp [indent.inline, d.inline]
    · rw [trim_blank_append indent.blank]
      exact (congrArg (fun line => (ContentLine.ofTrimmed line).contribution number)
        d.trimmed).trans (contribution_declaration d number)

theorem declared_cons (r : Row) (rows : List Row) :
    declared (r :: rows) = declared [r] ++ declared rows :=
  List.filterMap_append (l := [r])

theorem adds_rows (rows : List Row) :
    Adds (rowsText rows) { Body.empty with declarations := (declared rows).map .ofList } := by
  induction rows with
  | nil => exact .nil
  | cons r rows ih =>
    cases rows with
    | nil =>
      rw [rowsText, List.map_singleton, unlines, List.intercalate_singleton]
      exact adds_row r
    | cons r' rows =>
      have both := (adds_row r).newline ih
      rw [declared_cons, List.map_append]
      rw [rowsText, List.map_cons, List.map_cons, unlines_cons, ← List.map_cons]
      exact both

/-- What the lines say is read from them just if no delimiters in them make up a comment. -/
theorem readContent_rows_iff (rows : List Row) (number : Nat) :
    readContent number (rowsText rows) =
        ⟨{ Body.empty with declarations := (declared rows).map .ofList }, []⟩ ↔
      ¬ HasComment (rowsText rows) := by
  constructor
  · intro same within
    have fewer := solids_stripComments_lt within
    have read := solids_declarations_le number (lines (stripComments true (rowsText rows)))
    rw [← readContent, same, ← solids_unlines, unlines_lines] at read
    change solids (((declared rows).map String.ofList).flatMap String.toList) ≤ _ at read
    have all : ((declared rows).map String.ofList).flatMap String.toList =
        (declared rows).flatten := by
      rw [List.flatMap_map, List.flatten_eq_flatMap]
      exact List.flatMap_congr fun d _ => String.toList_ofList
    rw [all, ← solids_rowsText] at read
    omega
  · intro no
    rw [readContent, stripComments_of_noComment true no]
    exact adds_rows rows number

/-! ## Blocks with such lines -/

theorem bracketsBehind?_flat (flat : ∀ p ∈ ps, IsFlat p) : bracketsBehind? 0 ps = some 0 := by
  induction ps with
  | nil => rfl
  | cons p ps ih =>
    obtain ⟨own, more⟩ := List.forall_mem_cons.1 flat
    cases p with
    | plain | quoted => exact ih more
    | opener | closer | comment | unended => exact own.elim

theorem visible_flat (flat : ∀ p ∈ ps, IsFlat p) : ∀ c ∈ visible 0 ps, c ≠ '{' ∧ c ≠ '}' := by
  induction ps with
  | nil => exact List.forall_mem_nil _
  | cons p ps ih =>
    obtain ⟨own, more⟩ := List.forall_mem_cons.1 flat
    cases p with
    | plain c => exact List.forall_mem_cons.2 ⟨own, ih more⟩
    | quoted => exact ih more
    | opener | closer | comment | unended => exact own.elim

theorem skips_row {t : Char} (brace : t = '}' ∨ t = '{') (r : Row) : Skips t r.text := by
  obtain ⟨indent, declaration, trail⟩ := r
  have blank {u : List Char} (h : AllBlank u) : Skips t u := .of_blank brace h
  refine ((blank indent.blank).append ?_ (.of_blank_left indent.blank)).append (blank trail.blank)
    (.of_blank_right trail.blank)
  cases declaration with
  | none => exact blank (by simp [AllBlank])
  | some d =>
    exact .of_spans brace d.legible (fun quote inner mem => d.flat _ mem)
      (fun p mem => endsPlainly_of_noBackslash d.noBackslash mem) (bracketsBehind?_flat d.flat)
      (passes?_braceless brace (visible_flat d.flat))

theorem skips_rows {t : Char} (brace : t = '}' ∨ t = '{') (rows : List Row) :
    Skips t (rowsText rows) := by
  induction rows with
  | nil => exact .of_blank brace (by simp [AllBlank, rowsText, unlines])
  | cons r rows ih =>
    cases rows with
    | nil =>
      rw [rowsText, List.map_singleton, unlines, List.intercalate_singleton]
      exact skips_row brace r
    | cons r' rows =>
      have below : Skips t (['\n'] ++ rowsText (r' :: rows)) :=
        .append (.of_blank brace allBlank_newline) ih (.of_blank_left allBlank_newline)
      rw [rowsText, List.map_cons, List.map_cons, unlines_cons, ← List.map_cons]
      exact (skips_row brace r).append below (.of_head (by simp))

theorem skips_surround (rs : List (Surrounding cfg)) (h : Skips '}' s) :
    Skips '}' (surround rs s) := by
  induction rs with
  | nil => exact h
  | cons r rs ih =>
    have header := (isSelector_text r.selector.toSelectorText).toIsHeader
    have block : Skips '}' (r.start.chars ++ braced r.selector.chars r.gap (surround rs s)) :=
      .append (.of_blank (.inl rfl) r.start.blank) (skips_braced r.gap header ih)
        (.of_blank_left r.start.blank)
    exact block.append (.of_blank (.inl rfl) r.finish.blank) (.of_blank_right r.finish.blank)

theorem reported_append_nothing {α : Type} [Append α] {x : α} (h : ∀ y : α, y ++ x = y)
    (r : Reported α) : r ++ ⟨x, []⟩ = r := by
  show Reported.mk (r.value ++ x) (r.reports ++ []) = r
  rw [h, List.append_nil]

/-- Of rules that are nested in each other the innermost says what its lines say. -/
theorem readBody_surround (pre rest : List Char) (rs : List (Surrounding cfg)) (opens : Skips '{' s)
    (closes : Skips '}' s) :
    ∃ number, readBody cfg (pre ++ surround rs s ++ '}' :: rest) pre.length
      (pre ++ surround rs s).length = (readContent number s).map (nest rs) := by
  induction rs generalizing pre rest with
  | nil =>
    cases s with
    | nil =>
      refine ⟨0, ?_⟩
      rw [readBody_of_le (by simp [surround]), Content.nil.readContent]
      rfl
    | cons c s =>
      refine ⟨lineAt (pre ++ (c :: s) ++ '}' :: rest) pre.length, ?_⟩
      rw [surround, readBody_of_none (by simp) (by simp) (find?_none opens), slice_append]
      rfl
  | cons r rs ih =>
    have selector := isSelector_text r.selector.toSelectorText
    obtain ⟨line, front, back, read⟩ := @exists_readBody_block cfg _ _ _ pre rest _ r.finish.chars
      .nil selector.toIsHeader r.start r.gap r.selector.proper (skips_surround rs closes)
    obtain ⟨number, inner⟩ := ih front (r.finish.chars ++ '}' :: rest)
    have ended : Content ([] ++ r.finish.chars) .empty := Content.nil.append_blank r.finish.blank
    rw [List.nil_append] at ended read
    rw [readBody_last ended, nested_selector selector, inner] at read
    refine ⟨number, read.trans ?_⟩
    rw [reported_nothing_append Body.empty_append]
    exact reported_append_nothing Body.append_empty _

theorem nest_injective (rs : List (Surrounding cfg)) (h : nest rs b = nest rs b') : b = b' := by
  induction rs with
  | nil => exact h
  | cons r rs ih =>
    have rule := List.singleton_inj.1 (congrArg Body.children h)
    exact ih (congrArg StyleRule.body rule)

theorem reported_map_eq_iff {α β : Type} {f : α → β} {r : Reported α} {x : α}
    (injective : ∀ y, f y = f x → y = x) : r.map f = ⟨f x, []⟩ ↔ r = ⟨x, []⟩ := by
  obtain ⟨value, reports⟩ := r
  constructor
  · intro same
    obtain rfl : value = x := injective _ (congrArg Reported.value same)
    obtain rfl : reports = [] := congrArg Reported.reports same
    rfl
  · intro same
    rw [same]
    rfl

end NestedStyles.Block

namespace NestedStyles

open Layout Block

theorem Stylesheet.append_empty (s : Stylesheet) : s ++ empty = s := by
  show Stylesheet.mk (s.rules ++ []) (s.exports ++ []) (s.imports ++ []) = s
  rw [List.append_nil, List.append_nil, List.append_nil]

/-- The declarations of a rule, nested in any others, are read as they are written, and nothing is
reported, if and only if no `*/` follows a `/*` in the lines of the rule. -/
theorem Stylesheet.parse_declared_iff (cfg : Config) (selector : SelectorText) (gap : Blanks)
    (rs : List (Surrounding cfg)) (rows : List Row) :
    Stylesheet.parse cfg (.ofList (braced selector.chars gap (surround rs (rowsText rows)))) =
        ⟨{ Stylesheet.empty with
            rules := [(nest rs { Body.empty with
              declarations := (declared rows).map .ofList }).toRule (.ofList selector.chars)] }, []⟩ ↔
      ¬ HasComment (rowsText rows) := by
  let rule (b : Body) : Stylesheet :=
    { Stylesheet.empty with rules := [(nest rs b).toRule (.ofList selector.chars)] }
  have isSelector := isSelector_text selector
  obtain ⟨line, front, back, read⟩ := exists_readSheet_block cfg [] []
    (.of_blank (u := []) (List.forall_mem_nil _)) (heads_selector isSelector gap)
    (skips_surround rs (skips_rows (.inl rfl) rows))
  obtain ⟨number, inner⟩ := readBody_surround front [] rs (skips_rows (.inr rfl) rows)
    (skips_rows (.inl rfl) rows)
  have whole : Stylesheet.parse cfg
      (.ofList (braced selector.chars gap (surround rs (rowsText rows)))) =
        (readContent number (rowsText rows)).map rule := by
    have ended : readSheet cfg (back ++ []) back.length = ⟨.empty, []⟩ := by
      apply readSheet_of_end rfl
      rw [List.append_nil]
      exact le_skipGap back back.length back.length
    rw [ended, inner, outermost_selector isSelector, List.nil_append, List.nil_append,
      List.append_nil] at read
    rw [parse, String.toList_ofList]
    exact read.trans (reported_append_nothing Stylesheet.append_empty _)
  have injective (b b' : Body) (same : rule b = rule b') : b = b' := by
    have equal := List.singleton_inj.1 (congrArg Stylesheet.rules same)
    exact nest_injective rs (congrArg StyleRule.body equal)
  rw [whole, ← readContent_rows_iff rows number]
  exact reported_map_eq_iff fun b => injective b _

/-- A declaration with a brace in its string. -/
def Layout.braceInString : QuotedDeclaration where
  spans := [.plain 'a', .plain ':', .quoted '"' ['}'], .plain ';']
  legible := .plain rfl rfl (.plain rfl rfl
    (.quoted rfl (.char (by decide) (by decide) .nil) (.plain rfl rfl .nil)))
  flat := by simp [IsFlat]
  noBackslash := by decide
  inline := by decide
  trimmed := by decide
  finished := rfl
  noUse := by decide
  noImport := by decide

/-- A declaration with a comment in its string. -/
def Layout.commentInString : QuotedDeclaration where
  spans := [.plain 'b', .plain ':', .quoted '"' ['/', '*', '*', '/'], .plain ';']
  legible := by
    have escaped : Escaped '"' ['/', '*', '*', '/'] :=
      .char (by decide) (by decide) (.char (by decide) (by decide)
        (.char (by decide) (by decide) (.char (by decide) (by decide) .nil)))
    exact .plain rfl rfl (.plain rfl rfl (.quoted rfl escaped (.plain rfl rfl .nil)))
  flat := by simp [IsFlat]
  noBackslash := by decide
  inline := by decide
  trimmed := by decide
  finished := rfl
  noUse := by decide
  noImport := by decide

theorem Stylesheet.parse_declared_iff_strings :
    parse .standard ".a \x7b\n&:hover \x7b\na:\"\x7d\";\n\n\x7d\n\x7d" =
        ⟨⟨[⟨".a", [], [], [], [⟨"&:hover", [], ["a:\"\x7d\";"], [], []⟩]⟩], [], []⟩, []⟩ ∧
      parse .standard ".a \x7b\n&:hover \x7b\na:\"\x7d\";\nb:\"/**/\";\n\x7d\n\x7d" ≠
        ⟨⟨[⟨".a", [], [], [], [⟨"&:hover", [], ["a:\"\x7d\";", "b:\"/**/\";"], [], []⟩]⟩], [], []⟩,
          []⟩ := by
  let selector : SelectorText :=
    ⟨['.', 'a'], by decide, by constructor <;> decide +kernel, by decide, by decide⟩
  let hover : NestedSelector .standard :=
    ⟨⟨"&:hover".toList, by decide, by constructor <;> decide +kernel, by decide, by decide⟩,
      by decide +kernel⟩
  let space : Blanks := ⟨[' '], by decide⟩
  let line : Blanks := ⟨['\n'], by decide⟩
  let inHover : Surrounding .standard := ⟨⟨line, by decide⟩, hover, space, line⟩
  let none : Gap := ⟨[], by decide, by decide⟩
  let row (d : Option QuotedDeclaration) : Row := ⟨none, d, none⟩
  let brace := [row .none, row braceInString, row .none, row .none]
  let comment := [row .none, row braceInString, row commentInString, row .none]
  have apart : ¬ HasComment (rowsText brace) := by
    rintro ⟨front, inner, back, whole⟩
    have opener : ['/', '*'] <:+: rowsText brace :=
      ⟨front, inner ++ '*' :: '/' :: back, by rw [whole, List.append_assoc]; rfl⟩
    exact absurd opener (by decide)
  have within : HasComment (rowsText comment) :=
    ⟨"\na:\"\x7d\";\nb:\"".toList, [], "\";\n".toList, by decide⟩
  have read := (parse_declared_iff .standard selector space [inHover] brace).2 apart
  have misread := mt (parse_declared_iff .standard selector space [inHover] comment).1
    (not_not.2 within)
  exact ⟨read, misread⟩

end NestedStyles
