import NestedStyles.Proofs.Block.Findings
import NestedStyles.Proofs.Block.Imports
import NestedStyles.Proofs.Block.Parts

/-!
# Selectors over several lines

A list of selectors may be laid out with a selector on each line (`SelectorList`). A rule outside of
all others gets the whole list for its selector. So does a nested rule, below any lines of content,
unless a blank line or a comment on a line of its own stands between two of the selectors: the
selectors above it are read as content then (`Stylesheet.parse_listed_iff`).
-/

namespace NestedStyles.Layout

open Text Block

/-- A selector of a list. -/
structure ListedSelector where
  chars : List Char
  nonempty : chars ≠ []
  trimmed : trim chars = chars
  inline : '\n' ∉ chars
  noOpener : ¬ ['/', '*'] <:+: chars
  noDirective : '@' ∉ chars

/-- A comment on one line. -/
structure LineComment where
  inner : List Char
  closed : ¬ ['*', '/'] <:+: inner
  inline : '\n' ∉ inner

/-- The comment as written, with white space in front. -/
def remark : Gap × LineComment → List Char
  | (gap, comment) => gap.chars ++ '/' :: '*' :: (comment.inner ++ ['*', '/'])

/-- Comments on one line and the white space around them, if there are any. -/
structure Remarks where
  comments : List (Gap × LineComment)
  trail : Gap

/-- The comments as written. -/
def Remarks.text (r : Remarks) : List Char :=
  r.comments.flatMap remark ++ r.trail.chars

/-- A selector of a list that is not its last, with all that stands in front of the next one: a
comma, comments behind it, further lines without selectors, and the indentation. -/
structure ListedLine where
  selector : ListedSelector
  gap : Gap
  behind : Remarks
  between : List Remarks
  indent : Gap

namespace ListedLine

/-- The line of the selector. -/
def own (l : ListedLine) : List Char :=
  l.selector.chars ++ (l.gap.chars ++ ',' :: l.behind.text)

/-- The line of the selector and the lines without selectors below it. -/
def front (l : ListedLine) : List Char :=
  l.own ++ l.between.flatMap fun r => '\n' :: r.text

/-- The text up to the next selector. -/
def text (l : ListedLine) : List Char :=
  l.front ++ '\n' :: l.indent.chars

end ListedLine

/-- A list of two or more selectors, each on a line of its own. -/
structure SelectorList where
  first : ListedLine
  more : List ListedLine
  last : ListedSelector

/-- The selectors that the commas of a text part, without white space around them. -/
def commaParts (s : List Char) : List (List Char) :=
  (s.splitOn ',').map trim

namespace SelectorList

/-- The lines of the list but the last. -/
def lines (l : SelectorList) : List ListedLine :=
  l.first :: l.more

/-- The list as written. -/
def text (l : SelectorList) : List Char :=
  l.lines.flatMap ListedLine.text ++ l.last.chars

/-- The selectors that are listed. A comma may be part of a selector, too. -/
def parts (l : SelectorList) : List (List Char) :=
  l.lines.flatMap (fun line => commaParts line.selector.chars) ++ commaParts l.last.chars

/-- There is nothing but selectors on the lines, and comments behind them. -/
def Dense (l : SelectorList) : Prop :=
  ∀ line ∈ l.lines, line.between = []

end SelectorList

theorem ListedSelector.exists_cons (selector : ListedSelector) :
    ∃ c more, selector.chars = c :: more ∧ c ≠ '@' := by
  obtain ⟨c, more, cons⟩ := List.exists_cons_of_ne_nil selector.nonempty
  exact ⟨c, more, cons, fun same => selector.noDirective (cons ▸ same ▸ List.mem_cons_self)⟩

theorem SelectorList.exists_cons (l : SelectorList) :
    ∃ c more, l.text = c :: more ∧ c ≠ '@' := by
  obtain ⟨c, more, cons, noDirective⟩ := l.first.selector.exists_cons
  have starts : l.text.head? = some c := by
    simp [SelectorList.text, SelectorList.lines, ListedLine.text, ListedLine.front, ListedLine.own,
      cons]
  obtain ⟨more', cons'⟩ := List.head?_eq_some_iff.1 starts
  exact ⟨c, more', cons', noDirective⟩

end NestedStyles.Layout

namespace NestedStyles.Block

open Text Layout

variable {cfg : Config} {s t u v front : List Char} {ls : List ListedLine} {last : ListedSelector}

/-! ## Commas -/

theorem commaParts_comma (s t : List Char) :
    commaParts (s ++ ',' :: t) = commaParts s ++ commaParts t := by
  rw [commaParts, List.splitOn_append_cons_self, List.map_append]
  rfl

theorem commaParts_append_blank (blank : AllBlank u) (s : List Char) :
    commaParts (s ++ u) = commaParts s :=
  map_trim_splitOn_append_blank blank s

theorem commaParts_blank_append (blank : AllBlank u) (s : List Char) :
    commaParts (u ++ s) = commaParts s := by
  have single {s : List Char} (noComma : ',' ∉ s) : commaParts (u ++ s) = commaParts s := by
    have noComma' : ',' ∉ u ++ s := by
      simp [noComma, comma_notMem_blank blank]
    rw [commaParts, commaParts, List.splitOn_eq_singleton noComma,
      List.splitOn_eq_singleton noComma', List.map_singleton, List.map_singleton,
      trim_blank_append blank]
  by_cases comma : ',' ∈ s
  · obtain ⟨front, behind, rfl, noComma⟩ := List.eq_append_cons_of_mem comma
    rw [← List.append_assoc, commaParts_comma, commaParts_comma, single noComma]
  · exact single comma

theorem commaParts_trim (s : List Char) : commaParts (trim s) = commaParts s := by
  obtain ⟨u, v, whole, blank, blank'⟩ := exists_trim s
  conv_rhs => rw [whole, commaParts_append_blank blank', commaParts_blank_append blank]

theorem commaParts_ne_nil (s : List Char) : commaParts s ≠ [] := by
  simp [commaParts, List.splitOn_ne_nil]

/-! ## Comments on a line -/

theorem apart_remarks (u : List Char) (r : Remarks) : Apart u r.text := by
  obtain ⟨comments, trail⟩ := r
  cases comments with
  | nil => exact .of_blank_right trail.blank
  | cons c comments =>
    obtain ⟨gap, comment⟩ := c
    rw [Remarks.text, List.flatMap_cons, remark, List.append_assoc, List.append_assoc]
    exact .blank_append gap.blank (by simp)

theorem strips_remarks (r : Remarks) : ∃ v, AllBlank v ∧ Strips false r.text v := by
  obtain ⟨comments, trail⟩ := r
  induction comments with
  | nil => exact ⟨trail.chars, trail.blank, .of_blank trail.blank⟩
  | cons c comments ih =>
    obtain ⟨gap, comment⟩ := c
    obtain ⟨v, blank, strips⟩ := ih
    have own : Strips false ('/' :: '*' :: (comment.inner ++ ['*', '/'])) [] :=
      .comment comment.closed
    have behind := own.append strips (apart_remarks _ ⟨comments, trail⟩)
    refine ⟨gap.chars ++ v, gap.blank.append blank, ?_⟩
    rw [Remarks.text, List.flatMap_cons, remark, List.append_assoc, List.append_assoc]
    exact (Strips.of_blank gap.blank).append behind (.of_blank_left gap.blank)

theorem inline_remarks (r : Remarks) : '\n' ∉ r.text := by
  obtain ⟨comments, trail⟩ := r
  simp only [Remarks.text, List.mem_append, List.mem_flatMap, not_or, not_exists, not_and]
  refine ⟨fun (gap, comment) _ => ?_, trail.inline⟩
  simp [remark, gap.inline, comment.inline]

/-! ## Lines of a list -/

theorem bareLine_blank_append (blank : AllBlank u) (strips : Strips false s t) :
    bareLine (u ++ s) = trim t := by
  rw [bareLine_eq ((Strips.of_blank blank).append strips (.of_blank_left blank)),
    trim_blank_append blank]

theorem inline_own (l : ListedLine) : '\n' ∉ l.own := by
  simp [ListedLine.own, l.selector.inline, l.gap.inline, inline_remarks]

/-- Without its comments, the line of a selector is the selector and a comma. -/
theorem strips_own (l : ListedLine) : ∃ v, AllBlank v ∧
    Strips false l.own (l.selector.chars ++ (l.gap.chars ++ ',' :: v)) := by
  obtain ⟨v, blank, strips⟩ := strips_remarks l.behind
  have comma : Strips false ([','] ++ l.behind.text) ([','] ++ v) :=
    Strips.append (.of_noOpener (by decide)) strips (.of_last (by simp))
  have spaced : Strips false (l.gap.chars ++ ([','] ++ l.behind.text))
      (l.gap.chars ++ ([','] ++ v)) :=
    (Strips.of_blank l.gap.blank).append comma (.of_blank_left l.gap.blank)
  have next : Apart l.selector.chars (l.gap.chars ++ ([','] ++ l.behind.text)) := by
    apply Apart.blank_append l.gap.blank
    simp
  exact ⟨v, blank, (Strips.of_noOpener l.selector.noOpener).append spaced next⟩

theorem getLast?_bareLine_own (blank : AllBlank u) (l : ListedLine) :
    (bareLine (u ++ l.own)).getLast? = some ',' := by
  obtain ⟨v, blank', strips⟩ := strips_own l
  have whole : l.selector.chars ++ (l.gap.chars ++ ',' :: v) =
      l.selector.chars ++ l.gap.chars ++ [','] ++ v := by
    simp
  rw [bareLine_blank_append blank strips, whole, trim_append_blank blank',
    getLast?_trim (by decide)]

theorem bareLine_remarks (r : Remarks) : bareLine r.text = [] := by
  obtain ⟨v, blank, strips⟩ := strips_remarks r
  rw [bareLine_eq strips, trim_of_allBlank blank]

theorem strips_between (rs : List Remarks) {own own' : List Char} (strips : Strips false own own') :
    ∃ v, AllBlank v ∧ Strips false (own ++ rs.flatMap fun r => '\n' :: r.text) (own' ++ v) := by
  induction rs generalizing own own' with
  | nil => exact ⟨[], allBlank_nil, by simpa using strips⟩
  | cons r rs ih =>
    obtain ⟨v, blank, strips'⟩ := strips_remarks r
    obtain ⟨v', blank', further⟩ := ih (strips.newline strips')
    have below : AllBlank ('\n' :: v) := List.forall_mem_cons.2 ⟨isBlank_newline, blank⟩
    refine ⟨'\n' :: v ++ v', below.append blank', ?_⟩
    simpa using further

/-- Without its comments, a line of a list is the selector, a comma and white space. -/
theorem strips_line (l : ListedLine) (strips : Strips false s t) : ∃ v, AllBlank v ∧
    Strips false (l.text ++ s) (l.selector.chars ++ (l.gap.chars ++ ',' :: (v ++ t))) := by
  obtain ⟨v, blank, own⟩ := strips_own l
  obtain ⟨v', blank', front⟩ := strips_between l.between own
  have indented : Strips false (l.indent.chars ++ s) (l.indent.chars ++ t) :=
    (Strips.of_blank l.indent.blank).append strips (.of_blank_left l.indent.blank)
  have whole := front.newline indented
  refine ⟨v ++ (v' ++ '\n' :: l.indent.chars), blank.append (blank'.append
    (List.forall_mem_cons.2 ⟨isBlank_newline, l.indent.blank⟩)), ?_⟩
  simpa [ListedLine.text, ListedLine.front] using whole

/-- Without its comments, a list starts with its first selector, and its commas part the
selectors. -/
theorem strips_list (ls : List ListedLine) (last : ListedSelector) (blank : AllBlank v) :
    ∃ (first : ListedSelector) (more : List Char),
      Strips false (ls.flatMap ListedLine.text ++ (last.chars ++ v)) (first.chars ++ more) ∧
      commaParts (first.chars ++ more) =
        ls.flatMap (fun line => commaParts line.selector.chars) ++ commaParts last.chars := by
  induction ls with
  | nil =>
    refine ⟨last, v, ?_, commaParts_append_blank blank _⟩
    exact (Strips.of_noOpener last.noOpener).append (.of_blank blank) (.of_blank_right blank)
  | cons l ls ih =>
    obtain ⟨first, more, strips, parts⟩ := ih
    obtain ⟨u, blank', whole⟩ := strips_line l strips
    refine ⟨l.selector, l.gap.chars ++ ',' :: (u ++ (first.chars ++ more)), ?_, ?_⟩
    · rw [List.flatMap_cons, List.append_assoc]
      exact whole
    · rw [← List.append_assoc, commaParts_comma, commaParts_append_blank l.gap.blank,
        commaParts_blank_append blank', parts, List.flatMap_cons, List.append_assoc]

theorem commaParts_bareLine (ls : List ListedLine) (last : ListedSelector) (blank : AllBlank v) :
    commaParts (bareLine (ls.flatMap ListedLine.text ++ (last.chars ++ v))) =
      ls.flatMap (fun line => commaParts line.selector.chars) ++ commaParts last.chars := by
  obtain ⟨first, more, strips, parts⟩ := strips_list ls last blank
  rw [bareLine_eq strips, commaParts_trim, parts]

theorem head?_bareLine_list (ls : List ListedLine) (last : ListedSelector) (blank : AllBlank v) :
    ∃ c, (bareLine (ls.flatMap ListedLine.text ++ (last.chars ++ v))).head? = some c ∧ c ≠ '@' := by
  obtain ⟨first, more, strips, -⟩ := strips_list ls last blank
  have solid : StartsSolid (first.chars ++ more) :=
    .of_append first.nonempty (trim_eq_self_iff.1 first.trimmed).1
  obtain ⟨c, rest, cons, noDirective⟩ := first.exists_cons
  refine ⟨c, ?_, noDirective⟩
  rw [bareLine_eq strips, head?_trim, trimLeft_eq_self_iff.2 solid, cons]
  rfl

theorem bareLine_last (last : ListedSelector) (blank : AllBlank u) (blank' : AllBlank v) :
    bareLine (u ++ last.chars ++ v) = last.chars := by
  have strips : Strips false (last.chars ++ v) (last.chars ++ v) :=
    (Strips.of_noOpener last.noOpener).append (.of_blank blank') (.of_blank_right blank')
  rw [List.append_assoc, bareLine_blank_append blank strips, trim_append_blank blank',
    last.trimmed]

/-! ## Cutting off the list -/

/-- Each line of a dense list but the last ends in a comma. -/
theorem exists_lines_dense (dense : ∀ l ∈ ls, l.between = []) (blank : AllBlank u)
    (inline : '\n' ∉ u) :
    ∃ above indent, AllBlank indent ∧ '\n' ∉ indent ∧
      (∀ line ∈ above, (bareLine line).getLast? = some ',') ∧
      ∀ s, lines (u ++ (ls.flatMap ListedLine.text ++ s)) = above ++ lines (indent ++ s) := by
  induction ls generalizing u with
  | nil => exact ⟨[], u, blank, inline, List.forall_mem_nil _, fun s => rfl⟩
  | cons l ls ih =>
    obtain ⟨own, more⟩ := List.forall_mem_cons.1 dense
    obtain ⟨above, indent, blank', inline', commas, cut⟩ := ih more l.indent.blank l.indent.inline
    refine ⟨(u ++ l.own) :: above, indent, blank', inline',
      List.forall_mem_cons.2 ⟨getLast?_bareLine_own blank l, commas⟩, fun s => ?_⟩
    have whole : u ++ ((l :: ls).flatMap ListedLine.text ++ s) =
        (u ++ l.own) ++ '\n' :: (l.indent.chars ++ (ls.flatMap ListedLine.text ++ s)) := by
      simp [ListedLine.text, ListedLine.front, own]
    have inline'' : '\n' ∉ u ++ l.own := by
      simp [inline, inline_own]
    rw [whole, lines_append_newline, lines_of_inline inline'', cut]
    rfl

/-- A dense list below lines on which no selector goes on is the header, unless it is a lone
ambiguous word. -/
theorem splitHeader_dense (cfg : Config) {upper : List (List Char)} {gap : List Char}
    (dense : ∀ l ∈ ls, l.between = []) (blank : AllBlank u) (inline : '\n' ∉ u)
    (blankGap : AllBlank gap)
    (cut : lines front = upper ++ lines (u ++ (ls.flatMap ListedLine.text ++ (last.chars ++ gap))))
    (stops : upper.reverse.takeWhile (fun l => (bareLine l).getLast? == some ',') = []) :
    ∃ v, AllBlank v ∧
      let selector := bareLine (ls.flatMap ListedLine.text ++ (last.chars ++ v))
      splitHeader cfg front =
        if looksLikeSelector cfg selector then ⟨unlines upper, selector⟩ else ⟨front, []⟩ := by
  obtain ⟨above, indent, blank', inline', commas, lined⟩ := exists_lines_dense dense blank inline
  have own : '\n' ∉ indent ++ last.chars := by
    simp [inline', last.inline]
  -- The last selector ends the text but for white space, and above it are the lines with commas.
  have cut' : lines front = (upper ++ above) ++ lines (indent ++ last.chars ++ gap) := by
    rw [cut, lined, List.append_assoc, List.append_assoc]
  obtain ⟨v, blankEnd, inlineEnd, upwards⟩ := dropWhile_lines_append_blank own blankGap cut'
    fun v blankEnd => (bareLine_last last blank' blankEnd).symm ▸ last.nonempty
  refine ⟨v, blankEnd, ?_⟩
  have whole : unlines (above ++ [indent ++ last.chars ++ v]) =
      u ++ (ls.flatMap ListedLine.text ++ (last.chars ++ v)) := by
    have single : lines (indent ++ (last.chars ++ v)) = [indent ++ last.chars ++ v] := by
      rw [← List.append_assoc]
      exact lines_of_inline (by simp [inline', last.inline, inlineEnd])
    rw [← single, ← lined, unlines_lines]
  have selector : bareLine (unlines (above ++ [indent ++ last.chars ++ v])) =
      bareLine (ls.flatMap ListedLine.text ++ (last.chars ++ v)) := by
    obtain ⟨first, more, strips, -⟩ := strips_list ls last blankEnd
    rw [whole, bareLine_eq strips, bareLine_blank_append blank strips]
  have continued : above.reverse.takeWhile (fun l => (bareLine l).getLast? == some ',') =
      above.reverse :=
    List.takeWhile_eq_self_iff.2 fun l mem => beq_iff_eq.2 (commas l (List.mem_reverse.1 mem))
  rw [List.reverse_append] at upwards
  have header := splitHeader_of_upwards cfg upwards stops
  simp only [continued, List.reverse_cons, List.reverse_reverse, selector, List.drop_length,
    List.reverse_nil, List.append_nil] at header
  exact header

/-- A list below lines of content begins on a line of its own, or there are no lines of content. -/
theorem exists_upper {w : List Char} {b : Body} (h : Content w b) (start : Blanks)
    (fresh : w = [] ∨ '\n' ∈ start.chars) :
    ∃ upper indent, AllBlank indent ∧ '\n' ∉ indent ∧
      (∀ s, lines (w ++ (start.chars ++ s)) = upper ++ lines (indent ++ s)) ∧
      upper.reverse.takeWhile (fun l => (bareLine l).getLast? == some ',') = [] ∧
      ∀ number, readContent number (unlines upper) = ⟨b, []⟩ := by
  by_cases breaks : '\n' ∈ start.chars
  · obtain ⟨above, indent, cut, blank, blank', inline⟩ := exists_split ⟨start, breaks⟩
    have content := h.append_blank blank
    refine ⟨lines (w ++ above), indent, blank', inline, fun s => ?_, content.stops,
      fun number => ?_⟩
    · rw [← lines_append_newline, cut]
      simp
    · rw [unlines_lines, content.readContent]
  · obtain rfl := fresh.resolve_right breaks
    exact ⟨[], start.chars, start.blank, breaks, fun s => rfl, rfl, h.readContent⟩

/-- The last line below which lines without selectors stand. -/
theorem exists_loose (loose : ¬ ∀ l ∈ ls, l.between = []) :
    ∃ before l after, ls = before ++ l :: after ∧ l.between ≠ [] ∧
      ∀ l' ∈ after, l'.between = [] := by
  induction ls with
  | nil => exact absurd (List.forall_mem_nil _) loose
  | cons l ls ih =>
    by_cases below : ∀ l' ∈ ls, l'.between = []
    · refine ⟨[], l, ls, rfl, fun own => loose ?_, below⟩
      exact List.forall_mem_cons.2 ⟨own, below⟩
    · obtain ⟨before, l', after, rfl, between, dense⟩ := ih below
      exact ⟨l :: before, l', after, rfl, between, dense⟩

theorem stops_front (l : ListedLine) (loose : l.between ≠ []) (w : List Char) :
    (lines (w ++ l.front)).reverse.takeWhile (fun l => (bareLine l).getLast? == some ',') = [] := by
  obtain ⟨rs, r, between⟩ := (List.eq_nil_or_concat' l.between).resolve_left loose
  have last : LastLine (w ++ l.front) r.text := by
    have cut : w ++ l.front =
        w ++ (l.own ++ rs.flatMap fun r => '\n' :: r.text) ++ '\n' :: r.text := by
      simp [ListedLine.front, between]
    rw [cut]
    exact (LastLine.of_inline (inline_remarks r)).below _
  exact last.stops (by simp [bareLine_remarks])

/-! ## Rules with lists -/

theorem children_readContent (number : Nat) (s : List Char) :
    (readContent number s).value.children = [] := by
  have ofLines (ls : List (List Char)) : (readLines number ls).value.children = [] := by
    induction ls generalizing number with
    | nil => rfl
    | cons line ls ih =>
      rw [readLines, Reported.value_append, Body.children_append, ih, List.append_nil]
      cases ContentLine.ofTrimmed (trim line) <;> rfl
  exact ofLines _

theorem length_commaParts_pos (s : List Char) : 0 < (commaParts s).length :=
  List.length_pos_of_ne_nil (commaParts_ne_nil s)

/-- A list has more selectors than the part of it that is below one of its lines. -/
theorem length_lt_parts {list : SelectorList} {before after : List ListedLine} {l : ListedLine}
    (lines : list.lines = before ++ l :: after) :
    (after.flatMap (fun line => commaParts line.selector.chars) ++
      commaParts list.last.chars).length < list.parts.length := by
  have own := length_commaParts_pos l.selector.chars
  simp only [SelectorList.parts, lines, List.flatMap_append, List.flatMap_cons, List.length_append]
  omega

theorem one_lt_length_parts (list : SelectorList) : 1 < list.parts.length := by
  have last := length_commaParts_pos list.last.chars
  have below := length_lt_parts (show list.lines = [] ++ list.first :: list.more from rfl)
  rw [List.length_append] at below
  omega

/-- A text of several selectors is no lone word. -/
theorem looksLikeSelector_of_parts (cfg : Config) (several : 1 < (commaParts s).length) :
    looksLikeSelector cfg s = true := by
  have comma : ',' ∈ trim s := by
    by_contra noComma
    rw [← commaParts_trim, commaParts, List.splitOn_eq_singleton noComma] at several
    exact lt_irrefl _ several
  refine Bool.or_eq_true_iff.2 (.inl (List.any_eq_true.2 ⟨',', comma, ?_⟩))
  decide

theorem nestedSelector_of_head? {header : List Char} {c : Char} (head : header.head? = some c) :
    nestedSelector header = .ofList header := by
  cases header with
  | nil => cases head
  | cons d header => rfl

section

variable {list : SelectorList} {w : List Char} {b : Body} {start : Blanks}

/-- A dense list is the selector of the nested rule, and above it are lines of content. -/
theorem header_dense (cfg : Config) (dense : list.Dense) (content : Content w b)
    (fresh : w = [] ∨ '\n' ∈ start.chars) (gap : Blanks) (number : Nat) :
    let header := splitHeader cfg (w ++ (start.chars ++ (list.text ++ gap.chars)))
    readContent number header.content = ⟨b, []⟩ ∧ header.selector.head? ≠ some '@' ∧
      commaParts (nestedSelector header.selector).toList = list.parts := by
  obtain ⟨upper, indent, blank, inline, cut, stops, read⟩ := exists_upper content start fresh
  have lined := cut (list.lines.flatMap ListedLine.text ++ (list.last.chars ++ gap.chars))
  obtain ⟨v, blank', split⟩ := splitHeader_dense cfg dense blank inline gap.blank lined stops
  have parts : commaParts (bareLine (list.lines.flatMap ListedLine.text ++
      (list.last.chars ++ v))) = list.parts :=
    commaParts_bareLine list.lines list.last blank'
  obtain ⟨c, head, noDirective⟩ := head?_bareLine_list list.lines list.last blank'
  have proper := looksLikeSelector_of_parts cfg (parts.symm ▸ one_lt_length_parts list)
  rw [SelectorList.text, List.append_assoc (list.lines.flatMap _)]
  simp only [split, proper, if_true, head, nestedSelector_of_head? head, String.toList_ofList]
  exact ⟨read number, by simpa using noDirective, parts⟩

/-- Of a list that is not dense, selectors are missing from the selector of the nested rule. -/
theorem header_loose (cfg : Config) (loose : ¬ list.Dense) (w : List Char) (gap : Blanks) :
    let header := splitHeader cfg (w ++ (list.text ++ gap.chars))
    header.selector.head? ≠ some '@' ∧
      (commaParts (nestedSelector header.selector).toList).length < list.parts.length := by
  obtain ⟨before, l, after, ls, between, dense⟩ := exists_loose loose
  -- Below the last line that is no line of a dense list, the rest of the list is the header, or
  -- its last selector is a lone word and there is no header.
  have cut : w ++ (list.text ++ gap.chars) =
      (w ++ before.flatMap ListedLine.text ++ l.front) ++ '\n' ::
        (l.indent.chars ++ (after.flatMap ListedLine.text ++ (list.last.chars ++ gap.chars))) := by
    simp [SelectorList.text, ls, ListedLine.text]
  have lined := congrArg lines cut
  rw [lines_append_newline] at lined
  have stops := stops_front l between (w ++ before.flatMap ListedLine.text)
  obtain ⟨v, blank, split⟩ :=
    splitHeader_dense cfg dense l.indent.blank l.indent.inline gap.blank lined stops
  simp only [split]
  split
  next =>
    obtain ⟨c, head, noDirective⟩ := head?_bareLine_list after list.last blank
    simp only [head, nestedSelector_of_head? head, String.toList_ofList,
      commaParts_bareLine after list.last blank]
    exact ⟨by simpa using noDirective, length_lt_parts ls⟩
  next =>
    have lone : (commaParts (nestedSelector []).toList).length = 1 := by decide
    exact ⟨by simp, lone ▸ one_lt_length_parts list⟩

end

section

variable {text : List Char} {start stop pos brace : Nat}

/-- The reading of a source from an outermost rule on, with this selector. -/
def ruleOn (cfg : Config) (text : List Char) (brace : Nat) (selector : String) :
    Reported Stylesheet :=
  ⟨.empty, unclosed text brace (closing text brace)⟩ ++
    ((readBody cfg text (brace + 1) (closing text brace)).map
        (fun b => { Stylesheet.empty with rules := [b.toRule selector] }) ++
      readSheet cfg text (closing text brace + 1))

/-- The reading of a block from lines of content on, with a nested rule below them that has this
selector. -/
def nestedRuleOn (cfg : Config) (text : List Char) (brace stop : Nat) (content : Reported Body)
    (selector : String) : Reported Body :=
  content ++ (⟨.empty, unclosed text brace (closing text brace)⟩ ++
    ((readBody cfg text (brace + 1) (closing text brace)).map
        (fun b => { Body.empty with children := [b.toRule selector] }) ++
      readBody cfg text (closing text brace + 1) stop))

/-- Below lines of content the selector of the first nested rule is told from what is read. -/
theorem selector_of_nestedRuleOn {a b : Reported Body} {r s : String}
    (noChildren : a.value.children = []) (noChildren' : b.value.children = [])
    (same : nestedRuleOn cfg text brace stop a r = nestedRuleOn cfg text brace stop b s) :
    r = s := by
  have children := congrArg (fun r => r.value.children) same
  simp only [nestedRuleOn, Reported.value_append, Body.children_append, noChildren, noChildren',
    List.nil_append] at children
  have first := List.head_eq_of_cons_eq children
  exact congrArg StyleRule.selector first

theorem readSheet_listed (cfg : Config) {list : SelectorList} {gap : Blanks}
    (here : skipGap text start text.length = pos)
    (opened : find? '{' text pos text.length = some brace)
    (written : slice text pos brace = list.text ++ gap.chars) :
    ∃ s, commaParts s.toList = list.parts ∧
      readSheet cfg text start = ruleOn cfg text brace s := by
  obtain ⟨lower, upper, -⟩ := bounds_of_find? opened
  have noImport : startsImport (text.drop pos) = false := by
    obtain ⟨c, more, cons, noDirective⟩ := list.exists_cons
    have whole := List.take_append_drop (brace - pos) (text.drop pos)
    rw [← slice, written, cons] at whole
    rw [← whole]
    exact startsImport_eq_false (by simp [List.isPrefixOf, noDirective.symm])
  obtain ⟨c, head, noDirective⟩ := head?_bareLine_list list.lines list.last gap.blank
  have parts := commaParts_bareLine list.lines list.last gap.blank
  rw [← List.append_assoc, ← SelectorList.text, ← written] at head parts
  refine ⟨.ofList (bareLine (slice text pos brace)), by rw [String.toList_ofList, parts]; rfl, ?_⟩
  have noDirective' : (bareLine (slice text pos brace)).head? ≠ some '@' := by
    simpa [head] using noDirective
  rw [readSheet_of_brace here (lower.trans_lt upper) noImport opened,
    outermost_of_noDirective noDirective']
  rfl

theorem InBody.read_rule {put : Reported Body → Reported Stylesheet}
    (h : InBody cfg text start stop put)
    (opened : find? '{' text start stop = some brace)
    (noDirective : (headerAt cfg text start brace).selector.head? ≠ some '@') :
    readBody cfg text start stop = nestedRuleOn cfg text brace stop
      (readContent (lineAt text start) (headerAt cfg text start brace).content)
      (nestedSelector (headerAt cfg text start brace).selector) := by
  rw [h.read_brace opened, contentOn, nested_of_noDirective noDirective]
  rfl

end

end NestedStyles.Block

namespace NestedStyles

open Text Block Layout

/-- A list of selectors, one on each line, is the selector of an outermost rule. Below lines of
content it is the selector of a nested rule, and these lines are the content of the enclosing block,
if and only if no blank line and no comment on a line of its own stands between the selectors. -/
theorem Stylesheet.parse_listed_iff {cfg : Config} {sheet text w : List Char}
    {start start' stop pos brace brace' : Nat} {top : Reported Stylesheet → Reported Stylesheet}
    {put : Reported Body → Reported Stylesheet} {b : Body} {list : SelectorList}
    {indent gap gap' : Blanks}
    (outside : OnSheet cfg sheet start top) (here : skipGap sheet start sheet.length = pos)
    (opened : find? '{' sheet pos sheet.length = some brace)
    (written : slice sheet pos brace = list.text ++ gap.chars)
    (inside : InBody cfg text start' stop put)
    (opened' : find? '{' text start' stop = some brace')
    (content : Content w b) (fresh : w = [] ∨ '\n' ∈ indent.chars)
    (written' : slice text start' brace' = w ++ (indent.chars ++ (list.text ++ gap'.chars))) :
    (∃ s, commaParts s.toList = list.parts ∧
      parse cfg (.ofList sheet) = top (ruleOn cfg sheet brace s)) ∧
    ((∃ s, commaParts s.toList = list.parts ∧
      parse cfg (.ofList text) = put (nestedRuleOn cfg text brace' stop ⟨b, []⟩ s)) ↔
        list.Dense) := by
  have whole : parse cfg (.ofList text) = put (readBody cfg text start' stop) := by
    rw [parse, String.toList_ofList, inside.read]
  constructor
  · obtain ⟨s, parts, read⟩ := readSheet_listed cfg here opened written
    exact ⟨s, parts, by rw [parse, String.toList_ofList, outside.read, read]⟩
  constructor
  · rintro ⟨s, parts, same⟩
    by_contra loose
    -- The nested rule has a selector, but fewer of those listed than `s` has.
    have split := header_loose cfg loose (w ++ indent.chars) gap'
    rw [List.append_assoc, ← written'] at split
    obtain ⟨noDirective, short⟩ := split
    have read := inside.read_rule opened' noDirective
    rw [whole, read] at same
    have noChildren : b.children = [] := by
      have read := content.readContent 0
      exact (congrArg (fun r => r.value.children) read).symm.trans (children_readContent 0 w)
    have selector := selector_of_nestedRuleOn (children_readContent _ _) noChildren
      (inside.injective same)
    rw [← parts, ← selector] at short
    exact lt_irrefl _ short
  · intro dense
    have split := header_dense cfg dense content fresh gap' (lineAt text start')
    rw [← written'] at split
    obtain ⟨reads, noDirective, parts⟩ := split
    have read := inside.read_rule opened' noDirective
    rw [headerAt, reads] at read
    exact ⟨_, parts, by rw [whole, read]⟩

namespace Stylesheet

/-- Two selectors with a blank line between them. -/
def spread : SelectorList :=
  let none : Gap := ⟨[], allBlank_nil, List.not_mem_nil⟩
  { first :=
      { selector := ⟨['h', '1'], by decide, by decide, by decide, by decide, by decide⟩
        gap := none
        behind := ⟨[], none⟩
        between := [⟨[], none⟩]
        indent := none }
    more := []
    last := ⟨['h', '2'], by decide, by decide, by decide, by decide, by decide⟩ }

/-- A rule with these selectors. -/
def spreadRule : List Char :=
  spread.text ++ " \x7b\nx\n\x7d".toList

/-- The rule in another one. -/
def spreadNested : List Char :=
  "& \x7b\n".toList ++ spreadRule ++ "\n\x7d".toList

/-- The selector above the blank line is read as a class of the enclosing rule. -/
theorem parse_listed_iff_spread :
    ∃ top put, OnSheet .standard spreadRule 0 top ∧ InBody .standard spreadNested 3 18 put ∧
      (∃ s, commaParts s.toList = [['h', '1'], ['h', '2']] ∧
        parse .standard (.ofList spreadRule) = top (ruleOn .standard spreadRule 8 s)) ∧
      (¬ ∃ s, commaParts s.toList = [['h', '1'], ['h', '2']] ∧
        parse .standard (.ofList spreadNested) =
          put (nestedRuleOn .standard spreadNested 12 18 ⟨.empty, []⟩ s)) ∧
      parse .standard (.ofList spreadNested) =
        ⟨{ empty with rules :=
          [⟨"&", ["h1,"], [], [], [⟨"h2", ["x"], [], [], []⟩]⟩] }, []⟩ := by
  have starts : skipGap spreadRule 0 spreadRule.length = 0 := by decide +kernel
  have starts' : skipGap spreadNested 0 spreadNested.length = 0 := by decide +kernel
  have inside := @InBody.outermost .standard spreadNested 0 0 2 _ .start starts' (by decide +kernel)
    (by decide +kernel) (by decide +kernel) (by decide +kernel)
  have closed : closing spreadNested 2 = 18 := by decide +kernel
  rw [closed] at inside
  let gap : Blanks := ⟨[' '], by decide⟩
  let indent : Blanks := ⟨['\n'], allBlank_newline⟩
  have written : slice spreadRule 0 8 = spread.text ++ gap.chars := by decide +kernel
  have written' : slice spreadNested 3 12 =
      [] ++ (indent.chars ++ (spread.text ++ gap.chars)) := by
    decide +kernel
  have listed := parse_listed_iff .start starts (by decide +kernel) written inside
    (by decide +kernel) .nil (.inl rfl) written'
  refine ⟨_, _, .start, inside, listed.1, fun read => ?_, by decide +kernel⟩
  exact absurd (listed.2.1 read _ List.mem_cons_self) (List.cons_ne_nil _ _)

end Stylesheet

end NestedStyles
