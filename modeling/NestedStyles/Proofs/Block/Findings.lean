import NestedStyles.Proofs.Block.Nesting
import NestedStyles.Proofs.Block.Uncommented

/-!
# Where faults are

`findings` goes through a source as the reader does and tells of each fault where its construct
begins. What is reported are these faults, in order, each with the line its construct begins on. One
kind of construct is told otherwise (`Stylesheet.line_of_report_iff`): for the header of a nested
block that is an at-rule or an export, the line is where the text in front of the block begins, and
so behind the last block or the brace of the block around.
-/

namespace NestedStyles.Block

open Text

variable {cfg : Config} {text s u v rest : List Char} {c : Char} {pos start stop n : Nat}

/-! ## Findings -/

/-- A fault and where it is in the text. -/
structure Finding where
  fault : Fault
  /-- Where the construct begins that is at fault. -/
  start : Nat
  /-- Where the text in front of the block begins, for a fault in the header of a nested block. -/
  front : Option Nat
  deriving DecidableEq, Repr

/-- What is reported of a fault. -/
def Finding.report (text : List Char) (f : Finding) : Report :=
  ⟨f.fault, lineAt text (f.front.getD f.start)⟩

/-- The characters of a text that starts at position `pos`, with their positions. Of a comment the
newlines are left. -/
def placed (pos : Nat) (s : List Char) : List (Char × Nat) :=
  match h : splitComment s with
  | some (comment, rest) =>
    have := length_of_splitComment h
    (comment.zipIdx pos).filter (·.1 == '\n') ++ placed (pos + comment.length) rest
  | none =>
    match s with
    | [] => []
    | c :: rest => (c, pos) :: placed (pos + 1) rest
termination_by s.length

/-- The fault of a line of content. It begins at the first character that is no white space. -/
def lineFindings (line : List (Char × Nat)) : List Finding :=
  match line.find? fun x => !isBlank x.1, ContentLine.ofTrimmed (trim (line.map Prod.fst)) with
  | some (_, start), .malformedUse use => [⟨.malformedUse use, start, none⟩]
  | some (_, start), .misplacedImport import' => [⟨.misplacedImport import', start, none⟩]
  | _, _ => []

/-- The faults in the content of a block that starts at position `pos`. -/
def contentFindings (pos : Nat) (s : List Char) : List Finding :=
  ((placed pos s).splitOnP (·.1 == '\n')).flatMap lineFindings

/-- The fault of a block that is opened at `brace` and never closed. -/
def unclosedFindings (text : List Char) (brace close : Nat) : List Finding :=
  if text.length ≤ close then [⟨.unclosedBrace, brace, none⟩] else []

/-- The faults of a nested block whose header begins at `start`, behind a text that begins at
`front`. -/
def nestedFindings (cfg : Config) (front start : Nat) (header : List Char) (body : List Finding) :
    List Finding :=
  match unsupportedAtRule? cfg header with
  | some name => [⟨.unsupportedAtRule name, start, some front⟩]
  | none =>
    if ['@', 'e', 'x', 'p', 'o', 'r', 't'].isPrefixOf header then
      [⟨.misplacedExport, start, some front⟩]
    else body

/-- The faults inside of a block, from position `start` up to `stop`. The header of a nested block
begins behind the lines of content and the gap that follows them. -/
def bodyFindings (cfg : Config) (text : List Char) (start stop : Nat) : List Finding :=
  if start < min stop text.length then
    match h : find? '{' text start (min stop text.length) with
    | none => contentFindings start (slice text start (min stop text.length))
    | some brace =>
      have _hb := bounds_of_find? h
      have _hc := lt_closing _hb.2.2
      let header := splitHeader cfg (slice text start brace)
      contentFindings start header.content ++
        (unclosedFindings text brace (closing text brace) ++
          (nestedFindings cfg start (skipGap text (start + header.content.length) brace)
              header.selector (bodyFindings cfg text (brace + 1) (closing text brace)) ++
            bodyFindings cfg text (closing text brace + 1) stop))
  else []
termination_by text.length - start

/-- The fault of a line that starts with the import keyword at position `pos`. -/
def importFindings (pos : Nat) (line : List Char) : List Finding :=
  match readImport line with
  | some _ => []
  | none => [⟨.malformedImport (.ofList (trim line)), pos, none⟩]

/-- The fault of text at position `pos` that belongs to no rule. -/
def strayFindings (pos : Nat) (s : List Char) : List Finding :=
  match trim (stripComments false s) with
  | [] => []
  | leftover => [⟨.strayContent (.ofList (firstShownLine leftover)), pos, none⟩]

/-- The faults of a block outside of all others whose header begins at `start`. -/
def outermostFindings (cfg : Config) (start : Nat) (header : List Char) (body : List Finding) :
    List Finding :=
  match unsupportedAtRule? cfg header with
  | some name => [⟨.unsupportedAtRule name, start, none⟩]
  | none =>
    if ['@', 'e', 'x', 'p', 'o', 'r', 't'].isPrefixOf header then
      match readExport header with
      | some _ => body
      | none => body ++ [⟨.malformedExport (.ofList header), start, none⟩]
    else body

/-- The faults in a source from position `start` on. -/
def findings (cfg : Config) (text : List Char) (start : Nat) : List Finding :=
  have _hs := le_skipGap text start text.length
  let pos := skipGap text start text.length
  if pos < text.length then
    let rest := text.drop pos
    if startsImport rest then
      let line := rest.takeWhile (· != '\n')
      importFindings pos line ++ findings cfg text (pos + line.length + 1)
    else
      match h : find? '{' text pos text.length with
      | none => strayFindings pos rest
      | some brace =>
        have _hb := bounds_of_find? h
        have _hc := lt_closing _hb.2.2
        unclosedFindings text brace (closing text brace) ++
          (outermostFindings cfg pos (bareLine (slice text pos brace))
              (bodyFindings cfg text (brace + 1) (closing text brace)) ++
            findings cfg text (closing text brace + 1))
  else []
termination_by text.length - start

/-! ## Lines -/

theorem lineAt_succ (h : text[pos]? = some c) :
    lineAt text (pos + 1) = if c = '\n' then lineAt text pos + 1 else lineAt text pos := by
  rw [lineAt, lineAt, List.take_add_one, h, List.count_append]
  split
  next newline => simp [newline]
  next other => simp [other]

/-- The line of a position is told by the newlines in front of it. -/
theorem lineAt_of_le (le : start ≤ pos) :
    lineAt text pos = lineAt text start + (slice text start pos).count '\n' := by
  have cut : text.take pos = text.take start ++ slice text start pos := by
    rw [slice, ← List.take_add, Nat.add_sub_cancel' le]
  rw [lineAt, lineAt, cut, List.count_append]
  omega

theorem lineAt_eq_iff (le : start ≤ pos) :
    lineAt text start = lineAt text pos ↔ '\n' ∉ slice text start pos := by
  rw [lineAt_of_le le, ← List.count_eq_zero]
  omega

/-- The characters are in the text where they say so, and they are counted from line `n` on. -/
def Numbered (text : List Char) : Nat → List (Char × Nat) → Prop
  | _, [] => True
  | n, (c, i) :: xs =>
    text[i]? = some c ∧ lineAt text i = n ∧ Numbered text (if c = '\n' then n + 1 else n) xs

theorem getElem?_of_drop (cut : text.drop pos = c :: rest) : text[pos]? = some c := by
  rw [← List.head?_drop, cut, List.head?_cons]

theorem drop_succ_of_drop (cut : text.drop pos = c :: rest) : text.drop (pos + 1) = rest := by
  rw [← List.drop_drop, cut, List.drop_one, List.tail_cons]

theorem numbered_comment {xs : List (Char × Nat)} (cut : text.drop pos = u ++ rest)
    (behind : Numbered text (lineAt text (pos + u.length)) xs) :
    Numbered text (lineAt text pos) ((u.zipIdx pos).filter (·.1 == '\n') ++ xs) := by
  induction u generalizing pos with
  | nil => exact behind
  | cons c u ih =>
    have here := getElem?_of_drop cut
    have next := lineAt_succ here
    rw [add_length_cons] at behind
    have later := ih (drop_succ_of_drop cut) behind
    rw [List.zipIdx_cons, List.filter_cons]
    by_cases newline : c = '\n'
    · rw [if_pos (by simpa using newline)]
      exact ⟨here, rfl, next ▸ later⟩
    · rw [if_neg (by simpa using newline)]
      rw [next, if_neg newline] at later
      exact later

theorem numbered_placed (cut : text.drop pos = s ++ rest) :
    Numbered text (lineAt text pos) (placed pos s) := by
  fun_induction placed pos s with
  | case1 pos s comment behind found _ ih =>
    rw [← append_of_splitComment found, List.append_assoc] at cut
    apply numbered_comment cut
    apply ih
    rw [← List.drop_drop, cut, List.drop_left]
  | case2 => trivial
  | case3 pos c s _ ih =>
    have here := getElem?_of_drop cut
    exact ⟨here, rfl, lineAt_succ here ▸ ih (drop_succ_of_drop cut)⟩

theorem map_fst_placed (pos : Nat) (s : List Char) :
    (placed pos s).map Prod.fst = stripComments true s := by
  fun_induction placed pos s with
  | case1 pos s comment rest found _ ih =>
    have newlines : ((comment.zipIdx pos).filter (·.1 == '\n')).map Prod.fst =
        comment.filter (· == '\n') := by
      conv_rhs => rw [← List.zipIdx_map_fst pos comment, List.filter_map]
      rfl
    rw [List.map_append, newlines, ih, stripComments_of_split found, if_pos rfl]
  | case2 => rw [stripComments_nil, List.map_nil]
  | case3 pos c s none ih => rw [List.map_cons, ih, stripComments_of_none none]

/-- The characters that are counted are those of the lines. -/
theorem lines_map_fst (xs : List (Char × Nat)) :
    lines (xs.map Prod.fst) = (xs.splitOnP (·.1 == '\n')).map (List.map Prod.fst) := by
  induction xs with
  | nil => rfl
  | cons x xs ih =>
    rw [lines, List.splitOn] at ih ⊢
    rw [List.map_cons, List.splitOnP_cons_eq_if_modifyHead, List.splitOnP_cons_eq_if_modifyHead, ih]
    split
    · rfl
    · cases xs.splitOnP (·.1 == '\n') <;> rfl

/-- The characters of each line are in the text where they say so, on lines counted from `n` on. -/
def NumberedLines (text : List Char) : Nat → List (List (Char × Nat)) → Prop
  | _, [] => True
  | n, l :: ls =>
    (∀ x ∈ l, text[x.2]? = some x.1 ∧ lineAt text x.2 = n) ∧ NumberedLines text (n + 1) ls

theorem Numbered.lines {xs : List (Char × Nat)} (h : Numbered text n xs) :
    NumberedLines text n (xs.splitOnP (·.1 == '\n')) := by
  induction xs generalizing n with
  | nil => exact ⟨by simp, trivial⟩
  | cons x xs ih =>
    obtain ⟨c, i⟩ := x
    obtain ⟨here, own, later⟩ := h
    rw [List.splitOnP_cons_eq_if_modifyHead]
    by_cases newline : c = '\n'
    · rw [if_pos newline] at later
      rw [if_pos (by simpa using newline)]
      exact ⟨by simp, ih later⟩
    · rw [if_neg newline] at later
      rw [if_neg (by simpa using newline)]
      have below := ih later
      cases cut : xs.splitOnP (·.1 == '\n') with
      | nil => exact absurd cut (List.splitOnP_ne_nil _ _)
      | cons l ls =>
        rw [cut] at below
        exact ⟨List.forall_mem_cons.2 ⟨⟨here, own⟩, below.1⟩, below.2⟩

theorem NumberedLines.inText {ls : List (List (Char × Nat))} {l : List (Char × Nat)}
    (h : NumberedLines text n ls) (mem : l ∈ ls) : ∀ x ∈ l, text[x.2]? = some x.1 := by
  induction ls generalizing n with
  | nil => cases mem
  | cons l' ls ih =>
    obtain ⟨own, below⟩ := h
    obtain rfl | later := List.mem_cons.1 mem
    · exact fun x inside => (own x inside).1
    · exact ih below later

/-! ## Content -/

theorem reports_lineFindings {l : List (Char × Nat)} (number : ∀ x ∈ l, lineAt text x.2 = n) :
    ((ContentLine.ofTrimmed (trim (l.map Prod.fst))).contribution n).reports =
      (lineFindings l).map (Finding.report text) := by
  unfold lineFindings
  cases found : l.find? fun x => !isBlank x.1 with
  | none =>
    have blank : AllBlank (l.map Prod.fst) := by
      intro c mem
      obtain ⟨x, inside, rfl⟩ := List.mem_map.1 mem
      simpa using List.find?_eq_none.1 found x inside
    rw [trim_of_allBlank blank]
    rfl
  | some x =>
    have own := number x (List.mem_of_find?_eq_some found)
    cases ContentLine.ofTrimmed (trim (l.map Prod.fst)) with
    | malformedUse | misplacedImport =>
      rw [← own]
      rfl
    | blank | use | declaration | classes => rfl

theorem reports_readLines {ls : List (List (Char × Nat))} (number : NumberedLines text n ls) :
    (readLines n (ls.map (List.map Prod.fst))).reports =
      (ls.flatMap lineFindings).map (Finding.report text) := by
  induction ls generalizing n with
  | nil => rfl
  | cons l ls ih =>
    obtain ⟨own, below⟩ := number
    rw [List.map_cons, readLines, Reported.reports_append, ih below, List.flatMap_cons,
      List.map_append, reports_lineFindings fun x mem => (own x mem).2]

theorem reports_readContent (cut : text.drop pos = s ++ rest) :
    (readContent (lineAt text pos) s).reports =
      (contentFindings pos s).map (Finding.report text) := by
  rw [readContent, ← map_fst_placed pos s, lines_map_fst, contentFindings]
  exact reports_readLines (numbered_placed cut).lines

/-! ## Blocks -/

theorem reports_unclosed (text : List Char) (brace close : Nat) :
    unclosed text brace close =
      (unclosedFindings text brace close).map (Finding.report text) := by
  unfold unclosed unclosedFindings
  split <;> rfl

theorem reports_nested {header : List Char} {r : Reported Body} {fs : List Finding}
    (inside : r.reports = fs.map (Finding.report text)) (start : Nat) :
    (nested cfg (lineAt text pos) header r).reports =
      (nestedFindings cfg pos start header fs).map (Finding.report text) := by
  unfold nested nestedFindings
  cases unsupportedAtRule? cfg header with
  | some name => rfl
  | none =>
    by_cases exports : ['@', 'e', 'x', 'p', 'o', 'r', 't'].isPrefixOf header = true
    · rw [if_pos exports, if_pos exports]
      rfl
    · rw [if_neg exports, if_neg exports]
      exact inside

theorem reports_outermost {header : List Char} {r : Reported Body} {fs : List Finding}
    (inside : r.reports = fs.map (Finding.report text)) :
    (outermost cfg (lineAt text pos) header r).reports =
      (outermostFindings cfg pos header fs).map (Finding.report text) := by
  unfold outermost outermostFindings readItem
  cases unsupportedAtRule? cfg header with
  | some name => rfl
  | none =>
    by_cases exports : ['@', 'e', 'x', 'p', 'o', 'r', 't'].isPrefixOf header = true
    · rw [if_pos exports, if_pos exports]
      cases readExport header with
      | some name => exact inside
      | none =>
        rw [List.map_append, ← inside]
        rfl
    · rw [if_neg exports, if_neg exports]
      exact inside

theorem exists_unlines_append (ls ms : List (List Char)) :
    ∃ gap, AllBlank gap ∧ unlines (ls ++ ms) = unlines ls ++ (gap ++ unlines ms) := by
  cases ls with
  | nil => exact ⟨[], List.forall_mem_nil _, rfl⟩
  | cons l ls =>
    cases ms with
    | nil => exact ⟨[], List.forall_mem_nil _, by simp [unlines]⟩
    | cons m ms => exact ⟨['\n'], allBlank_newline, unlines_append l m ls ms⟩

/-- The header of a nested block stands behind the lines of content. -/
theorem exists_header (cfg : Config) (s : List Char) :
    ∃ gap own rest, s = (splitHeader cfg s).content ++ (gap ++ (own ++ rest)) ∧ AllBlank gap ∧
      ((splitHeader cfg s).selector = bareLine own ∨ (splitHeader cfg s).selector = []) := by
  let blank : List Char → Bool := fun l => (bareLine l).isEmpty
  let continues : List Char → Bool := fun l => (bareLine l).getLast? == some ','
  cases upwards : (lines s).reverse.dropWhile blank with
  | nil =>
    rw [splitHeader_of_blank upwards]
    exact ⟨[], [], s, rfl, List.forall_mem_nil _, .inr rfl⟩
  | cons last more =>
    let continued := more.takeWhile continues
    let above := more.drop continued.length
    let own := unlines (last :: continued).reverse
    obtain ⟨dropped, whole⟩ : ∃ dropped, dropped ++ last :: more = (lines s).reverse :=
      ⟨_, upwards ▸ List.takeWhile_append_dropWhile⟩
    have parts : continued ++ above = more :=
      List.prefix_iff_eq_append.1 (List.takeWhile_prefix _)
    have cut : lines s = above.reverse ++ ((last :: continued).reverse ++ dropped.reverse) := by
      rw [← List.reverse_inj, ← whole, ← parts]
      simp
    obtain ⟨gap, blankGap, upper⟩ := exists_unlines_append above.reverse
      ((last :: continued).reverse ++ dropped.reverse)
    obtain ⟨gap', -, lower⟩ := exists_unlines_append (last :: continued).reverse dropped.reverse
    rw [← cut, unlines_lines, lower] at upper
    rw [← List.append_nil more] at upwards
    have split := splitHeader_of_upwards cfg upwards rfl
    simp only [List.reverse_nil, List.nil_append] at split
    rw [split]
    split
    · exact ⟨gap, own, _, upper, blankGap, .inl rfl⟩
    · exact ⟨[], [], [], by simp, List.forall_mem_nil _, .inr rfl⟩

theorem content_prefix (cfg : Config) (s : List Char) : (splitHeader cfg s).content <+: s := by
  obtain ⟨gap, own, rest, whole, -⟩ := exists_header cfg s
  exact ⟨_, whole.symm⟩

theorem reports_readBody (within : stop ≤ text.length) :
    (readBody cfg text start stop).reports =
      (bodyFindings cfg text start stop).map (Finding.report text) := by
  fun_induction bodyFindings cfg text start stop with
  | case1 start stop room none =>
    rw [readBody, if_pos room]
    split
    next => exact reports_readContent (drop_eq_slice_append text room.le)
    next found => cases none.symm.trans found
  | case2 start stop room brace found _ _ header ihInside ihNext =>
    have le := (bounds_of_find? found).1
    obtain ⟨rest, content⟩ := content_prefix cfg (slice text start brace)
    have cut : text.drop start = header.content ++ (rest ++ text.drop brace) := by
      rw [← List.append_assoc, content, ← drop_eq_slice_append text le]
    rw [readBody, if_pos room]
    split
    next none => cases found.symm.trans none
    next found' =>
      cases found.symm.trans found'
      have inside := ihInside (closing_le brace)
      have next := ihNext within
      rw [List.map_append, List.map_append, List.map_append, ← reports_readContent cut,
        ← reports_unclosed, ← reports_nested inside, ← next]
      rfl
  | case3 start stop out =>
    rw [readBody, if_neg out]
    rfl

/-! ## Sources -/

theorem reports_readImportLine (pos : Nat) (line : List Char) :
    (readImportLine (lineAt text pos) line).reports =
      (importFindings pos line).map (Finding.report text) := by
  unfold readImportLine importFindings
  cases readImport line <;> rfl

theorem reports_readStray (pos : Nat) (s : List Char) :
    (readStray (lineAt text pos) s).reports =
      (strayFindings pos s).map (Finding.report text) := by
  unfold readStray strayFindings
  cases trim (stripComments false s) <;> rfl

theorem reports_readSheet (text : List Char) (start : Nat) :
    (readSheet cfg text start).reports =
      (findings cfg text start).map (Finding.report text) := by
  fun_induction findings cfg text start with
  | case1 start _ pos room rest starts line ih =>
    rw [readSheet, if_pos room, if_pos starts, Reported.reports_append, ih, List.map_append,
      ← reports_readImportLine]
  | case2 start _ pos room rest starts none =>
    rw [readSheet, if_pos room, if_neg starts]
    split
    next => exact reports_readStray _ _
    next found => cases none.symm.trans found
  | case3 start _ pos room rest starts brace found _ _ ih =>
    rw [readSheet, if_pos room, if_neg starts]
    split
    next none => cases found.symm.trans none
    next found' =>
      cases found.symm.trans found'
      rw [List.map_append, List.map_append, ← ih, ← reports_unclosed,
        ← reports_outermost (reports_readBody (closing_le brace))]
      rfl
  | case4 start _ pos out =>
    rw [readSheet, if_neg out]
    rfl

/-! ## First characters -/

/-- The character a construct begins with. -/
def Fault.opening : Fault → Option Char
  | unclosedBrace => some '{'
  | misplacedExport => some '@'
  | malformedImport shown | misplacedImport shown | strayContent shown | unsupportedAtRule shown
  | malformedExport shown | malformedUse shown => shown.toList.head?

/-- The construct at fault begins where the finding says, behind the text in front of it. -/
structure Finding.Holds (text : List Char) (f : Finding) : Prop where
  begins : ∃ c, text[f.start]? = some c ∧ f.fault.opening = some c
  behind : ∀ front ∈ f.front, front ≤ f.start

theorem head?_trim (s : List Char) : (trim s).head? = (trimLeft s).head? := by
  cases left : trimLeft s with
  | nil => rw [trim, left]; rfl
  | cons c t =>
    have solid : isBlank c = false := by
      have first := List.head?_dropWhile_not isBlank s
      rw [← trimLeft, left] at first
      exact first
    rw [trim, left, trimRight, List.reverse_cons, List.dropWhile_append]
    split <;> simp [solid]

theorem fault_ofTrimmed {line : List Char} {shown : String}
    (h : ContentLine.ofTrimmed line = .malformedUse shown ∨
      ContentLine.ofTrimmed line = .misplacedImport shown) : shown = .ofList line := by
  unfold ContentLine.ofTrimmed at h
  split_ifs at h
  · simp at h
  · cases reads : readUse line with
    | none => simpa [reads, eq_comm] using h
    | some directive => simp [reads] at h
  · simpa [eq_comm] using h
  · simp at h
  · simp at h

theorem holds_lineFindings {l : List (Char × Nat)} (inText : ∀ x ∈ l, text[x.2]? = some x.1) :
    ∀ f ∈ lineFindings l, f.Holds text := by
  intro f mem
  unfold lineFindings at mem
  cases found : l.find? fun x => !isBlank x.1 with
  | none => simp [found] at mem
  | some x =>
    have here := inText x (List.mem_of_find?_eq_some found)
    have first : (trim (l.map Prod.fst)).head? = some x.1 := by
      rw [head?_trim, trimLeft, List.dropWhile_map, List.head?_map]
      rw [List.find?_eq_head?_dropWhile_not] at found
      simp only [Bool.not_not] at found
      rw [Function.comp_def, found]
      rfl
    rw [found] at mem
    cases said : ContentLine.ofTrimmed (trim (l.map Prod.fst)) with
    | malformedUse shown =>
      rw [said, List.mem_singleton] at mem
      subst mem
      refine ⟨⟨x.1, here, ?_⟩, by simp⟩
      rw [fault_ofTrimmed (.inl said), Fault.opening, String.toList_ofList, first]
    | misplacedImport shown =>
      rw [said, List.mem_singleton] at mem
      subst mem
      refine ⟨⟨x.1, here, ?_⟩, by simp⟩
      rw [fault_ofTrimmed (.inr said), Fault.opening, String.toList_ofList, first]
    | blank | use | declaration | classes => simp [said] at mem

theorem holds_contentFindings (cut : text.drop pos = s ++ rest) :
    ∀ f ∈ contentFindings pos s, f.Holds text := by
  intro f mem
  obtain ⟨l, line, own⟩ := List.mem_flatMap.1 mem
  exact holds_lineFindings ((numbered_placed cut).lines.inText line) f own

theorem holds_unclosedFindings {brace close : Nat} (here : text[brace]? = some '{') :
    ∀ f ∈ unclosedFindings text brace close, f.Holds text := by
  intro f mem
  rw [unclosedFindings] at mem
  split at mem
  · obtain rfl := List.mem_singleton.1 mem
    exact ⟨⟨'{', here, rfl⟩, by simp⟩
  · cases mem

/-- A character that is not the first of a comment's delimiter ends a gap. -/
theorem exists_gapEnd_of_head (rest : List Char)
    (first : (trimLeft (stripComments false u)).head? = some c) (other : c ≠ '/')
    (room : pos + u.length ≤ stop) :
    ∃ i, gapEnd stop pos (u ++ rest) = pos + i ∧ u[i]? = some c := by
  fun_induction stripComments false u generalizing pos with
  | case1 u comment behind found shorter ih =>
    have total := congrArg List.length (append_of_splitComment found)
    rw [List.length_append] at total
    have room' : pos + comment.length + behind.length ≤ stop := by omega
    obtain ⟨i, ends, here⟩ := ih (by simpa using first) room'
    refine ⟨comment.length + i, ?_, ?_⟩
    · rw [gapEnd_of_split (by omega) (splitComment_append found), ends, Nat.add_assoc]
    · rw [← append_of_splitComment found, List.getElem?_append_right (by omega),
        Nat.add_sub_cancel_left, here]
  | case2 => cases first
  | case3 d u none ih =>
    rw [add_length_cons] at room
    by_cases blank : isBlank d = true
    · have code : opensComment d (u ++ rest).head? = false := by
        have other : d ≠ '/' := ne_of_holds blank (by decide)
        simp [opensComment, other]
      rw [trimLeft, List.dropWhile_cons_of_pos blank] at first
      obtain ⟨i, ends, here⟩ := ih first (by omega)
      refine ⟨i + 1, ?_, here⟩
      rw [List.cons_append, gapEnd_cons (by omega) code, if_pos blank, ends]
      omega
    · rw [trimLeft, List.dropWhile_cons_of_neg blank] at first
      obtain rfl : d = c := by simpa using first
      have code : opensComment d (u ++ rest).head? = false := by
        simp [opensComment, other]
      refine ⟨0, ?_, rfl⟩
      rw [List.cons_append, gapEnd_cons (by omega) code, if_neg blank, Nat.add_zero]

/-- The header of a nested block begins behind the lines of content and the gap that follows. -/
theorem header_begins {brace : Nat} (le : start ≤ brace) (within : brace ≤ text.length)
    (first : (splitHeader cfg (slice text start brace)).selector.head? = some c) (other : c ≠ '/') :
    text[skipGap text
      (start + (splitHeader cfg (slice text start brace)).content.length) brace]? = some c := by
  obtain ⟨gap, own, rest, whole, blank, selector | none⟩ :=
    exists_header cfg (slice text start brace)
  · let content := (splitHeader cfg (slice text start brace)).content
    have cut : text.drop (start + content.length) = gap ++ (own ++ (rest ++ text.drop brace)) := by
      rw [← List.drop_drop, drop_eq_slice_append text le, whole, List.append_assoc, List.drop_left]
      simp
    have room : start + content.length + gap.length + own.length ≤ brace := by
      have length : (slice text start brace).length =
          content.length + (gap.length + (own.length + rest.length)) :=
        (congrArg List.length whole).trans (by simp only [List.length_append, content])
      rw [slice, List.length_take, List.length_drop] at length
      omega
    rw [selector, bareLine, head?_trim] at first
    obtain ⟨i, ends, here⟩ := exists_gapEnd_of_head (rest ++ text.drop brace) first other room
    show text[skipGap text (start + content.length) brace]? = some c
    rw [skipGap, cut, Passed.of_blank blank (by omega), ends, Nat.add_assoc, ← List.getElem?_drop,
      cut, List.getElem?_append_right (by omega), Nat.add_sub_cancel_left,
      List.getElem?_append_left (List.getElem?_eq_some_iff.1 here).1, here]
  · rw [none] at first
    cases first

/-! ## All findings -/

theorem head?_unsupportedAtRule {header : List Char} {name : String}
    (h : unsupportedAtRule? cfg header = some name) :
    header.head? = some '@' ∧ name.toList.head? = some '@' := by
  unfold unsupportedAtRule? at h
  split at h
  · dsimp only at h
    split_ifs at h
    obtain rfl := Option.some.inj h
    exact ⟨rfl, by rw [String.toList_ofList, List.head?_cons]⟩
  · cases h

theorem head?_export {header : List Char}
    (h : ['@', 'e', 'x', 'p', 'o', 'r', 't'].isPrefixOf header = true) :
    header.head? = some '@' := by
  obtain ⟨rest, rfl⟩ := List.isPrefixOf_iff_prefix.1 h
  rfl

theorem holds_nestedFindings {header : List Char} {front : Nat} {fs : List Finding}
    (le : front ≤ start) (here : header.head? = some '@' → text[start]? = some '@')
    (inside : ∀ f ∈ fs, f.Holds text) :
    ∀ f ∈ nestedFindings cfg front start header fs, f.Holds text := by
  intro f mem
  unfold nestedFindings at mem
  cases rule : unsupportedAtRule? cfg header with
  | some name =>
    rw [rule, List.mem_singleton] at mem
    subst mem
    obtain ⟨first, shown⟩ := head?_unsupportedAtRule rule
    exact ⟨⟨'@', here first, shown⟩, by simpa using le⟩
  | none =>
    rw [rule] at mem
    by_cases exports : ['@', 'e', 'x', 'p', 'o', 'r', 't'].isPrefixOf header = true
    · simp only [exports, if_true, List.mem_singleton] at mem
      subst mem
      exact ⟨⟨'@', here (head?_export exports), rfl⟩, by simpa using le⟩
    · simp only [exports] at mem
      exact inside f mem

theorem holds_outermostFindings {header : List Char} {fs : List Finding}
    (here : ∀ c, header.head? = some c → text[start]? = some c) (inside : ∀ f ∈ fs, f.Holds text) :
    ∀ f ∈ outermostFindings cfg start header fs, f.Holds text := by
  intro f mem
  unfold outermostFindings at mem
  cases rule : unsupportedAtRule? cfg header with
  | some name =>
    rw [rule, List.mem_singleton] at mem
    subst mem
    obtain ⟨first, shown⟩ := head?_unsupportedAtRule rule
    exact ⟨⟨'@', here _ first, shown⟩, by simp⟩
  | none =>
    rw [rule] at mem
    by_cases exports : ['@', 'e', 'x', 'p', 'o', 'r', 't'].isPrefixOf header = true
    · simp only [exports, if_true] at mem
      cases named : readExport header with
      | some name =>
        rw [named] at mem
        exact inside f mem
      | none =>
        rw [named] at mem
        obtain within | own := List.mem_append.1 mem
        · exact inside f within
        · obtain rfl := List.mem_singleton.1 own
          have first := head?_export exports
          refine ⟨⟨'@', here _ first, ?_⟩, by simp⟩
          rw [Fault.opening, String.toList_ofList, first]
    · simp only [exports] at mem
      exact inside f mem

theorem holds_bodyFindings (within : stop ≤ text.length) :
    ∀ f ∈ bodyFindings cfg text start stop, f.Holds text := by
  fun_induction bodyFindings cfg text start stop with
  | case1 start stop room none => exact holds_contentFindings (drop_eq_slice_append text room.le)
  | case2 start stop room brace found _ _ header ihInside ihNext =>
    have bounds := bounds_of_find? found
    obtain ⟨rest, content⟩ := content_prefix cfg (slice text start brace)
    have cut : text.drop start = header.content ++ (rest ++ text.drop brace) := by
      rw [← List.append_assoc, content, ← drop_eq_slice_append text bounds.1]
    have le : start ≤ skipGap text (start + header.content.length) brace :=
      (Nat.le_add_right _ _).trans (le_skipGap _ _ _)
    refine List.forall_mem_append.2 ⟨holds_contentFindings cut, List.forall_mem_append.2
      ⟨holds_unclosedFindings (stateAt_of_find? found).1, List.forall_mem_append.2
        ⟨holds_nestedFindings le (fun first => ?_) (ihInside (closing_le brace)), ihNext within⟩⟩⟩
    exact header_begins bounds.1 bounds.2.2.le first (by decide)
  | case3 => simp

theorem holds_importFindings {line : List Char} (here : text[pos]? = some c)
    (first : (trim line).head? = some c) : ∀ f ∈ importFindings pos line, f.Holds text := by
  intro f mem
  unfold importFindings at mem
  cases reads : readImport line with
  | some directive => simp [reads] at mem
  | none =>
    rw [reads, List.mem_singleton] at mem
    subst mem
    refine ⟨⟨c, here, ?_⟩, by simp⟩
    rw [Fault.opening, String.toList_ofList, first]

theorem isBlank_of_endsShownLine (h : endsShownLine c = true) : isBlank c = true := by
  simp [endsShownLine, isBlank, inRanges, blankRanges] at h ⊢
  omega

theorem holds_strayFindings (here : text[pos]? = some c) (solid : isBlank c = false)
    (first : (trim (stripComments false s)).head? = some c) :
    ∀ f ∈ strayFindings pos s, f.Holds text := by
  intro f mem
  unfold strayFindings at mem
  cases left : trim (stripComments false s) with
  | nil => simp [left] at mem
  | cons d leftover =>
    rw [left] at mem first
    obtain rfl := List.mem_singleton.1 mem
    refine ⟨⟨c, here, ?_⟩, by simp⟩
    have shows : endsShownLine c = false := by
      by_contra ends
      rw [isBlank_of_endsShownLine (eq_true_of_ne_false ends)] at solid
      cases solid
    rw [Fault.opening, String.toList_ofList, firstShownLine, List.head?_takeWhile, first]
    simp [Option.filter, shows]

theorem head?_trim_cons (solid : isBlank c = false) (s : List Char) :
    (trim (c :: s)).head? = some c := by
  rw [head?_trim, trimLeft, List.dropWhile_cons_of_neg (by simp [solid]), List.head?_cons]

theorem head?_bareLine (solid : isBlank c = false) (code : opensComment c s.head? = false) :
    (bareLine (c :: s)).head? = some c := by
  rw [bareLine, stripComments_cons false code, head?_trim_cons solid]

theorem holds_findings (text : List Char) (start : Nat) :
    ∀ f ∈ findings cfg text start, f.Holds text := by
  fun_induction findings cfg text start with
  | case1 start _ pos room rest starts line ih =>
    obtain ⟨c, behind, cut, solid, code⟩ := exists_solid text start room
    refine List.forall_mem_append.2 ⟨?_, ih⟩
    apply holds_importFindings (getElem?_of_drop cut)
    have inline : c ≠ '\n' := ne_of_holds (p := fun d => !isBlank d) (by simp [solid]) rfl
    show (trim ((text.drop pos).takeWhile _)).head? = _
    rw [cut, List.takeWhile_cons_of_pos (by simpa using inline)]
    exact head?_trim_cons solid _
  | case2 start _ pos room rest starts none =>
    obtain ⟨c, behind, cut, solid, code⟩ := exists_solid text start room
    apply holds_strayFindings (getElem?_of_drop cut) solid
    show (bareLine (text.drop pos)).head? = _
    rw [cut]
    exact head?_bareLine solid code
  | case3 start _ pos room rest starts brace found _ _ ih =>
    refine List.forall_mem_append.2 ⟨holds_unclosedFindings (stateAt_of_find? found).1,
      List.forall_mem_append.2 ⟨holds_outermostFindings (fun d first => ?_)
        (holds_bodyFindings (closing_le brace)), ih⟩⟩
    obtain ⟨c, behind, cut, solid, code⟩ := exists_solid text start room
    change text.drop pos = c :: behind at cut
    cases apart : brace - pos with
    | zero =>
      rw [slice, apart, List.take_zero, bareLine, stripComments_nil] at first
      cases first
    | succ n =>
      have front : opensComment c (behind.take n).head? = false := by
        rw [← List.take_append_drop n behind] at code
        exact opensComment_append code
      rw [slice, apart, cut, List.take_succ_cons, head?_bareLine solid front] at first
      rw [← first]
      exact getElem?_of_drop cut
  | case4 => simp

end NestedStyles.Block

namespace NestedStyles

open Text Block

/-- What is reported of a source are its findings, in order, each with the line that its construct
begins on, unless that is a header in a block that a newline parts from the end of the block or of
the brace in front of it. -/
theorem Stylesheet.line_of_report_iff (cfg : Config) (text : String) :
    (Stylesheet.parse cfg text).reports =
        (findings cfg text.toList 0).map (Finding.report text.toList) ∧
      ∀ f ∈ findings cfg text.toList 0, f.Holds text.toList ∧
        ((f.report text.toList).line = lineAt text.toList f.start ↔
          ∀ front ∈ f.front, '\n' ∉ slice text.toList front f.start) := by
  refine ⟨reports_readSheet _ 0, fun f mem => ?_⟩
  have holds := holds_findings _ _ f mem
  refine ⟨holds, ?_⟩
  cases front : f.front with
  | none => simp [Finding.report, front]
  | some pos =>
    rw [Finding.report, front, Option.getD_some, lineAt_eq_iff (holds.behind pos front)]
    simp

end NestedStyles
