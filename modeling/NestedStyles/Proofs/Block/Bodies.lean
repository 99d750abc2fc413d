import NestedStyles.Proofs.Block.Contents

/-!
# Blocks are read back

Reading the inside of a block that is laid out gives the content of the layout
(`readBody_pieces`). The induction is on the layout. Lines of content pile up in front of the next
nested block, so what is read before it is an argument of the statement.
-/

namespace NestedStyles.Block

open Text Layout

variable {cfg : Config} {pre u inside rest w : List Char} {stop : Nat} {b : Body}

/-! ## Results -/

/-- The value of a result and the faults that are reported with it. -/
structure Gives {α : Type} (r : Reported α) (value : α) (faults : List Fault) : Prop where
  value_eq : r.value = value
  faults_eq : r.reports.map Report.fault = faults

theorem Gives.nothing {α : Type} (x : α) : Gives ⟨x, []⟩ x [] :=
  ⟨rfl, rfl⟩

theorem Gives.append {α : Type} [Append α] {r r' : Reported α} {x y : α} {fs gs : List Fault}
    (h : Gives r x fs) (h' : Gives r' y gs) : Gives (r ++ r') (x ++ y) (fs ++ gs) where
  value_eq := by rw [Reported.value_append, h.value_eq, h'.value_eq]
  faults_eq := by rw [Reported.reports_append, List.map_append, h.faults_eq, h'.faults_eq]

theorem Gives.map {α β : Type} {r : Reported α} {x : α} {fs : List Fault} (f : α → β)
    (h : Gives r x fs) : Gives (r.map f) (f x) fs where
  value_eq := by rw [Reported.value_map, h.value_eq]
  faults_eq := h.faults_eq

theorem Gives.eq {α : Type} {r : Reported α} {x : α} (h : Gives r x []) : r = ⟨x, []⟩ := by
  obtain ⟨value, reports⟩ := r
  obtain ⟨rfl, none⟩ := h
  obtain rfl : reports = [] := List.map_eq_nil_iff.1 none
  rfl

/-! ## Positions in a text that is put together -/

theorem slice_append (pre u rest : List Char) :
    slice (pre ++ u ++ rest) pre.length (pre ++ u).length = u := by
  simp [slice]

theorem seek_at {t : Char} {pos : Nat} (brace : t = '}' ∨ t = '{') (room : pos < stop) :
    seek t stop ⟨.code, 0, 0⟩ pos (t :: rest) = some pos := by
  have visible : Scan.sees ⟨.code, 0, 0⟩ t rest.head? = true := by
    obtain rfl | rfl := brace
    · simp [Scan.sees, opensComment, Scan.isDelimiter]
    · simp [Scan.sees, opensComment, Scan.isDelimiter]
  rw [seek, if_neg (by omega), visible]
  simp

theorem find?_append (t : Char) (pre s : List Char) :
    find? t (pre ++ s) pre.length stop = seek t stop .initial pre.length s := by
  rw [find?, List.drop_left]

theorem find?_brace {t : Char} (brace : t = '}' ∨ t = '{') (h : Skips t u)
    (room : (pre ++ u).length < stop) :
    find? t (pre ++ u ++ t :: rest) pre.length stop = some (pre ++ u).length := by
  rw [List.length_append] at room ⊢
  have apart : Apart u (t :: rest) := .of_head (by rintro ⟨⟩; simp at brace)
  rw [List.append_assoc, find?_append, Scan.initial]
  exact (h 0 apart room.le).trans (seek_at brace room)

theorem find?_none (h : Skips '{' u) :
    find? '{' (pre ++ u ++ '}' :: rest) pre.length (pre ++ u).length = none := by
  have passed := h 0 (.of_head (by simp) : Apart u ('}' :: rest))
    (List.length_append ▸ le_rfl : pre.length + u.length ≤ (pre ++ u).length)
  rw [List.append_assoc, find?_append, Scan.initial]
  refine passed.trans ?_
  rw [seek, if_pos (by simp)]

theorem closing_eq (h : Skips '}' inside) :
    closing (pre ++ '{' :: (inside ++ '}' :: rest)) pre.length =
      pre.length + 1 + inside.length := by
  have whole : pre ++ '{' :: (inside ++ '}' :: rest) = pre ++ ['{'] ++ inside ++ '}' :: rest := by
    simp
  have opened : pre.length + 1 = (pre ++ ['{']).length := by
    simp
  have found : find? '}' (pre ++ ['{'] ++ inside ++ '}' :: rest) (pre ++ ['{']).length
      (pre ++ ['{'] ++ inside ++ '}' :: rest).length = some (pre ++ ['{'] ++ inside).length :=
    find?_brace (.inl rfl) h (by simp)
  rw [closing, whole, opened, found, Option.getD_some, List.length_append]

/-- The position behind a block whose brace is opened behind `pre`. -/
theorem length_block (pre inside : List Char) :
    (pre ++ '{' :: (inside ++ ['}'])).length = pre.length + 1 + inside.length + 1 := by
  simp only [List.length_append, List.length_cons, List.length_nil]
  omega

/-- The position in front of the brace that closes a block whose brace is opened behind `pre`. -/
theorem length_inside (pre inside : List Char) :
    (pre ++ ['{'] ++ inside).length = pre.length + 1 + inside.length := by
  rw [List.length_append, List.length_append, List.length_singleton]

theorem lt_length_block (pre inside tail : List Char) :
    pre.length + 1 + inside.length < (pre ++ '{' :: (inside ++ ['}']) ++ tail).length := by
  rw [List.length_append, length_block]
  omega

/-! ## Nested blocks -/

section

variable {text : List Char} {start brace : Nat}

theorem readBody_of_le (h : stop ≤ start) : readBody cfg text start stop = ⟨.empty, []⟩ := by
  rw [readBody, if_neg (by omega)]

theorem readBody_of_none (room : start < stop) (within : stop ≤ text.length)
    (h : find? '{' text start stop = none) :
    readBody cfg text start stop = readContent (lineAt text start) (slice text start stop) := by
  have least : min stop text.length = stop := min_eq_left within
  rw [readBody, if_pos (by omega)]
  split
  next => rw [least]
  next found =>
    rw [least, h] at found
    cases found

/-- The nested block with this header and content, on line `line` of the source. -/
def nested (cfg : Config) (line : Nat) (header : List Char) (body : Reported Body) :
    Reported Body :=
  match unsupportedAtRule? cfg header with
  | some name => ⟨.empty, [⟨.unsupportedAtRule name, line⟩]⟩
  | none =>
    if ['@', 'e', 'x', 'p', 'o', 'r', 't'].isPrefixOf header then
      ⟨.empty, [⟨.misplacedExport, line⟩]⟩
    else
      body.map fun b => { Body.empty with children := [b.toRule (nestedSelector header)] }

/-- A block inside of which a nested block is opened is read piece by piece. -/
theorem readBody_of_brace (room : start < stop) (within : stop ≤ text.length)
    (h : find? '{' text start stop = some brace) :
    readBody cfg text start stop =
      readContent (lineAt text start) (splitHeader cfg (slice text start brace)).content ++
        (⟨.empty, unclosed text brace (closing text brace)⟩ ++
          (nested cfg (lineAt text start) (splitHeader cfg (slice text start brace)).selector
              (readBody cfg text (brace + 1) (closing text brace)) ++
            readBody cfg text (closing text brace + 1) stop)) := by
  have least : min stop text.length = stop := min_eq_left within
  conv_lhs => rw [readBody, if_pos (by omega)]
  split
  next none =>
    rw [least, h] at none
    cases none
  next found =>
    rw [least, h] at found
    cases found
    rfl

theorem unclosed_of_lt {close : Nat} (closed : close < text.length) :
    unclosed text brace close = [] :=
  if_neg (Nat.not_le.2 closed)

theorem readBody_of_some (room : start < stop) (within : stop ≤ text.length)
    (h : find? '{' text start stop = some brace) (closed : closing text brace < text.length) :
    readBody cfg text start stop =
      readContent (lineAt text start) (splitHeader cfg (slice text start brace)).content ++
        (nested cfg (lineAt text start) (splitHeader cfg (slice text start brace)).selector
            (readBody cfg text (brace + 1) (closing text brace)) ++
          readBody cfg text (closing text brace + 1) stop) := by
  rw [readBody_of_brace room within h, unclosed_of_lt closed,
    reported_nothing_append Body.empty_append]

end

theorem readBody_last (h : Content w b) :
    readBody cfg (pre ++ w ++ '}' :: rest) pre.length (pre ++ w).length = ⟨b, []⟩ := by
  cases w with
  | nil =>
    have same : (⟨.empty, []⟩ : Reported Body) = ⟨b, []⟩ :=
      (Content.nil.readContent 0).symm.trans (h.readContent 0)
    rw [readBody_of_le (by simp), same]
  | cons c w =>
    rw [readBody_of_none (by simp) (by simp) (find?_none h.skips), slice_append, h.readContent]

/-- The part of a block from a header `u` on: lines of content, the nested block, and what
follows. -/
theorem readBody_block (pre rest : List Char) {w' header tail : List Char} (hu : Skips '{' u)
    (hi : Skips '}' inside) (content : Content w' b) (split : splitHeader cfg u = ⟨w', header⟩) :
    ∃ line, readBody cfg (pre ++ (u ++ '{' :: (inside ++ ['}']) ++ tail) ++ '}' :: rest) pre.length
        (pre ++ (u ++ '{' :: (inside ++ ['}']) ++ tail)).length =
      ⟨b, []⟩ ++ (nested cfg line header
          (readBody cfg (pre ++ u ++ ['{'] ++ inside ++ '}' :: (tail ++ '}' :: rest))
            (pre ++ u ++ ['{']).length (pre ++ u ++ ['{'] ++ inside).length) ++
        readBody cfg (pre ++ u ++ '{' :: (inside ++ ['}']) ++ tail ++ '}' :: rest)
          (pre ++ u ++ '{' :: (inside ++ ['}'])).length
          (pre ++ u ++ '{' :: (inside ++ ['}']) ++ tail).length) := by
  let text := pre ++ u ++ '{' :: (inside ++ '}' :: (tail ++ '}' :: rest))
  have whole : pre ++ (u ++ '{' :: (inside ++ ['}']) ++ tail) ++ '}' :: rest = text := by
    simp [text]
  have body : pre ++ u ++ ['{'] ++ inside ++ '}' :: (tail ++ '}' :: rest) = text := by
    simp [text]
  have next : pre ++ u ++ '{' :: (inside ++ ['}']) ++ tail ++ '}' :: rest = text := by
    simp [text]
  have closed : closing text (pre ++ u).length = (pre ++ u).length + 1 + inside.length :=
    closing_eq hi
  have stop : (pre ++ (u ++ '{' :: (inside ++ ['}']) ++ tail)).length =
      (pre ++ u ++ '{' :: (inside ++ ['}']) ++ tail).length := by
    simp
  have within : (pre ++ u ++ '{' :: (inside ++ ['}']) ++ tail).length < text.length := by
    rw [← next]
    simp
  have behind := lt_length_block (pre ++ u) inside tail
  have start : pre.length < (pre ++ u ++ '{' :: (inside ++ ['}']) ++ tail).length := by
    have shorter : pre.length ≤ (pre ++ u).length := by simp
    omega
  have opened : (pre ++ u ++ ['{']).length = (pre ++ u).length + 1 := List.length_append
  rw [whole, body, next, stop, opened, length_inside, length_block]
  refine ⟨lineAt text pre.length, ?_⟩
  rw [readBody_of_some start within.le (find?_brace (.inr rfl) hu (by omega))
    (closed ▸ behind.trans within), closed, slice_append, split, content.readContent]

section

variable {header : List Char}

theorem unsupportedAtRule?_selector (noDirective : header.head? ≠ some '@') :
    unsupportedAtRule? cfg header = none := by
  unfold unsupportedAtRule?
  split
  next rest => exact absurd rfl noDirective
  next => rfl

theorem isPrefixOf_export_selector (noDirective : header.head? ≠ some '@') :
    ['@', 'e', 'x', 'p', 'o', 'r', 't'].isPrefixOf header = false := by
  by_contra starts
  obtain ⟨rest, same⟩ := List.isPrefixOf_iff_prefix.1 (Bool.of_not_eq_false starts)
  exact noDirective (by rw [← same]; rfl)

theorem nested_of_noDirective {line : Nat} {r : Reported Body}
    (noDirective : header.head? ≠ some '@') :
    nested cfg line header r =
      r.map fun b => { Body.empty with children := [b.toRule (nestedSelector header)] } := by
  simp only [nested, unsupportedAtRule?_selector noDirective,
    isPrefixOf_export_selector noDirective, Bool.false_eq_true, if_false]

theorem nested_selector {line : Nat} {r : Reported Body} (h : IsSelector header) :
    nested cfg line header r =
      r.map fun b => { Body.empty with children := [b.toRule (.ofList header)] } := by
  have nonempty : header.isEmpty = false := by
    simpa using h.nonempty
  rw [nested_of_noDirective h.noDirective, nestedSelector, nonempty]
  rfl

end

theorem unsupportedAtRule?_atRule (a : AtRule cfg) :
    unsupportedAtRule? cfg a.chars = some (.ofList ('@' :: a.name)) := by
  have name : (a.name ++ a.rest).takeWhile isNameChar = a.name := takeWhile_name a.isName a.maximal
  simp [unsupportedAtRule?, AtRule.chars, name, a.nonempty, a.listed]

theorem nested_atRule {line : Nat} {r : Reported Body} (a : AtRule cfg) :
    Gives (nested cfg line a.chars r) .empty [a.fault] := by
  rw [nested, unsupportedAtRule?_atRule]
  exact ⟨rfl, rfl⟩

/-! ## Whole blocks are passed over -/

theorem skips_line {t : Char} (brace : t = '}' ∨ t = '{') (l : Line) : Skips t l.text := by
  cases l with
  | comment c => exact .comment c.closed
  | use l => exact (inert_use l).skips brace
  | declaration l => exact (Inert.of_closed l.closed).skips brace
  | classes l => exact (inert_words l.first l.more).skips brace

theorem skips_skipped (s : Skipped) : Skips '}' s.chars :=
  .of_isBalanced (.inl rfl) s.balanced s.noBackslash

theorem skips_braced {header body : List Char} (gap : Blanks) (isHeader : IsHeader header)
    (hb : Skips '}' body) : Skips '}' (braced header gap body) :=
  .block (isHeader.skips (.inl rfl) gap) hb

theorem apart_break (u : List Char) (start : Break) (v : List Char) :
    Apart u (start.chars ++ v) :=
  .of_head (head?_blank_append (List.ne_nil_of_mem start.breaks) start.blank)

theorem apart_pieces (u : List Char) (p : Pieces cfg) : Apart u p.text := by
  cases p with
  | close closing => exact .of_blank_right closing.blank
  | line start | rule start | skipped start =>
    rw [Pieces.text, List.append_assoc]
    exact apart_break u start _

theorem skips_pieces (p : Pieces cfg) : Skips '}' p.text := by
  have piece : ∀ (start : Break) (u : List Char) (next : Pieces cfg), Skips '}' u →
      Skips '}' next.text → Skips '}' (start.chars ++ u ++ next.text) := by
    intro start u next hu hn
    exact ((Skips.of_blank (.inl rfl) start.blank).append hu (.of_blank_left start.blank)).append hn
      (apart_pieces _ next)
  induction p with
  | close closing => exact .of_blank (.inl rfl) closing.blank
  | line start content next ih => exact piece start _ next (skips_line (.inl rfl) content) ih
  | rule start selector gap body next ihBody ihNext =>
    have isSelector := isSelector_text selector.toSelectorText
    exact piece start _ next (skips_braced gap isSelector.toIsHeader ihBody) ihNext
  | skipped start header _ gap body next ih =>
    exact piece start _ next (skips_braced gap (isHeader_atRule header) (skips_skipped body)) ih

/-! ## Blocks -/

/-- A nested block below lines of content is told from them, and its header is read. -/
theorem exists_readBody_block (pre rest : List Char) {header tail : List Char} (h : Content w b)
    (isHeader : IsHeader header) (start : Break) (gap : Blanks)
    (proper : looksLikeSelector cfg header = true) (hi : Skips '}' inside) :
    ∃ line front back, readBody cfg
        (pre ++ (w ++ (start.chars ++ braced header gap inside ++ tail)) ++ '}' :: rest) pre.length
        (pre ++ (w ++ (start.chars ++ braced header gap inside ++ tail))).length =
      ⟨b, []⟩ ++ (nested cfg line header
          (readBody cfg (front ++ inside ++ '}' :: (tail ++ '}' :: rest)) front.length
            (front ++ inside).length) ++
        readBody cfg (back ++ tail ++ '}' :: rest) back.length (back ++ tail).length) := by
  obtain ⟨w', content, split⟩ := h.splitHeader isHeader start gap proper
  have added : Skips '{' (start.chars ++ (header ++ gap.chars)) :=
    (Skips.of_blank (.inr rfl) start.blank).append (isHeader.skips (.inr rfl) gap)
      (.of_blank_left start.blank)
  have passed : Skips '{' (w ++ (start.chars ++ (header ++ gap.chars))) :=
    h.skips.append added (apart_break w start _)
  obtain ⟨line, read⟩ := readBody_block pre rest passed hi content split
  refine ⟨line, _, _, Eq.trans ?_ read⟩
  simp [braced]

theorem readBody_pieces (pre rest : List Char) (p : Pieces cfg) (h : Content w b) :
    Gives (readBody cfg (pre ++ (w ++ p.text) ++ '}' :: rest) pre.length
      (pre ++ (w ++ p.text)).length) (b ++ p.meaning) p.faults := by
  induction p generalizing pre w b rest with
  | close closing =>
    rw [Pieces.text, readBody_last (h.append_blank closing.blank), Pieces.meaning,
      Body.append_empty]
    exact .nothing b
  | line start content next ih =>
    have whole : w ++ (Pieces.line start content next).text =
        w ++ (start.chars ++ content.text) ++ next.text := by
      simp [Pieces.text]
    rw [whole, Pieces.meaning, ← Body.append_assoc]
    exact ih pre rest (h.line start content)
  | rule start selector gap body next ihBody ihNext =>
    have isSelector := isSelector_text selector.toSelectorText
    obtain ⟨line, front, back, read⟩ := exists_readBody_block pre rest h isSelector.toIsHeader start
      gap selector.proper (skips_pieces body)
    rw [Pieces.text, read, nested_selector isSelector]
    refine (Gives.nothing b).append (.append (.map _ ?_) ?_)
    · simpa using ihBody front _ .nil
    · simpa using ihNext back rest .nil
  | skipped start header proper gap body next ih =>
    have value : (Pieces.skipped start header proper gap body next).meaning =
        .empty ++ next.meaning := (Body.empty_append _).symm
    obtain ⟨line, front, back, read⟩ := exists_readBody_block pre rest h (isHeader_atRule header)
      start gap proper (skips_skipped body)
    rw [Pieces.text, read, value]
    refine (Gives.nothing b).append ((nested_atRule header).append ?_)
    simpa using ih back rest .nil

/-- The inside of a block that is laid out gives the content of the layout. -/
theorem readBody_text (p : Pieces cfg) :
    Gives (readBody cfg (pre ++ p.text ++ '}' :: rest) pre.length (pre ++ p.text).length)
      p.meaning p.faults := by
  have read := readBody_pieces pre rest p .nil
  rwa [List.nil_append, Body.empty_append] at read

end NestedStyles.Block
