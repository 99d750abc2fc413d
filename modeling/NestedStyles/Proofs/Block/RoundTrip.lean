import NestedStyles.Proofs.Block.Bodies

/-!
# Reading undoes every layout

Reading the text of a layout gives its meaning, and reports the blocks that are skipped and nothing
else (`Layout.parse_text`).
-/

namespace NestedStyles.Block

open Text Layout

variable {cfg : Config} {pre s u inside tail text : List Char} {c : Char} {start stop pos : Nat}

/-! ## Gaps -/

/-- White space and comments: what may stand in front of an item. -/
def Passed (g : List Char) : Prop :=
  ∀ ⦃stop pos : Nat⦄ ⦃s : List Char⦄, pos + g.length ≤ stop →
    gapEnd stop pos (g ++ s) = gapEnd stop (pos + g.length) s

theorem gapEnd_cons (room : pos < stop) (code : opensComment c s.head? = false) :
    gapEnd stop pos (c :: s) = if isBlank c then gapEnd stop (pos + 1) s else pos := by
  rw [gapEnd, if_neg (by omega)]
  split
  next found => cases found.symm.trans (splitComment_cons code)
  next => simp [code]

theorem gapEnd_of_split {comment rest : List Char} (room : pos < stop)
    (found : splitComment s = some (comment, rest)) :
    gapEnd stop pos s = gapEnd stop (pos + comment.length) rest := by
  rw [gapEnd, if_neg (by omega)]
  split
  next found' =>
    cases found'.symm.trans found
    rfl
  next none => cases none.symm.trans found

namespace Passed

theorem append {v : List Char} (hu : Passed u) (hv : Passed v) : Passed (u ++ v) := by
  intro stop pos s room
  rw [List.length_append] at room ⊢
  rw [List.append_assoc, hu (by omega), hv (by omega), Nat.add_assoc]

theorem of_blank (blank : AllBlank u) : Passed u := by
  induction u with
  | nil => exact fun _ _ _ _ => rfl
  | cons c u ih =>
    intro stop pos s room
    obtain ⟨first, more⟩ := List.forall_mem_cons.1 blank
    have code : opensComment c (u ++ s).head? = false := by
      have other : c ≠ '/' := ne_of_holds first (by decide)
      simp [opensComment, other]
    have all : pos + (c :: u).length = pos + 1 + u.length := by
      rw [List.length_cons]
      omega
    rw [all] at room ⊢
    rw [List.cons_append, gapEnd_cons (by omega) code, if_pos first, ih more room]

theorem of_closed {inner : List Char} (closed : ¬ ['*', '/'] <:+: inner) :
    Passed ('/' :: '*' :: (inner ++ ['*', '/'])) := by
  intro stop pos s room
  have length : 0 < ('/' :: '*' :: (inner ++ ['*', '/'])).length := by
    simp
  exact gapEnd_of_split (by omega) (splitComment_comment closed)

theorem of_comment (c : Comment) : Passed c.text :=
  .of_closed c.closed

theorem skipGap {g : List Char} (h : Passed g) (pre s : List Char) :
    skipGap (pre ++ (g ++ s)) pre.length (pre ++ (g ++ s)).length =
      gapEnd (pre ++ (g ++ s)).length (pre ++ g).length s := by
  rw [Block.skipGap, List.drop_left, h (by simp), ← List.length_append]

end Passed

/-! ## Steps of the reader of a sheet -/

/-- What a block outside of all others, with this header and content, adds to a sheet. -/
def outermost (cfg : Config) (line : Nat) (header : List Char) (body : Reported Body) :
    Reported Stylesheet :=
  match unsupportedAtRule? cfg header with
  | some name => ⟨.empty, [⟨.unsupportedAtRule name, line⟩]⟩
  | none => readItem line header body

section

variable (here : skipGap text start text.length = pos)
include here

theorem readSheet_of_end (ended : text.length ≤ pos) :
    readSheet cfg text start = ⟨.empty, []⟩ := by
  subst here
  rw [readSheet, if_neg (by omega)]

theorem readSheet_of_import (room : pos < text.length)
    (h : startsImport (text.drop pos) = true) :
    readSheet cfg text start =
      readImportLine (lineAt text pos) ((text.drop pos).takeWhile (· != '\n')) ++
        readSheet cfg text (pos + ((text.drop pos).takeWhile (· != '\n')).length + 1) := by
  subst here
  conv_lhs => rw [readSheet, if_pos room, if_pos h]

/-- Where no block is opened any more, what is left belongs to no rule. -/
theorem readSheet_of_none (room : pos < text.length)
    (noImport : startsImport (text.drop pos) = false)
    (h : find? '{' text pos text.length = none) :
    readSheet cfg text start = readStray (lineAt text pos) (text.drop pos) := by
  subst here
  rw [readSheet, if_pos room, if_neg (by simp [noImport])]
  split
  next => rfl
  next found => cases h.symm.trans found

theorem readSheet_of_brace {brace : Nat} (room : pos < text.length)
    (noImport : startsImport (text.drop pos) = false)
    (h : find? '{' text pos text.length = some brace) :
    readSheet cfg text start =
      ⟨.empty, unclosed text brace (closing text brace)⟩ ++
        (outermost cfg (lineAt text pos) (bareLine (slice text pos brace))
            (readBody cfg text (brace + 1) (closing text brace)) ++
          readSheet cfg text (closing text brace + 1)) := by
  subst here
  conv_lhs => rw [readSheet, if_pos room, if_neg (by simp [noImport])]
  split
  next none => cases h.symm.trans none
  next found =>
    cases h.symm.trans found
    rfl

theorem readSheet_of_block {brace : Nat} (room : pos < text.length)
    (noImport : startsImport (text.drop pos) = false)
    (h : find? '{' text pos text.length = some brace) (closed : closing text brace < text.length) :
    readSheet cfg text start =
      outermost cfg (lineAt text pos) (bareLine (slice text pos brace))
          (readBody cfg text (brace + 1) (closing text brace)) ++
        readSheet cfg text (closing text brace + 1) := by
  rw [readSheet_of_brace here room noImport h, unclosed_of_lt closed,
    reported_nothing_append Stylesheet.empty_append]

end

/-! ## Blocks outside of all others -/

variable {g header : List Char}

/-- The header of a block outside of all others, with the white space behind it. -/
structure Heads (header : List Char) (gap : Blanks) : Prop extends IsHeader header where
  noImport (rest : List Char) :
    startsImport (header ++ (gap.chars ++ '{' :: rest)) = false

/-- No white space and no comment is passed in front of a header. -/
theorem Heads.gapEnd_eq {gap : Blanks} (h : Heads header gap) (room : pos < stop) :
    gapEnd stop pos (header ++ (gap.chars ++ '{' :: s)) = pos := by
  have solid := (trim_eq_self_iff.1 h.trimmed).1
  have apart : Apart header (gap.chars ++ '{' :: s) := .blank_append gap.blank (by simp)
  obtain ⟨⟨-, nonempty, -, noOpener⟩, -⟩ := h
  cases header with
  | nil => exact absurd rfl nonempty
  | cons c header =>
    rw [List.cons_append, gapEnd_cons room (opensComment_of_noOpener noOpener apart), solid c rfl]
    rfl

/-- A block outside of all others is told from what is around it, and its header is read. -/
theorem exists_readSheet_block (cfg : Config) (pre tail : List Char) (passed : Passed g)
    {gap : Blanks} (h : Heads header gap) (hi : Skips '}' inside) :
    ∃ line front back, readSheet cfg (pre ++ (g ++ (braced header gap inside ++ tail))) pre.length =
      outermost cfg line header (readBody cfg (front ++ inside ++ '}' :: tail) front.length
          (front ++ inside).length) ++
        readSheet cfg (back ++ tail) back.length := by
  let text := pre ++ g ++ (header ++ gap.chars) ++ '{' :: (inside ++ '}' :: tail)
  have whole : pre ++ (g ++ (braced header gap inside ++ tail)) = text := by
    simp [text, braced]
  have body : pre ++ g ++ (header ++ gap.chars) ++ ['{'] ++ inside ++ '}' :: tail = text := by
    simp [text]
  have next : pre ++ g ++ (header ++ gap.chars) ++ '{' :: (inside ++ ['}']) ++ tail = text := by
    simp [text]
  have parted : pre ++ (g ++ (header ++ (gap.chars ++ '{' :: (inside ++ '}' :: tail)))) = text := by
    simp [text]
  have opened : (pre ++ g ++ (header ++ gap.chars) ++ ['{']).length =
      (pre ++ g ++ (header ++ gap.chars)).length + 1 := List.length_append
  have closed : closing text (pre ++ g ++ (header ++ gap.chars)).length =
      (pre ++ g ++ (header ++ gap.chars)).length + 1 + inside.length := closing_eq hi
  have behind : (pre ++ g ++ (header ++ gap.chars)).length + 1 + inside.length < text.length :=
    next ▸ lt_length_block (pre ++ g ++ (header ++ gap.chars)) inside tail
  have room : (pre ++ g).length < text.length := by
    have shorter : (pre ++ g).length ≤ (pre ++ g ++ (header ++ gap.chars)).length := by simp
    omega
  have here : skipGap text pre.length text.length = (pre ++ g).length := by
    rw [← parted, passed.skipGap]
    exact h.gapEnd_eq (parted.symm ▸ room)
  have noImport : startsImport (text.drop (pre ++ g).length) = false := by
    rw [← parted, ← List.append_assoc, List.drop_left]
    exact h.noImport _
  have bare : bareLine (header ++ gap.chars) = header := by
    rw [bareLine_append_blank h.inert gap.blank, h.trimmed]
  refine ⟨lineAt text (pre ++ g).length, pre ++ g ++ (header ++ gap.chars) ++ ['{'],
    pre ++ g ++ (header ++ gap.chars) ++ '{' :: (inside ++ ['}']), ?_⟩
  rw [whole, body, next, opened, length_inside, length_block,
    readSheet_of_block here room noImport
      (find?_brace (.inr rfl) (h.skips (.inr rfl) gap) (by omega)) (closed ▸ behind), closed,
    slice_append, bare]

/-! ## The headers of a layout -/

theorem startsImport_eq_false (h : ['@', 'i', 'm', 'p', 'o', 'r', 't'].isPrefixOf s = false) :
    startsImport s = false := by
  rw [startsImport, after?, h]
  rfl

theorem heads_selector (h : IsSelector header) (gap : Blanks) : Heads header gap where
  toIsHeader := h.toIsHeader
  noImport rest := by
    obtain ⟨c, more, cons⟩ := List.exists_cons_of_ne_nil h.nonempty
    have other : c ≠ '@' := by
      simpa [cons] using h.noDirective
    rw [cons]
    exact startsImport_eq_false (by simp [List.isPrefixOf, other.symm])

theorem endsName_behind (a : AtRule cfg) (gap : Blanks) (rest : List Char) :
    EndsName (a.rest ++ (gap.chars ++ '{' :: rest)) := by
  have brace : EndsName ('{' :: rest) := by
    rintro c ⟨⟩
    decide
  cases e : a.rest with
  | nil => exact EndsName.of_blank (u := gap.chars) gap.blank brace
  | cons c more => simpa [EndsName, e] using a.maximal

/-- An at-rule is no import, unless it is named so and white space follows. -/
theorem startsImport_atRule {name : List Char} (isName : ∀ c ∈ name, isNameChar c = true)
    (ends : EndsName s) (nonempty : s ≠ [])
    (noImport : name = ['i', 'm', 'p', 'o', 'r', 't'] → StartsSolid s) :
    startsImport ('@' :: (name ++ s)) = false := by
  unfold startsImport
  split
  next => rfl
  next more found =>
    by_contra imports
    -- A name ends behind the keyword, since white space follows, and so the keyword is the name.
    have behind : EndsName more := by
      cases more with
      | nil => simp [EndsName]
      | cons c more => exact endsName_cons (by simpa using imports)
    have same : ['i', 'm', 'p', 'o', 'r', 't'] ++ more = name ++ s := by
      simpa using append_of_after? found
    have keyword : (['i', 'm', 'p', 'o', 'r', 't'] ++ more).takeWhile isNameChar =
        ['i', 'm', 'p', 'o', 'r', 't'] := takeWhile_name (by decide) behind
    rw [same, takeWhile_name isName ends] at keyword
    rw [keyword, List.append_cancel_left_eq] at same
    have solid : StartsSolid more := same ▸ noImport keyword
    cases more with
    | nil => exact nonempty same.symm
    | cons c more => exact imports (by simp [solid c rfl])

theorem heads_atRule (a : AtRule cfg) (gap : Blanks)
    (noImport : a.name = ['i', 'm', 'p', 'o', 'r', 't'] → StartsSolid (a.rest ++ gap.chars)) :
    Heads a.chars gap where
  toIsHeader := isHeader_atRule a
  noImport rest := by
    rw [AtRule.chars, List.cons_append, List.append_assoc]
    apply startsImport_atRule a.isName (endsName_behind a gap rest) (by simp)
    intro keyword
    rw [← List.append_assoc]
    exact (noImport keyword).append (startsSolid_cons (by decide))

theorem heads_export (space : Space) (name : Name) (gap : Blanks) :
    Heads (exportHeader space name) gap := by
  have plain : ∀ c ∈ exportHeader space name, isPlain c = true :=
    isPlain_named (by decide) space.blank name
  have inline : '\n' ∉ exportHeader space name := by
    simp [exportHeader, space.inline, newline_notMem_name]
  exact ⟨⟨.of_plain plain inline, List.cons_ne_nil _ _, trim_exportHeader space name,
    noOpener_of_plain plain⟩, fun _ => startsImport_eq_false rfl⟩

theorem outermost_of_noDirective {line : Nat} {r : Reported Body}
    (noDirective : header.head? ≠ some '@') :
    outermost cfg line header r =
      r.map fun b => { Stylesheet.empty with rules := [b.toRule (.ofList header)] } := by
  rw [outermost, unsupportedAtRule?_selector noDirective, readItem,
    isPrefixOf_export_selector noDirective]
  rfl

theorem outermost_selector {line : Nat} {r : Reported Body} (h : IsSelector header) :
    outermost cfg line header r =
      r.map fun b => { Stylesheet.empty with rules := [b.toRule (.ofList header)] } :=
  outermost_of_noDirective h.noDirective

theorem outermost_atRule {line : Nat} {r : Reported Body} (a : AtRule cfg) :
    Gives (outermost cfg line a.chars r) .empty [a.fault] := by
  rw [outermost, unsupportedAtRule?_atRule]
  exact ⟨rfl, rfl⟩

theorem outermost_export {line : Nat} {r : Reported Body}
    (allowed : "export" ∉ cfg.unsupportedAtRules) (space : Space) (name : Name) :
    outermost cfg line (exportHeader space name) r =
      r.map fun b => { Stylesheet.empty with exports := [⟨b, .ofList name.chars⟩] } := by
  have keyword : (['e', 'x', 'p', 'o', 'r', 't'] ++ (space.chars ++ name.chars)).takeWhile
      isNameChar = ['e', 'x', 'p', 'o', 'r', 't'] :=
    takeWhile_name (by decide) (endsName_space space _)
  have lower : String.ofList (lowerCase ['e', 'x', 'p', 'o', 'r', 't']) = "export" := by
    decide +kernel
  have supported : unsupportedAtRule? cfg (exportHeader space name) = none := by
    rw [exportHeader, List.append_assoc, List.cons_append, unsupportedAtRule?, keyword, lower]
    simp [allowed]
  have exports : ['@', 'e', 'x', 'p', 'o', 'r', 't'].isPrefixOf (exportHeader space name) =
      true := by
    simp [exportHeader]
  rw [outermost, supported, readItem, if_pos exports, readExport_header]

/-! ## Sheets -/

theorem text_cons (e : Entry cfg) (entries : List (Entry cfg)) :
    ∃ sep, Layout.text (e :: entries) = e.indent.chars ++ (e.item.text ++ (e.trail.chars ++
      (sep ++ Layout.text entries))) ∧ (sep = ['\n'] ∨ sep = [] ∧ entries = []) := by
  cases entries with
  | nil => exact ⟨[], by simp [Layout.text, unlines, Entry.text], .inr ⟨rfl, rfl⟩⟩
  | cons e' entries =>
    refine ⟨['\n'], ?_, .inl rfl⟩
    simp [Layout.text, unlines, List.intercalate_cons_of_ne_nil, Entry.text]

theorem newline_notMem_import (l : ImportLine) : '\n' ∉ l.text := by
  have quote : l.source.quote ≠ '\n' := ne_of_holds l.source.isQuote (by decide)
  have entry : ∀ e : Gap × Gap × Name, '\n' ∉ listed e := fun (before, after, name) => by
    simp [listed, before.inline, after.inline, newline_notMem_name]
  have listed : '\n' ∉ l.list := by
    simp [ImportLine.list, newline_notMem_name, entry]
  have finish : '\n' ∉ semicolon l.finish := (inert_semicolon l.finish).inline
  simp [ImportLine.text, Source.text, Source.quoted, l.space.inline, listed, l.source.before.inline,
    l.source.after.inline, l.source.inline, quote.symm, finish]

/-- An import takes up the rest of its line. -/
theorem readSheet_import (cfg : Config) (pre : List Char) (passed : Passed g) (l : ImportLine)
    (trail : Gap) (ended : ∀ c ∈ tail.head?, c = '\n') :
    ∃ front : List Char,
      readSheet cfg (pre ++ (g ++ (l.text ++ (trail.chars ++ tail)))) pre.length =
      ⟨{ Stylesheet.empty with imports := [l.meaning] }, []⟩ ++
        readSheet cfg (front ++ tail) (front.length + 1) := by
  let text := pre ++ (g ++ (l.text ++ (trail.chars ++ tail)))
  have rest : text.drop (pre ++ g).length = l.text ++ (trail.chars ++ tail) := by
    simp only [text, ← List.append_assoc pre g, List.drop_left]
  have room : (pre ++ g).length < text.length := by
    simp [text, ImportLine.text]
  have here : skipGap text pre.length text.length = (pre ++ g).length := by
    rw [passed.skipGap]
    exact gapEnd_cons room rfl
  have parts : l.text ++ (trail.chars ++ tail) = ['@', 'i', 'm', 'p', 'o', 'r', 't'] ++
      (l.space.chars ++ (l.list ++ (l.source.text ++ semicolon l.finish) ++
        (trail.chars ++ tail))) := by
    simp [ImportLine.text]
  have imports : startsImport (text.drop (pre ++ g).length) = true := by
    obtain ⟨c, more, cons⟩ := List.exists_cons_of_ne_nil l.space.nonempty
    have blank : isBlank c = true := l.space.blank c (cons ▸ List.mem_cons_self)
    rw [rest, parts, startsImport, after?_append, cons]
    simp [blank]
  have whole : ∀ c ∈ l.text ++ trail.chars, (c != '\n') = true := by
    intro c hc
    have inline : '\n' ∉ l.text ++ trail.chars := by
      simp [newline_notMem_import, trail.inline]
    simpa using ne_of_mem_of_not_mem hc inline
  have line : (text.drop (pre ++ g).length).takeWhile (· != '\n') = l.text ++ trail.chars := by
    rw [rest, ← List.append_assoc, List.takeWhile_append_of_pos whole]
    cases tail with
    | nil => simp
    | cons c tail => simp [ended c rfl]
  have next : pre ++ g ++ (l.text ++ trail.chars) ++ tail = text := by
    simp [text]
  have length : (pre ++ g ++ (l.text ++ trail.chars)).length =
      (pre ++ g).length + (l.text ++ trail.chars).length := List.length_append
  refine ⟨pre ++ g ++ (l.text ++ trail.chars), (readSheet_of_import here room imports).trans ?_⟩
  rw [line, readImportLine, readImport_text, next, length]

/-- A block outside of all others and what follows it are read one after the other. -/
theorem readSheet_braced (pre : List Char) {gap : Blanks} {x y : Stylesheet} {fs gs : List Fault}
    (passed : Passed g) (heads : Heads header gap) (skips : Skips '}' inside)
    (own : ∀ line (front : List Char), Gives (outermost cfg line header (readBody cfg
      (front ++ inside ++ '}' :: tail) front.length (front ++ inside).length)) x fs)
    (later : ∀ back : List Char, Gives (readSheet cfg (back ++ tail) back.length) y gs) :
    Gives (readSheet cfg (pre ++ (g ++ (braced header gap inside ++ tail))) pre.length) (x ++ y)
      (fs ++ gs) := by
  obtain ⟨line, front, back, read⟩ := exists_readSheet_block cfg pre tail passed heads skips
  rw [read]
  exact (own line front).append (later back)

/-- Behind the last entry nothing is left to read. -/
theorem readSheet_nil (ended : text.length ≤ skipGap text start text.length) :
    Gives (readSheet cfg text start) (Layout.meaning ([] : List (Entry cfg))) [] := by
  rw [readSheet_of_end rfl ended]
  exact .nothing _

theorem readSheet_entries (pre : List Char) (entries : List (Entry cfg)) (passed : Passed g) :
    Gives (readSheet cfg (pre ++ (g ++ Layout.text entries)) pre.length) (Layout.meaning entries)
      (Layout.faults entries) := by
  induction entries generalizing pre g with
  | nil =>
    have none : Layout.text ([] : List (Entry cfg)) = [] := rfl
    apply readSheet_nil
    rw [none, passed.skipGap, gapEnd, if_pos (by simp)]
    simp
  | cons e entries ih =>
    obtain ⟨sep, text, separates⟩ := text_cons e entries
    obtain ⟨indent, item, trail⟩ := e
    have sepBlank : AllBlank sep := by
      obtain rfl | ⟨rfl, -⟩ := separates
      · decide
      · decide
    have indented : Passed (g ++ indent.chars) := passed.append (.of_blank indent.blank)
    have behind : Passed (trail.chars ++ sep) := .of_blank (trail.blank.append sepBlank)
    have later : ∀ back : List Char, Gives (readSheet cfg (back ++ (trail.chars ++
        (sep ++ Layout.text entries))) back.length) (Layout.meaning entries)
          (Layout.faults entries) := by
      intro back
      rw [← List.append_assoc trail.chars]
      exact ih back behind
    show Gives _ (item.meaning ++ Layout.meaning entries) (item.faults ++ Layout.faults entries)
    rw [text, ← List.append_assoc g]
    cases item with
    | blank =>
      rw [Item.meaning, Stylesheet.empty_append]
      simpa [Item.text, Item.faults] using ih pre (indented.append behind)
    | comment c =>
      rw [Item.meaning, Stylesheet.empty_append]
      simpa [Item.text, Item.faults] using
        ih pre ((indented.append (.of_comment c)).append behind)
    | imports l =>
      have ended : ∀ c ∈ (sep ++ Layout.text entries).head?, c = '\n' := by
        obtain rfl | ⟨rfl, rfl⟩ := separates
        · rintro c ⟨⟩
          rfl
        · rintro c ⟨⟩
      obtain ⟨front, read⟩ := readSheet_import cfg pre indented l trail ended
      rw [Item.text, read]
      refine (Gives.nothing _).append ?_
      obtain rfl | ⟨rfl, rfl⟩ := separates
      · have next : Passed [] := .of_blank (by decide)
        simpa using ih (front ++ ['\n']) next
      · apply readSheet_nil
        rw [skipGap, gapEnd, if_pos (by simp [Layout.text, unlines])]
        simp [Layout.text, unlines]
    | exports allowed space name gap body =>
      apply readSheet_braced pre indented (heads_export space name gap) (skips_pieces body) _ later
      intro line front
      rw [outermost_export allowed]
      exact (readBody_text body).map _
    | rule selector gap body =>
      have isSelector := isSelector_text selector
      apply readSheet_braced pre indented (heads_selector isSelector gap) (skips_pieces body) _ later
      intro line front
      rw [outermost_selector isSelector]
      exact (readBody_text body).map _
    | skipped header gap noImport body =>
      apply readSheet_braced pre indented (heads_atRule header gap noImport) (skips_skipped body) _
        later
      intro line front
      exact outermost_atRule header

end NestedStyles.Block

namespace NestedStyles.Layout

/-- Reading a text that is laid out gives what the layout means. -/
theorem parse_text (cfg : Config) (entries : List (Entry cfg)) :
    (Stylesheet.parse cfg (.ofList (text entries))).value = meaning entries ∧
      (Stylesheet.parse cfg (.ofList (text entries))).reports.map Block.Report.fault =
        faults entries := by
  have read := Block.readSheet_entries [] entries (.of_blank (by decide) : Block.Passed [])
  rw [Stylesheet.parse, String.toList_ofList]
  exact ⟨read.value_eq, read.faults_eq⟩

/-- A rule whose selector hides a brace in a string, with one line of classes. -/
example : ∃ entries : List (Entry .standard),
    text entries = "a[b='\x7b'] \x7b\n  px-4 py-2\n\x7d".toList ∧
      meaning entries = ⟨[⟨"a[b='\x7b']", ["px-4", "py-2"], [], [], []⟩], [], []⟩ := by
  let none : Gap := ⟨[], by decide, by decide⟩
  let space : Space := ⟨⟨[' '], by decide, by decide⟩, by decide⟩
  let word : Word :=
    ⟨['p', 'x', '-', '4'], by decide, by decide, by constructor <;> decide +kernel⟩
  let word' : Word :=
    ⟨['p', 'y', '-', '2'], by decide, by decide, by constructor <;> decide +kernel⟩
  let line : ClassLine := ⟨word, [(space, word')], by decide, by decide, by decide⟩
  let selector : SelectorText := ⟨['a', '[', 'b', '=', '\'', '{', '\'', ']'], by decide,
    by constructor <;> decide +kernel, by decide, by decide⟩
  let body : Pieces .standard := .line ⟨⟨['\n', ' ', ' '], by decide⟩, by decide⟩ (.classes line)
    (.close ⟨['\n'], by decide⟩)
  let entry : Entry .standard := ⟨none, .rule selector ⟨[' '], by decide⟩ body, none⟩
  exact ⟨[entry], by decide +kernel, by decide +kernel⟩

end NestedStyles.Layout
