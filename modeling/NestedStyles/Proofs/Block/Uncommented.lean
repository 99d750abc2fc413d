import NestedStyles.Proofs.Block.Outline

/-!
# Comments change nothing that is read

A source whose comments stand apart says the same with them and without them, unless an import is
gained without them (`Stylesheet.parse_stripComments_iff`): the line of an import is the one place
that is read with its comments, and a line that has one is never an import.

In front of a nested block comments are taken out line by line, and there one of several lines can
be in the way of the selector: such comments have to end above it (`ClearFront`). In the header of
a block outside of all others they leave their line ends behind, which can be told from the header
unless they are at its ends (`ClearHeader`).
-/

namespace NestedStyles.Block

open Text

variable {cfg : Config} {s u u' v v' : List Char}

/-! ## Headers of nested blocks -/

/-- The second text is the first without its comments and with the lines they take up. -/
structure Cleaned (u u' : List Char) : Prop where
  strips : Strips true u u'
  noOpener : ¬ ['/', '*'] <:+: u'

theorem Whole.cleaned (h : Whole u u') : Cleaned u u' :=
  ⟨h.strips true, h.noOpener⟩

theorem Tidy.cleaned (h : Tidy s) : Cleaned s (stripComments true s) := by
  obtain ⟨q, spaced⟩ := h
  exact ⟨fun rest apart => (spaced.of_apart apart).stripComments_append, spaced.noOpener⟩

theorem Cleaned.newline (hu : Cleaned u u') (hv : Cleaned v v') :
    Cleaned (u ++ '\n' :: v) (u' ++ '\n' :: v') :=
  ⟨hu.strips.newline hv.strips, noOpener_newline hu.noOpener hv.noOpener⟩

theorem contentOf_eq (h : Cleaned u u') : contentOf u' = contentOf u := by
  rw [contentOf, contentOf, readContent, readContent, h.strips.eq,
    (Strips.of_noOpener h.noOpener).eq]

section

variable {α β : Type} {R : α → β → Prop} {f : α → Bool} {g : β → Bool} {xs : List α} {ys : List β}

theorem forall₂_takeWhile (agree : ∀ x y, R x y → f x = g y) (h : List.Forall₂ R xs ys) :
    List.Forall₂ R (xs.takeWhile f) (ys.takeWhile g) := by
  induction h with
  | nil => exact .nil
  | @cons x y xs ys same more ih =>
    rw [List.takeWhile_cons, List.takeWhile_cons, agree x y same]
    split
    · exact .cons same ih
    · exact .nil

theorem forall₂_dropWhile (agree : ∀ x y, R x y → f x = g y) (h : List.Forall₂ R xs ys) :
    List.Forall₂ R (xs.dropWhile f) (ys.dropWhile g) := by
  induction h with
  | nil => exact .nil
  | @cons x y xs ys same more ih =>
    rw [List.dropWhile_cons, List.dropWhile_cons, agree x y same]
    split
    · exact ih
    · exact .cons same more

end

variable {ls ls' above above' own own' : List (List Char)}

theorem splitHeader_of_blank
    (h : (lines s).reverse.dropWhile (fun l => (bareLine l).isEmpty) = []) :
    splitHeader cfg s = ⟨[], []⟩ := by
  simp only [splitHeader, h]

/-- Two headers whose own lines say the same, below lines that say the same, are cut alike. -/
theorem splitHeader_agrees (cut : lines s = above ++ own) (cut' : lines u = above' ++ own')
    (whole : List.Forall₂ Whole own own') (self : Cleaned s u)
    (cleaned : ∀ {ls ls'}, List.Forall₂ Whole ls ls' →
      Cleaned (unlines (above ++ ls)) (unlines (above' ++ ls')))
    (ends : above.reverse.takeWhile (fun l => (bareLine l).getLast? == some ',') = [])
    (ends' : above'.reverse.takeWhile (fun l => (bareLine l).getLast? == some ',') = [])
    (filled : (above = [] ∧ above' = []) ∨ ∃ l ∈ own, bareLine l ≠ []) :
    (splitHeader cfg u).selector = (splitHeader cfg s).selector ∧
      contentOf (splitHeader cfg u).content = contentOf (splitHeader cfg s).content := by
  let blank : List Char → Bool := fun l => (bareLine l).isEmpty
  let continued : List Char → Bool := fun l => (bareLine l).getLast? == some ','
  have upwards : List.Forall₂ Whole (own.reverse.dropWhile blank)
      (own'.reverse.dropWhile blank) := by
    apply forall₂_dropWhile _ (List.rel_reverse whole)
    intro l l' same
    show (bareLine l).isEmpty = (bareLine l').isEmpty
    rw [same.bareLine_eq]
  have split : ∀ {t : List Char} {above own : List (List Char)}, lines t = above ++ own →
      (lines t).reverse.dropWhile blank =
        if (own.reverse.dropWhile blank).isEmpty then above.reverse.dropWhile blank
        else own.reverse.dropWhile blank ++ above.reverse := by
    intro t above own cut
    rw [cut, List.reverse_append, List.dropWhile_append]
  cases e : own.reverse.dropWhile blank with
  | nil =>
    rw [e] at upwards
    have e' := List.forall₂_nil_left_iff.1 upwards
    obtain ⟨rfl, rfl⟩ | ⟨l, mem, filled⟩ := filled
    · have here : (lines s).reverse.dropWhile blank = [] := by
        rw [split cut, e]
        rfl
      have here' : (lines u).reverse.dropWhile blank = [] := by
        rw [split cut', e']
        rfl
      rw [splitHeader_of_blank here, splitHeader_of_blank here']
      exact ⟨rfl, rfl⟩
    · have none := List.dropWhile_eq_nil_iff.1 e l (List.mem_reverse.2 mem)
      exact absurd (List.isEmpty_iff.1 none) filled
  | cons last more =>
    rw [e] at upwards
    obtain ⟨last', more', same, behind, e'⟩ := List.forall₂_cons_left_iff.1 upwards
    have here := split cut
    have here' := split cut'
    rw [e] at here
    rw [e'] at here'
    have taken : List.Forall₂ Whole (more.takeWhile continued) (more'.takeWhile continued) := by
      apply forall₂_takeWhile _ behind
      intro l l' same
      show ((bareLine l).getLast? == some ',') = ((bareLine l').getLast? == some ',')
      rw [same.bareLine_eq]
    have selector := (whole_unlines (List.rel_reverse (List.Forall₂.cons same taken))).bareLine_eq
    have left : List.Forall₂ Whole (more.drop (more.takeWhile continued).length).reverse
        (more'.drop (more'.takeWhile continued).length).reverse := by
      rw [← taken.length_eq]
      exact List.rel_reverse (List.forall₂_drop _ behind)
    have read := splitHeader_of_upwards cfg here ends
    have read' := splitHeader_of_upwards cfg here' ends'
    simp only [List.reverse_reverse] at read read'
    rw [read, read', selector]
    split
    · exact ⟨rfl, contentOf_eq (cleaned left)⟩
    · exact ⟨rfl, contentOf_eq self⟩

/-- The text ends in a line that is continued below, comments in that line apart. -/
def RunsOn (s : List Char) : Prop :=
  ((lines s).getLast?.bind fun line => (bareLine line).getLast?) = some ','

/-- In front of a nested block no comment is in the way of the selector: none takes up more than one
line, or those that do end above the lines of the selector. The line above these does not run on,
neither as it stands nor without the comments. -/
inductive ClearFront (front : List Char) : Prop
  | oneLined (oneLined : OneLined front)
  | below {above own : List Char} (cut : front = above ++ '\n' :: own)
      (closed : commentsApart above = true) (oneLined : OneLined own)
      (filled : ∃ line ∈ lines own, bareLine line ≠ []) (ends : ¬ RunsOn above)
      (ends' : ¬ RunsOn (stripComments true above))

theorem takeWhile_of_not_runsOn (h : ¬ RunsOn s) :
    (lines s).reverse.takeWhile (fun l => (bareLine l).getLast? == some ',') = [] := by
  cases e : (lines s).reverse with
  | nil => rfl
  | cons last above =>
    have ends : (lines s).getLast? = some last := by
      rw [← List.head?_reverse, e, List.head?_cons]
    apply List.takeWhile_cons_of_neg
    intro comma
    apply h
    rw [RunsOn, ends]
    exact eq_of_beq comma

theorem unlines_lines_append (s l : List Char) (ls : List (List Char)) :
    unlines (lines s ++ l :: ls) = s ++ '\n' :: unlines (l :: ls) := by
  obtain ⟨first, more, cut, -⟩ := lines_inline_append List.not_mem_nil s
  rw [cut, unlines_append, ← cut, unlines_lines]

theorem cleaned_below (h : Cleaned u u') (whole : List.Forall₂ Whole ls ls') :
    Cleaned (unlines (lines u ++ ls)) (unlines (lines u' ++ ls')) := by
  have own := (whole_unlines whole).cleaned
  cases whole with
  | nil =>
    rw [List.append_nil, List.append_nil, unlines_lines, unlines_lines]
    exact h
  | cons first more =>
    rw [unlines_lines_append, unlines_lines_append]
    exact h.newline own

/-- In front of a nested block the same selector and the same content are found. -/
theorem ClearFront.splitHeader_agrees (cfg : Config) (clear : ClearFront s) (tidy : Tidy s) :
    (splitHeader cfg (stripComments true s)).selector = (splitHeader cfg s).selector ∧
      contentOf (splitHeader cfg (stripComments true s)).content =
        contentOf (splitHeader cfg s).content := by
  have self := tidy.cleaned
  obtain ⟨q, spaced⟩ := tidy
  cases clear with
  | oneLined one =>
    have cut : ∀ t, lines t = [] ++ lines t := fun _ => rfl
    apply Block.splitHeader_agrees (cut _) (cut _) (whole_lines spaced one) self
    · exact fun whole => (whole_unlines whole).cleaned
    · rfl
    · rfl
    · exact .inl ⟨rfl, rfl⟩
  | @below above own cut closed one filled ends ends' =>
    subst cut
    obtain ⟨r, front⟩ := exists_spaced closed
    have beside : Spaced ('\n' :: own) (.code true) above r := front.of_apart (.of_head (by simp))
    have newline : opensComment '\n' (own ++ []).head? = false := by
      simp [opensComment]
    have behind : Spaced [] (r.after '\n') own q :=
      Spaced.of_keep newline (Spaced.of_append (by rwa [List.append_nil]) spaced)
    have stripped : stripComments true (above ++ '\n' :: own) =
        stripComments true above ++ '\n' :: stripComments true own := by
      rw [beside.stripComments_append, stripComments_cons true (by simp [opensComment])]
    have cut' : lines (stripComments true (above ++ '\n' :: own)) =
        lines (stripComments true above) ++ lines (stripComments true own) := by
      rw [stripped, lines_append_newline]
    have cleaned : Cleaned above (stripComments true above) := Tidy.cleaned ⟨r, front⟩
    apply Block.splitHeader_agrees lines_append_newline cut' (whole_lines behind one) self
    · exact cleaned_below cleaned
    · exact takeWhile_of_not_runsOn ends
    · exact takeWhile_of_not_runsOn ends'
    · exact .inr filled

/-! ## Sources -/

/-- In the header of a block outside of all others, comments of several lines are at the ends. -/
def ClearHeader (front : List Char) : Prop :=
  bareLine front = trim (stripComments true front)

/-- No comment is in the way of a selector in a block that is read. -/
def Blocks.Clear (cfg : Config) : Blocks → Prop
  | .last _ => True
  | .block front inside next =>
    ClearFront front ∧
      (unsupportedAtRule? cfg (splitHeader cfg front).selector = none → inside.Clear cfg) ∧
      next.Clear cfg

/-- No comment is in the way of a header, an import or a selector. -/
def Items.Clear (cfg : Config) : Items → Prop
  | .last => True
  | .imports line next => ClosedLine line ∧ next.Clear cfg
  | .block front inside next =>
    ClearHeader front ∧
      (unsupportedAtRule? cfg (bareLine front) = none → inside.Clear cfg) ∧ next.Clear cfg

theorem ClearHeader.bareLine_eq (h : ClearHeader s) (tidy : Tidy s) :
    bareLine (stripComments true s) = bareLine s := by
  rw [h, bareLine, (Strips.of_noOpener tidy.cleaned.noOpener).eq]

/-- The inside of a block whose at-rule is not supported does not matter. -/
theorem nestedValue_congr {header : List Char} {b b' : Body}
    (h : unsupportedAtRule? cfg header = none → b = b') :
    nestedValue cfg header b = nestedValue cfg header b' := by
  cases e : unsupportedAtRule? cfg header with
  | none => rw [h e]
  | some name => simp only [nestedValue, nested, e]

theorem outermostValue_congr {header : List Char} {b b' : Body}
    (h : unsupportedAtRule? cfg header = none → b = b') :
    outermostValue cfg header b = outermostValue cfg header b' := by
  cases e : unsupportedAtRule? cfg header with
  | none => rw [h e]
  | some name => simp only [outermostValue, outermost, e]

theorem Blocks.Bared.read_eq {o o' : Blocks} (h : o.Bared o') (clear : o.Clear cfg) :
    o'.read cfg = o.read cfg := by
  induction h with
  | last tidy => exact contentOf_eq tidy.cleaned
  | @block front inside inside' next next' tidy _ _ ihInside ihNext =>
    obtain ⟨front, within, behind⟩ := clear
    obtain ⟨selector, content⟩ := front.splitHeader_agrees cfg tidy
    rw [Blocks.read, Blocks.read, selector, content, ihNext behind,
      nestedValue_congr fun supported => ihInside (within supported)]

theorem readImportLine_value (line : List Char) :
    (readImportLine 0 line).value = ⟨[], [], (readImport line).toList⟩ := by
  unfold readImportLine
  split
  next found => rw [found]; rfl
  next none => rw [none]; rfl

theorem imports_outermostValue (header : List Char) (b : Body) :
    (outermostValue cfg header b).imports = [] := by
  unfold outermostValue outermost readItem
  split
  · rfl
  · split
    · split <;> rfl
    · rfl

/-- The imports of a source are those of its import lines that are well formed. -/
theorem Items.imports_read (o : Items) :
    (o.read cfg).imports = o.importLines.filterMap readImport := by
  induction o with
  | last => rfl
  | imports line next ih =>
    rw [Items.read, readImportLine_value, Stylesheet.imports_append, ih, Items.importLines,
      List.filterMap_cons]
    cases readImport line with
    | none => rfl
    | some d => rfl
  | block front inside next ih =>
    rw [Items.read, Stylesheet.imports_append, imports_outermostValue, ih]
    rfl

theorem Items.Bared.importLines_eq {o o' : Items} (h : o.Bared o') :
    o'.importLines = o.importLines.map (stripComments true) := by
  induction h with
  | last => rfl
  | imports _ _ ih => rw [Items.importLines, Items.importLines, List.map_cons, ih]
  | block _ _ _ ih => exact ih

/-- The rules and the exports of a source are the same without the comments. -/
theorem Items.Bared.read_eq {o o' : Items} (h : o.Bared o') (clear : o.Clear cfg) :
    (o'.read cfg).rules = (o.read cfg).rules ∧ (o'.read cfg).exports = (o.read cfg).exports := by
  induction h with
  | last => exact ⟨rfl, rfl⟩
  | @imports line next next' tidy _ ih =>
    obtain ⟨rules, exports⟩ := ih clear.2
    simp only [Items.read, readImportLine_value, Stylesheet.rules_append,
      Stylesheet.exports_append, rules, exports, and_self]
  | @block front inside inside' next next' tidy within _ ih =>
    obtain ⟨header, inside, behind⟩ := clear
    obtain ⟨rules, exports⟩ := ih behind
    rw [Items.read, Items.read, header.bareLine_eq tidy,
      outermostValue_congr fun supported => within.read_eq (inside supported)]
    simp only [Stylesheet.rules_append, Stylesheet.exports_append, rules, exports, and_self]

theorem Items.Clear.closedLine {o : Items} (clear : o.Clear cfg) :
    ∀ line ∈ o.importLines, ClosedLine line := by
  induction o with
  | last => simp [Items.importLines]
  | imports line next ih => exact List.forall_mem_cons.2 ⟨clear.1, ih clear.2⟩
  | block front inside next ih => exact ih clear.2.2

section

variable {α β : Type} {f g : α → Option β} {xs : List α}

theorem length_filterMap_le (h : ∀ x ∈ xs, g x = f x ∨ f x = none) :
    (xs.filterMap f).length ≤ (xs.filterMap g).length := by
  induction xs with
  | nil => rfl
  | cons x xs ih =>
    obtain ⟨first, more⟩ := List.forall_mem_cons.1 h
    have le := ih more
    rw [List.filterMap_cons, List.filterMap_cons]
    obtain same | none := first
    · rw [same]
      split
      · exact le
      · exact Nat.succ_le_succ le
    · rw [none]
      cases g x with
      | none => exact le
      | some y => exact le.trans (Nat.le_succ _)

/-- Two maps of which one is defined wherever the other is give the same list only if they agree. -/
theorem filterMap_eq_iff (h : ∀ x ∈ xs, g x = f x ∨ f x = none) :
    xs.filterMap g = xs.filterMap f ↔ ∀ x ∈ xs, g x = f x := by
  refine ⟨fun same => ?_, List.filterMap_congr⟩
  induction xs with
  | nil => simp
  | cons x xs ih =>
    obtain ⟨first, more⟩ := List.forall_mem_cons.1 h
    have le := length_filterMap_le more
    have agree : g x = f x ∧ xs.filterMap g = xs.filterMap f := by
      rw [List.filterMap_cons, List.filterMap_cons] at same
      obtain eq | none := first
      · rw [eq] at same
        refine ⟨eq, ?_⟩
        split at same
        · exact same
        · exact (List.cons.inj same).2
      · rw [none] at same ⊢
        split at same
        next none' => exact ⟨none', same⟩
        next y some =>
          have length := congrArg List.length same
          rw [List.length_cons] at length
          omega
    exact List.forall_mem_cons.2 ⟨agree.1, ih more agree.2⟩

end

/-- A source without its comments has the same imports only if the lines that have a comment are no
imports without it. -/
theorem filterMap_readImport_iff {ls : List (List Char)} (tidy : ∀ line ∈ ls, Tidy line) :
    (ls.map (stripComments true)).filterMap readImport = ls.filterMap readImport ↔
      ∀ line ∈ ls, stripComments true line ≠ line →
        readImport (stripComments true line) = none := by
  have unread : ∀ line ∈ ls, stripComments true line ≠ line → readImport line = none := by
    intro line mem commented
    obtain ⟨q, spaced⟩ := tidy line mem
    cases e : readImport line with
    | none => rfl
    | some d => exact absurd (stripComments_of_readImport e spaced) commented
  have kinds : ∀ line ∈ ls, readImport (stripComments true line) = readImport line ∨
      readImport line = none := by
    intro line mem
    by_cases commented : stripComments true line = line
    · exact .inl (congrArg readImport commented)
    · exact .inr (unread line mem commented)
  rw [List.filterMap_map]
  refine (filterMap_eq_iff kinds).trans (forall₂_congr fun line mem => ?_)
  show readImport (stripComments true line) = readImport line ↔ _
  constructor
  · intro same commented
    rw [same, unread line mem commented]
  · intro gone
    by_cases commented : stripComments true line = line
    · rw [commented]
    · rw [gone commented, unread line mem commented]

end NestedStyles.Block

namespace NestedStyles.Stylesheet

open Block

/-- A source whose comments stand apart and are not in the way of a header says the same without
them, unless an import is gained: a line with a comment is never read as one. -/
theorem parse_stripComments_iff (cfg : Config) (text : String)
    (apart : commentsApart text.toList = true) (clear : (items text.toList 0).Clear cfg) :
    (parse cfg (.ofList (stripComments true text.toList))).value = (parse cfg text).value ↔
      ∀ line ∈ (items text.toList 0).importLines, stripComments true line ≠ line →
        readImport (stripComments true line) = none := by
  obtain ⟨q, spaced⟩ := exists_spaced apart
  have closed := clear.closedLine
  have bared := bared_items ⟨true, .zero spaced⟩ closed
  rw [kept_zero] at bared
  obtain ⟨rules, exports⟩ := bared.read_eq clear
  have imports : ∀ a b : Stylesheet, a.rules = b.rules → a.exports = b.exports →
      (a = b ↔ a.imports = b.imports) := by
    intro a b rules exports
    cases a
    cases b
    simp_all
  rw [parse, parse, String.toList_ofList, value_readSheet, value_readSheet,
    imports _ _ rules exports, Items.imports_read, Items.imports_read, bared.importLines_eq]
  exact filterMap_readImport_iff fun line mem => (closed line mem).tidy

/-- A source with comments of several lines. The one in the line of the import is in the way. -/
def lostImport : String :=
  "@import a from './a' /* one */\n/* two\n2 */\n.b /* three */ > .c \x7b\n" ++
    "  d /* four\n  4 */ e\n  /* five\n  5 */\n  .f, /* six */\n  .g \x7b h \x7d\n\x7d"

theorem parse_stripComments_ne_lostImport :
    commentsApart lostImport.toList = true ∧ (items lostImport.toList 0).Clear .standard ∧
      (parse .standard (.ofList (stripComments true lostImport.toList))).value ≠
        (parse .standard lostImport).value := by
  let line := "@import a from './a' /* one */".toList
  let header := ".b /* three */ > .c ".toList
  let above := "\n  d /* four\n  4 */ e\n  /* five\n  5 */".toList
  let own := "  .f, /* six */\n  .g ".toList
  have outline : items lostImport.toList 0 = .imports line (.block header
      (.block (above ++ '\n' :: own) (.last " h ".toList) (.last ['\n'])) .last) := by
    decide +kernel
  have apart : commentsApart lostImport.toList = true := by decide +kernel
  have front : ClearFront (above ++ '\n' :: own) := by
    apply ClearFront.below rfl
    · decide +kernel
    · show stripComments false own = stripComments true own
      decide +kernel
    · decide +kernel
    · unfold RunsOn
      decide +kernel
    · unfold RunsOn
      decide +kernel
  have clear : (items lostImport.toList 0).Clear .standard := by
    rw [outline]
    have closed : ClosedLine line := ⟨false, by decide +kernel⟩
    have headed : ClearHeader header := by
      unfold ClearHeader
      decide +kernel
    exact ⟨closed, headed, fun _ => ⟨front, fun _ => trivial, trivial⟩, trivial⟩
  refine ⟨apart, clear, fun same => ?_⟩
  have mem : line ∈ (items lostImport.toList 0).importLines := by
    rw [outline]
    exact List.mem_cons_self
  have commented : stripComments true line ≠ line := by decide +kernel
  have lost := (parse_stripComments_iff .standard lostImport apart clear).1 same line mem commented
  revert lost
  decide +kernel

/-- A comment of several lines inside the header of a block leaves its line end there. -/
example :
    (parse .standard (.ofList (stripComments true ".a /* b\n*/ .c \x7b d \x7d".toList))).value ≠
      (parse .standard ".a /* b\n*/ .c \x7b d \x7d").value := by
  decide +kernel

end NestedStyles.Stylesheet
