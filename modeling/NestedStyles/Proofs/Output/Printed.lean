import Mathlib.Data.List.Infix
import NestedStyles.Output.Css
import NestedStyles.Proofs.Block.RoundTrip

/-!
# Rule trees in print

A tree of rules without classes and uses, its blocks printed one below the other, is read back as
it is and nothing is reported (`readSheet_printed`).

The text is taken apart at the newlines: each line of a block starts with the newline in front of
it (`below`), so that the text of a block is cut where the block's lines are. The induction is on
the tree. Lines of declarations pile up in front of the first nested block, which is why the
content read before the nested blocks is an argument of the statement.
-/

namespace NestedStyles.Output

open Text Block Layout

variable {cfg : Config} {s w pre : List Char} {b : Body} {depth : Nat} {r : StyleRule}
  {rs : List StyleRule}

/-! ## Texts that can be printed -/

/-- Neither braces, square brackets or quotes nor the start of a comment are in the text. -/
structure Unmarked (s : List Char) : Prop where
  noMark : ∀ c ∈ s, c ∉ ['{', '}', '[', ']', '"', '\'']
  noOpener : ¬ ['/', '*'] <:+: s

instance : Decidable (Unmarked s) :=
  decidable_of_iff ((∀ c ∈ s, c ∉ ['{', '}', '[', ']', '"', '\'']) ∧ ¬ ['/', '*'] <:+: s)
    ⟨fun h => ⟨h.1, h.2⟩, fun h => ⟨h.1, h.2⟩⟩

theorem Unmarked.of_plain (h : ∀ c ∈ s, isPlain c = true) : Unmarked s where
  noMark c hc mark := by
    have plain := h c hc
    simp only [isPlain, decide_eq_true_eq] at plain
    exact plain (by simp_all)
  noOpener := noOpener_of_plain h

theorem Unmarked.append {u : List Char} (hs : Unmarked s) (hu : Unmarked u)
    (between : Apart s u) : Unmarked (s ++ u) where
  noMark := List.forall_mem_append.2 ⟨hs.noMark, hu.noMark⟩
  noOpener := noOpener_append hs.noOpener hu.noOpener between

theorem Unmarked.tail {c : Char} (h : Unmarked (c :: s)) : Unmarked s where
  noMark d hd := h.noMark d (List.mem_cons_of_mem c hd)
  noOpener opener := h.noOpener (List.infix_cons opener)

/-- A search for a brace passes over a text without marks character by character. A backslash means
nothing outside of strings. -/
theorem skips_of_unmarked {t : Char} (brace : t = '}' ∨ t = '{') (h : Unmarked s) : Skips t s := by
  rintro depth stop pos rest after -
  induction s generalizing pos with
  | nil => rfl
  | cons c s ih =>
    have marks := h.noMark c List.mem_cons_self
    simp only [List.mem_cons, List.not_mem_nil, or_false, not_or] at marks
    obtain ⟨opening, closing, bracket, bracket', double, single⟩ := marks
    have other : c ≠ t := by
      obtain rfl | rfl := brace
      · exact closing
      · exact opening
    have plain : Scan.isDelimiter c = false := by
      simp [Scan.isDelimiter, bracket, bracket', double, single]
    have code := opensComment_of_noOpener h.noOpener after
    rw [List.cons_append, add_length_cons]
    refine (seek_visible plain code).trans ?_
    rw [if_neg fun here => other here.1, if_neg opening, if_neg closing]
    exact ih h.tail after.tail

/-- A text that can stand on a line of its own. -/
structure IsLine (s : List Char) : Prop extends Unmarked s where
  inline : '\n' ∉ s
  trimmed : trim s = s

instance : Decidable (IsLine s) :=
  decidable_of_iff (Unmarked s ∧ '\n' ∉ s ∧ trim s = s)
    ⟨fun h => ⟨h.1, h.2.1, h.2.2⟩, fun h => ⟨h.1, h.2, h.3⟩⟩

theorem IsLine.inert (h : IsLine s) : Inert s where
  skips brace := skips_of_unmarked brace h.toUnmarked
  strips _ := .of_noOpener h.noOpener
  inline := h.inline

/-- The selector of a block that can be printed. -/
structure IsSelectorLine (selector : String) : Prop extends IsLine selector.toList where
  nonempty : selector ≠ ""
  noDirective : selector.toList.head? ≠ some '@'

instance (selector : String) : Decidable (IsSelectorLine selector) :=
  decidable_of_iff
    (IsLine selector.toList ∧ selector ≠ "" ∧ selector.toList.head? ≠ some '@')
    ⟨fun h => ⟨h.1, h.2.1, h.2.2⟩, fun h => ⟨h.1, h.2, h.3⟩⟩

theorem IsSelectorLine.isSelector {selector : String} (h : IsSelectorLine selector) :
    IsSelector selector.toList where
  inert := h.inert
  nonempty := by simpa using h.nonempty
  trimmed := h.trimmed
  noOpener := h.noOpener
  noDirective := h.noDirective

/-- A declaration that can be printed: its line ends in `;` and is headed by none of the words that
make a directive of it. -/
structure IsDeclarationLine (declaration : String) : Prop extends IsLine declaration.toList where
  finished : declaration.toList.getLast? = some ';'
  noUse : headedBy ['@', 'u', 's', 'e'] declaration.toList = false
  noImport : headedBy ['@', 'i', 'm', 'p', 'o', 'r', 't'] declaration.toList = false

instance (declaration : String) : Decidable (IsDeclarationLine declaration) :=
  decidable_of_iff
    (IsLine declaration.toList ∧ declaration.toList.getLast? = some ';' ∧
      headedBy ['@', 'u', 's', 'e'] declaration.toList = false ∧
      headedBy ['@', 'i', 'm', 'p', 'o', 'r', 't'] declaration.toList = false)
    ⟨fun h => ⟨h.1, h.2.1, h.2.2.1, h.2.2.2⟩, fun h => ⟨h.1, h.2, h.3, h.4⟩⟩

/-! ## Printing -/

mutual

/-- The lines of a rule and of the rules nested in it. -/
def treeLines (depth : Nat) : StyleRule → List String
  | ⟨selector, _, declarations, _, children⟩ =>
    blockLines depth selector
      (declarations.map (indented (depth + 1)) ++ forestLines (depth + 1) children)

/-- The lines of rules that stand side by side. -/
def forestLines (depth : Nat) : List StyleRule → List String
  | [] => []
  | r :: rs => treeLines depth r ++ forestLines depth rs

end

/-- Lines, each with the newline in front of it. -/
def below (ls : List String) : List Char :=
  ls.flatMap fun l => '\n' :: l.toList

@[simp] theorem below_nil : below [] = [] := rfl

@[simp] theorem below_cons (l : String) (ls : List String) :
    below (l :: ls) = '\n' :: l.toList ++ below ls := rfl

@[simp] theorem below_append (ls ls' : List String) : below (ls ++ ls') = below ls ++ below ls' :=
  List.flatMap_append

/-- The white space in front of a line at some depth. -/
def indentation (depth : Nat) : List Char :=
  .replicate (2 * depth) ' '

theorem allBlank_indentation (depth : Nat) : AllBlank (indentation depth) := by
  intro c hc
  rw [List.eq_of_mem_replicate hc]
  exact isBlank_space

theorem inline_indentation (depth : Nat) : '\n' ∉ indentation depth := by
  simp [indentation]

@[simp] theorem toList_indented (depth : Nat) (line : String) :
    (indented depth line).toList = indentation depth ++ line.toList := by
  simp [indented, indentation]

/-- The newline and the white space in front of a line. -/
def lineBreak (depth : Nat) : Break where
  chars := '\n' :: indentation depth
  blank := List.forall_mem_cons.2 ⟨isBlank_newline, allBlank_indentation depth⟩
  breaks := List.mem_cons_self

/-- The space in front of a brace. -/
def braceGap : Blanks where
  chars := [' ']
  blank := by decide

/-- What is printed between the braces of a rule. -/
def inside (depth : Nat) (r : StyleRule) : List Char :=
  below (r.declarations.map (indented (depth + 1)) ++ forestLines (depth + 1) r.children) ++
    (lineBreak depth).chars

theorem below_treeLines (depth : Nat) (r : StyleRule) :
    below (treeLines depth r) =
      (lineBreak depth).chars ++ braced r.selector.toList braceGap (inside depth r) := by
  cases r
  simp [treeLines, blockLines, inside, lineBreak, braceGap, braced]

theorem below_forestLines_cons (depth : Nat) (r : StyleRule) (rs : List StyleRule) :
    below (forestLines depth (r :: rs)) =
      (lineBreak depth).chars ++ braced r.selector.toList braceGap (inside depth r) ++
        below (forestLines depth rs) := by
  rw [forestLines, below_append, below_treeLines]

/-! ## Trees that can be printed -/

/-- All that is in the rule's own block can be printed. -/
structure Printable (r : StyleRule) : Prop where
  selector : IsSelectorLine r.selector
  noClasses : r.classes = []
  declarations : ∀ d ∈ r.declarations, IsDeclarationLine d
  noUses : r.uses = []

/-- Rules that can be printed inside of a block: no selector would be taken for a class. -/
def Nestable (cfg : Config) (rs : List StyleRule) : Prop :=
  ∀ r ∈ StyleRule.walkAll rs, Printable r ∧ looksLikeSelector cfg r.selector.toList = true

theorem nestable_cons :
    Nestable cfg (r :: rs) ↔
      (Printable r ∧ looksLikeSelector cfg r.selector.toList = true) ∧ Nestable cfg r.children ∧
        Nestable cfg rs := by
  obtain ⟨selector, classes, declarations, uses, children⟩ := r
  simp only [Nestable, StyleRule.walkAll, StyleRule.walk, List.cons_append, List.forall_mem_cons,
    List.forall_mem_append]

/-! ## Blocks of a printed tree -/

/-- The lines of declarations are content. -/
theorem content_declarations {declarations : List String} (h : Content w b)
    (lines : ∀ d ∈ declarations, IsDeclarationLine d) :
    Content (w ++ below (declarations.map (indented depth)))
      (b ++ { Body.empty with declarations := declarations }) := by
  induction declarations generalizing w b with
  | nil =>
    show Content (w ++ []) (b ++ Body.empty)
    rwa [List.append_nil, Body.append_empty]
  | cons d declarations ih =>
    obtain ⟨first, more⟩ := List.forall_mem_cons.1 lines
    have line : Content (indentation depth ++ d.toList)
        { Body.empty with declarations := [.ofList d.toList] } :=
      .of_declaration (allBlank_indentation depth) (inline_indentation depth) first.inert
        first.trimmed first.finished first.noUse first.noImport
    have all := ih (h.newline line) more
    have text : w ++ below ((d :: declarations).map (indented depth)) =
        w ++ '\n' :: (indentation depth ++ d.toList) ++
          below (declarations.map (indented depth)) := by
      simp
    have content : b ++ { Body.empty with declarations := d :: declarations } =
        b ++ { Body.empty with declarations := [.ofList d.toList] } ++
          { Body.empty with declarations := declarations } := by
      rw [Body.append_assoc, String.ofList_toList]
      rfl
    rwa [text, content]

theorem apart_below (u : List Char) (ls : List String) : Apart u (below ls) := by
  refine .of_head ?_
  cases ls with
  | nil => simp
  | cons l ls => simp

theorem skips_declarations {declarations : List String}
    (lines : ∀ d ∈ declarations, IsDeclarationLine d) :
    Skips '}' (below (declarations.map (indented depth))) := by
  induction declarations with
  | nil => exact .of_blank (.inl rfl) (by simp [AllBlank])
  | cons d declarations ih =>
    obtain ⟨first, more⟩ := List.forall_mem_cons.1 lines
    have blank : AllBlank (lineBreak depth).chars := (lineBreak depth).blank
    have line : Skips '}' ((lineBreak depth).chars ++ d.toList) :=
      (Skips.of_blank (.inl rfl) blank).append (first.inert.skips (.inl rfl)) (.of_blank_left blank)
    simpa [lineBreak] using line.append (ih more) (apart_below _ _)

mutual

/-- A search for the end of a rule passes over what is printed inside of it. -/
theorem skips_inside (r : StyleRule) (depth : Nat)
    (declarations : ∀ d ∈ r.declarations, IsDeclarationLine d)
    (nested : Nestable cfg r.children) : Skips '}' (inside depth r) := by
  obtain ⟨selector, classes, declared, uses, children⟩ := r
  have blank : AllBlank (lineBreak depth).chars := (lineBreak depth).blank
  rw [inside, below_append]
  exact ((skips_declarations declarations).append (skips_forest children (depth + 1) nested)
    (apart_below _ _)).append (.of_blank (.inl rfl) blank) (.of_blank_right blank)

/-- A search for the end of a block passes over the rules printed inside of it. -/
theorem skips_forest (rs : List StyleRule) (depth : Nat) (h : Nestable cfg rs) :
    Skips '}' (below (forestLines depth rs)) := by
  cases rs with
  | nil => exact .of_blank (.inl rfl) (by simp [AllBlank, forestLines])
  | cons r rs =>
    obtain ⟨⟨printable, -⟩, nested, others⟩ := nestable_cons.1 h
    have blank : AllBlank (lineBreak depth).chars := (lineBreak depth).blank
    have block : Skips '}' (braced r.selector.toList braceGap (inside depth r)) :=
      skips_braced braceGap printable.selector.isSelector.toIsHeader
        (skips_inside r depth printable.declarations nested)
    rw [below_forestLines_cons]
    exact ((Skips.of_blank (.inl rfl) blank).append block (.of_blank_left blank)).append
      (skips_forest rs depth others) (apart_below _ _)

end

mutual

/-- The inside of a printed rule gives the content of the rule. -/
theorem readBody_inside (r : StyleRule) (depth : Nat) (h : Printable r)
    (nested : Nestable cfg r.children) (pre rest : List Char) :
    Gives (readBody cfg (pre ++ inside depth r ++ '}' :: rest) pre.length
      (pre ++ inside depth r).length) r.body [] := by
  obtain ⟨selector, classes, declarations, uses, children⟩ := r
  obtain rfl : classes = [] := h.noClasses
  obtain rfl : uses = [] := h.noUses
  have lines : Content ([] ++ below (declarations.map (indented (depth + 1))))
      (Body.empty ++ { Body.empty with declarations := declarations }) :=
    content_declarations .nil h.declarations
  have whole : Body.empty ++ { Body.empty with declarations := declarations } ++
      { Body.empty with children := children } = ⟨[], declarations, [], children⟩ := by
    show Body.mk _ _ _ _ = _
    simp [Body.empty]
  have read := readBody_forest children (depth + 1) nested pre rest lines (lineBreak depth).blank
  rw [whole] at read
  simpa [inside, StyleRule.body] using read

/-- Rules printed below lines of content are nested in the block. -/
theorem readBody_forest (rs : List StyleRule) (depth : Nat) (h : Nestable cfg rs)
    (pre rest : List Char) {w closing : List Char} {b : Body} (content : Content w b)
    (blank : AllBlank closing) :
    Gives (readBody cfg (pre ++ (w ++ (below (forestLines depth rs) ++ closing)) ++ '}' :: rest)
        pre.length (pre ++ (w ++ (below (forestLines depth rs) ++ closing))).length)
      (b ++ { Body.empty with children := rs }) [] := by
  cases rs with
  | nil =>
    have empty : { Body.empty with children := [] } = Body.empty := rfl
    rw [forestLines, below_nil, List.nil_append, readBody_last (content.append_blank blank), empty,
      Body.append_empty]
    exact .nothing b
  | cons r rs =>
    obtain ⟨⟨printable, proper⟩, nested, others⟩ := nestable_cons.1 h
    have isSelector : IsSelector r.selector.toList := printable.selector.isSelector
    obtain ⟨line, front, back, read⟩ := exists_readBody_block pre rest content
      isSelector.toIsHeader (lineBreak depth) braceGap proper
      (skips_inside r depth printable.declarations nested)
    have first := readBody_inside r depth printable nested front
    have later := readBody_forest rs depth others back rest .nil blank
    have children : b ++ { Body.empty with children := r :: rs } =
        b ++ ({ Body.empty with children := [r.body.toRule (.ofList r.selector.toList)] } ++
          { Body.empty with children := rs }) := by
      rw [String.ofList_toList, StyleRule.toRule_body]
      rfl
    rw [below_forestLines_cons, List.append_assoc _ _ closing, read, nested_selector isSelector,
      children]
    refine (Gives.nothing b).append (.append (.map _ (first _)) ?_)
    simpa using later

end

/-! ## Printed sheets -/

/-- A rule printed at the top of a sheet is read, and then what follows it. -/
theorem readSheet_tree {g tail : List Char} {sheet : Stylesheet} {faults : List Fault}
    (h : Printable r) (nested : Nestable cfg r.children) (pre : List Char) (passed : Passed g)
    (later : ∀ back : List Char, Gives (readSheet cfg (back ++ tail) back.length) sheet faults) :
    Gives (readSheet cfg (pre ++ (g ++ (braced r.selector.toList braceGap (inside 0 r) ++ tail)))
      pre.length) ({ Stylesheet.empty with rules := [r] } ++ sheet) faults := by
  have isSelector : IsSelector r.selector.toList := h.selector.isSelector
  have own : ∀ (line : Nat) (front : List Char), Gives (outermost cfg line r.selector.toList
      (readBody cfg (front ++ inside 0 r ++ '}' :: tail) front.length (front ++ inside 0 r).length))
      { Stylesheet.empty with rules := [r] } [] := by
    intro line front
    have read := (readBody_inside r 0 h nested front tail).map fun b =>
      { Stylesheet.empty with rules := [b.toRule (.ofList r.selector.toList)] }
    rwa [← outermost_selector isSelector, String.ofList_toList, StyleRule.toRule_body] at read
  exact readSheet_braced pre passed (heads_selector isSelector braceGap)
    (skips_inside r 0 h.declarations nested) own later

/-- Rules that can be printed at the top of a sheet. -/
def AllPrintable (cfg : Config) (rs : List StyleRule) : Prop :=
  ∀ r ∈ rs, Printable r ∧ Nestable cfg r.children

theorem readSheet_forest (h : AllPrintable cfg rs) {g : List Char} (pre : List Char)
    (passed : Passed g) :
    Gives (readSheet cfg (pre ++ (g ++ below (forestLines 0 rs))) pre.length) ⟨rs, [], []⟩ [] := by
  induction rs generalizing pre g with
  | nil =>
    apply readSheet_nil
    rw [forestLines, below_nil, passed.skipGap, gapEnd, if_pos (by simp)]
    simp
  | cons r rs ih =>
    obtain ⟨⟨printable, nested⟩, others⟩ := List.forall_mem_cons.1 h
    have start : Passed (g ++ (lineBreak 0).chars) := passed.append (.of_blank (lineBreak 0).blank)
    have read := readSheet_tree printable nested pre start fun back =>
      ih others back (.of_blank (by simp [AllBlank]) : Passed [])
    have whole : { Stylesheet.empty with rules := [r] } ++ (⟨rs, [], []⟩ : Stylesheet) =
        ⟨r :: rs, [], []⟩ := rfl
    rw [whole] at read
    rw [below_forestLines_cons]
    simpa using read

/-- The text, if there is one, is read as these rules and nothing is reported. There is none if
there are no rules. -/
def ReadsAs (cfg : Config) (rules : List StyleRule) : Option String → Prop
  | none => rules = []
  | some text => rules ≠ [] ∧ Stylesheet.parse cfg text = ⟨⟨rules, [], []⟩, []⟩

theorem below_eq_intercalate {ls : List String} (nonempty : ls ≠ []) :
    below ls = '\n' :: ("\n".intercalate ls).toList := by
  induction ls with
  | nil => exact absurd rfl nonempty
  | cons l ls ih =>
    cases ls with
    | nil => simp
    | cons l' ls =>
      rw [below_cons, ih (List.cons_ne_nil _ _),
        String.intercalate_cons_of_ne_nil (List.cons_ne_nil _ _)]
      simp

/-- A printed forest is read back. -/
theorem joined_forestLines (h : AllPrintable cfg rs) :
    ReadsAs cfg rs (joined (forestLines 0 rs)) := by
  cases rs with
  | nil => rfl
  | cons r rs =>
    obtain ⟨⟨printable, nested⟩, others⟩ := List.forall_mem_cons.1 h
    have whole : below (forestLines 0 (r :: rs)) =
        '\n' :: (braced r.selector.toList braceGap (inside 0 r) ++ below (forestLines 0 rs)) :=
      below_forestLines_cons 0 r rs
    obtain ⟨l, ls, lines⟩ : ∃ l ls, forestLines 0 (r :: rs) = l :: ls := by
      apply List.exists_cons_of_ne_nil
      intro none
      rw [none] at whole
      cases whole
    have text : ("\n".intercalate (l :: ls)).toList =
        braced r.selector.toList braceGap (inside 0 r) ++ below (forestLines 0 rs) := by
      rw [lines, below_eq_intercalate (List.cons_ne_nil l ls)] at whole
      exact (List.cons.inj whole).2
    have read := readSheet_tree printable nested [] (.of_blank (by decide) : Passed []) fun back =>
      readSheet_forest others back (.of_blank (by decide) : Passed [])
    simp only [List.nil_append] at read
    rw [lines]
    refine ⟨List.cons_ne_nil r rs, ?_⟩
    rw [Stylesheet.parse, text]
    exact read.eq

end NestedStyles.Output
