import NestedStyles.Proofs.Block.Braces
import NestedStyles.Proofs.Block.Declarations
import NestedStyles.Proofs.Block.Joined

/-!
# At-rules that are skipped

An at-rule that is not supported is a block, or a statement that ends in a semicolon
(`Unsupported`). A block is skipped and nothing else. A statement takes what follows it up to the
next block for its header, and that block for its own: the source says the same with it only if
that block says nothing, and no import stands in front of it (`Stylesheet.unsupported_apart_iff`).
-/

namespace NestedStyles.Layout

open Text Block

/-- A text in which each string, comment and bracket has its end, cut into spans. No string of it
ends right behind a backslash. -/
structure Passage where
  spans : List Span
  legible : Legible [] spans
  ended : ∀ quote inner, .unended quote inner ∉ spans
  plain : ∀ p ∈ spans, p.EndsPlainly
  nested : bracketsBehind? 0 spans = some 0

/-- The text as written. -/
def Passage.chars (p : Passage) : List Char :=
  written p.spans

/-- An at-rule that is not supported, up to its block or its end. No comment makes the name longer,
and the header is not that of an import. -/
structure UnsupportedHeader (cfg : Config) where
  indent : Blanks
  name : List Char
  rest : Passage
  nonempty : name ≠ []
  isName : ∀ c ∈ name, isNameChar c = true
  maximal : ∀ c ∈ (stripComments false rest.chars).head?, isNameChar c = false
  listed : String.ofList (lowerCase name) ∈ cfg.unsupportedAtRules
  noBraces : ∀ c ∈ visible 0 rest.spans, c ≠ '{' ∧ c ≠ '}'
  noImport : name = ['i', 'm', 'p', 'o', 'r', 't'] → StartsSolid rest.chars

/-- An at-rule that is not supported. -/
inductive Unsupported (cfg : Config)
  | statement (header : UnsupportedHeader cfg)
      (finished : header.rest.spans.getLast? = some (.plain ';'))
  | block (header : UnsupportedHeader cfg) (body : Passage)
      (balanced : Balanced (visible 0 body.spans))

variable {cfg : Config}

/-- The at-rule from its name on. -/
def UnsupportedHeader.chars (h : UnsupportedHeader cfg) : List Char :=
  '@' :: (h.name ++ h.rest.chars)

/-- What is to be reported of the at-rule. -/
def UnsupportedHeader.fault (h : UnsupportedHeader cfg) : Fault :=
  .unsupportedAtRule (.ofList ('@' :: h.name))

namespace Unsupported

/-- The at-rule as written. -/
def text : Unsupported cfg → List Char
  | statement header _ => header.indent.chars ++ header.chars
  | block header body _ => header.indent.chars ++ (header.chars ++ '{' :: (body.chars ++ ['}']))

/-- The header of the at-rule. -/
def header : Unsupported cfg → UnsupportedHeader cfg
  | statement header _ | block header _ _ => header

/-- The at-rule has a block. -/
def IsBlock : Unsupported cfg → Prop
  | statement _ _ => False
  | block _ _ _ => True

end Unsupported

/-- What may stand in front of a block. -/
inductive Lead
  | blank (blanks : Blanks)
  | comment (inner : List Char) (closed : ¬ ['*', '/'] <:+: inner)
  | imports (line : ImportLine) (endsPlainly : line.source.path.getLast? ≠ some '\\') (trail : Gap)

namespace Lead

/-- The part as written. -/
def text : Lead → List Char
  | blank b => b.chars
  | comment inner _ => '/' :: '*' :: (inner ++ ['*', '/'])
  | imports line _ trail => line.text ++ (trail.chars ++ ['\n'])

/-- The imports of the part. -/
def meaning : Lead → List ImportDirective
  | blank _ | comment _ _ => []
  | imports line _ _ => [line.meaning]

end Lead

/-- What follows an at-rule: white space, comments and imports, and then any text that starts with
none of these. -/
structure Following where
  lead : List Lead
  rest : List Char
  starts : skipGap rest 0 rest.length = 0
  noImport : startsImport rest = false

/-- What follows, as written. -/
def Following.text (f : Following) : List Char :=
  f.lead.flatMap Lead.text ++ f.rest

end NestedStyles.Layout

namespace NestedStyles.Block

open Text Layout

variable {cfg : Config} {s u v rest : List Char} {c t : Char} {ps : List Span}

/-! ## Parts that are passed over -/

theorem Legible.of_plain (plain : ∀ c ∈ s, isPlain c = true) : Legible [] (s.map .plain) := by
  induction s with
  | nil => exact .nil
  | cons c s ih =>
    obtain ⟨own, more⟩ := List.forall_mem_cons.1 plain
    have single : Scan.isDelimiter c = false := by
      simp_all [isPlain, Scan.isDelimiter]
    have code : c ≠ '/' := ne_of_holds own (by decide)
    exact .plain single (by simp [opensComment, code]) (ih more)

theorem bracketsBehind?_plain (k : Nat) (s : List Char) :
    bracketsBehind? k (s.map .plain) = some k := by
  induction s with
  | nil => rfl
  | cons c s ih => exact ih

theorem skips_body (p : Passage) (balanced : Balanced (visible 0 p.spans)) : Skips '}' p.chars :=
  .of_spans (.inl rfl) p.legible p.ended p.plain p.nested balanced.passes

theorem isPlain_of_mem_atName (h : UnsupportedHeader cfg) :
    ∀ c ∈ '@' :: h.name, isPlain c = true :=
  List.forall_mem_cons.2 ⟨by decide, fun c mem => isPlain_of_isNameChar (h.isName c mem)⟩

theorem skips_header (h : UnsupportedHeader cfg) (brace : t = '}' ∨ t = '{') :
    Skips t h.chars := by
  have plain := isPlain_of_mem_atName h
  have name : Skips t ('@' :: h.name) := .of_plain brace plain
  have rest : Skips t h.rest.chars :=
    .of_spans brace h.rest.legible h.rest.ended h.rest.plain h.rest.nested
      (passes?_braceless brace h.noBraces)
  exact name.append rest (.of_plain_left plain)

theorem isPlain_of_mem_listed (e : Gap × Gap × Name) : ∀ c ∈ listed e, isPlain c = true := by
  obtain ⟨before, after, name⟩ := e
  have ofGap : ∀ g : Gap, ∀ c ∈ g.chars, isPlain c = true :=
    fun g c mem => isPlain_of_isBlank (g.blank c mem)
  exact List.forall_mem_append.2 ⟨ofGap before, List.forall_mem_cons.2 ⟨by decide,
    List.forall_mem_append.2 ⟨ofGap after,
      fun c mem => isPlain_of_isNameChar (isNameChar_of_mem name c mem)⟩⟩⟩

theorem isPlain_of_mem_beforePath (l : ImportLine) : ∀ c ∈ beforePath l, isPlain c = true := by
  have ofSpace : ∀ g : Space, ∀ c ∈ g.chars, isPlain c = true :=
    fun g c mem => isPlain_of_isBlank (g.blank c mem)
  have list : ∀ c ∈ l.list, isPlain c = true := by
    refine List.forall_mem_append.2
      ⟨fun c mem => isPlain_of_isNameChar (isNameChar_of_mem l.first c mem), fun c mem => ?_⟩
    obtain ⟨e, -, within⟩ := List.mem_flatMap.1 mem
    exact isPlain_of_mem_listed e c within
  exact List.forall_mem_append.2 ⟨by decide, List.forall_mem_append.2 ⟨ofSpace l.space,
    List.forall_mem_append.2 ⟨list, List.forall_mem_append.2 ⟨ofSpace l.source.before,
      List.forall_mem_append.2 ⟨by decide, ofSpace l.source.after⟩⟩⟩⟩⟩

theorem escaped_of_unquoted {quote : Char} (unquoted : quote ∉ s)
    (last : s.getLast? ≠ some '\\') : Escaped quote s := by
  obtain ⟨inner, rest, rfl, -⟩ | escaped | ⟨u, rfl, -⟩ := exists_escaped quote s
  · simp at unquoted
  · exact escaped
  · simp at last

theorem skips_import (brace : t = '}' ∨ t = '{') (l : ImportLine)
    (endsPlainly : l.source.path.getLast? ≠ some '\\') : Skips t l.text := by
  have unquoted : l.source.quote ∉ l.source.path :=
    fun mem => by simpa [l.source.isQuote] using l.source.unquoted _ mem
  have legible : Legible [] [.quoted l.source.quote l.source.path] :=
    .quoted l.source.isQuote (escaped_of_unquoted unquoted endsPlainly) .nil
  have spans : l.source.quoted = written [.quoted l.source.quote l.source.path] := by
    simp [Source.quoted, Span.chars]
  have quoted : Skips t l.source.quoted := by
    rw [spans]
    refine .of_spans brace legible (by simp) (fun p mem => ?_) rfl fun _ => rfl
    obtain rfl := List.mem_singleton.1 mem
    exact endsPlainly
  have last : l.source.quoted.getLast? ≠ some '/' := by
    rw [Source.quoted, ← List.cons_append, List.getLast?_concat]
    exact fun same => ne_of_holds l.source.isQuote (by decide) (Option.some.inj same)
  have plain := isPlain_of_mem_beforePath l
  rw [import_text]
  exact (Skips.of_plain brace plain).append
    (quoted.append ((inert_semicolon l.finish).skips brace) (.of_last last)) (.of_plain_left plain)

/-- A search passes over what stands in front of a block. -/
theorem seek_leads (brace : t = '}' ∨ t = '{') (ls : List Lead) {stop pos d : Nat}
    (room : pos + (ls.flatMap Lead.text).length ≤ stop) :
    seek t stop ⟨.code, 0, d⟩ pos (ls.flatMap Lead.text ++ rest) =
      seek t stop ⟨.code, 0, d⟩ (pos + (ls.flatMap Lead.text).length) rest := by
  induction ls generalizing pos with
  | nil => rfl
  | cons l ls ih =>
    rw [List.flatMap_cons, add_length_append] at room ⊢
    rw [List.append_assoc, ← ih room]
    have own : pos + l.text.length ≤ stop := by omega
    cases l with
    | blank b => exact Skips.of_blank brace b.blank d (.of_blank_left b.blank) own
    | comment inner closed => exact seek_whole_comment closed
    | imports line endsPlainly trail =>
      have behind : AllBlank (trail.chars ++ ['\n']) := trail.blank.append allBlank_newline
      have whole : Skips t (Lead.imports line endsPlainly trail).text :=
        (skips_import brace line endsPlainly).append (.of_blank brace behind)
          (.of_blank_right behind)
      refine whole d (.of_last ?_) own
      rw [Lead.text, ← List.append_assoc, List.getLast?_concat]
      decide

/-! ## What stands in front of a block -/

theorem readSheet_passed (cfg : Config) (pre : List Char) (passed : Passed u) (s : List Char) :
    readSheet cfg (pre ++ (u ++ s)) pre.length =
      readSheet cfg (pre ++ u ++ s) (pre ++ u).length := by
  rw [← List.append_assoc]
  apply readSheet_congr
  rw [List.append_assoc, passed.skipGap, ← List.append_assoc, skipGap, List.drop_left]

/-- White space, comments and imports are read, and then what follows. -/
theorem readSheet_leads (cfg : Config) (pre : List Char) (ls : List Lead) (s : List Char) :
    ∃ back, readSheet cfg (pre ++ (ls.flatMap Lead.text ++ s)) pre.length =
      ⟨{ Stylesheet.empty with imports := ls.flatMap Lead.meaning }, []⟩ ++
        readSheet cfg (back ++ s) back.length := by
  induction ls generalizing pre with
  | nil => exact ⟨pre, (reported_nothing_append Stylesheet.empty_append _).symm⟩
  | cons l ls ih =>
    rw [List.flatMap_cons, List.append_assoc]
    cases l with
    | blank b =>
      obtain ⟨back, read⟩ := ih (pre ++ b.chars)
      exact ⟨back, (readSheet_passed cfg pre (.of_blank b.blank) _).trans read⟩
    | comment inner closed =>
      obtain ⟨back, read⟩ := ih (pre ++ ('/' :: '*' :: (inner ++ ['*', '/'])))
      exact ⟨back, (readSheet_passed cfg pre (.of_closed closed) _).trans read⟩
    | imports line endsPlainly trail =>
      have ended : ∀ c ∈ ('\n' :: (ls.flatMap Lead.text ++ s)).head?, c = '\n' := by
        rintro c ⟨⟩
        rfl
      obtain ⟨front, imported⟩ := readSheet_import cfg pre
        (.of_blank (List.forall_mem_nil _) : Passed []) line trail ended
      obtain ⟨back, read⟩ := ih (front ++ ['\n'])
      refine ⟨back, ?_⟩
      have start : (front ++ ['\n']).length = front.length + 1 := List.length_append
      rw [start, List.append_assoc, List.singleton_append] at read
      rw [List.nil_append, read, ← reported_append_assoc Stylesheet.append_assoc] at imported
      refine Eq.trans ?_ imported
      simp [Lead.text]

/-! ## What follows an at-rule -/

theorem find?_follows (brace : t = '}' ∨ t = '{') (f : Following) :
    find? t f.text 0 f.text.length =
      (find? t f.rest 0 f.rest.length).map ((f.lead.flatMap Lead.text).length + ·) := by
  have length : f.text.length = (f.lead.flatMap Lead.text).length + f.rest.length :=
    List.length_append
  have passed : seek t f.text.length ⟨.code, 0, 0⟩ 0 (f.lead.flatMap Lead.text ++ f.rest) =
      seek t f.text.length ⟨.code, 0, 0⟩ (0 + (f.lead.flatMap Lead.text).length) f.rest :=
    seek_leads brace f.lead (by omega)
  rw [find?, find?, List.drop_zero, List.drop_zero, ← seek_add, Nat.add_zero, ← length]
  rw [Nat.zero_add] at passed
  exact passed

/-- Everything behind a position of a text is read as a text of its own. -/
theorem value_behind (cfg : Config) (pre s : List Char) (i : Nat) :
    (readSheet cfg (pre ++ s) (pre.length + i)).value = (readSheet cfg s i).value := by
  rw [readSheet_behind]
  rfl

theorem value_follows (cfg : Config) (f : Following) :
    (readSheet cfg f.text 0).value =
      { Stylesheet.empty with imports := f.lead.flatMap Lead.meaning } ++
        (readSheet cfg f.rest 0).value := by
  obtain ⟨back, read⟩ := readSheet_leads cfg [] f.lead f.rest
  have whole := congrArg Reported.value read
  rw [Reported.value_append] at whole
  exact whole.trans (congrArg (_ ++ ·) (value_behind cfg back f.rest 0))

/-- The first block of what follows says what its header and its inside say. -/
theorem value_rest (cfg : Config) (f : Following) :
    (readSheet cfg f.rest 0).value =
      match find? '{' f.rest 0 f.rest.length with
      | none => .empty
      | some brace =>
        outermostValue cfg (bareLine (f.rest.take brace))
            (readBody cfg f.rest (brace + 1) (closing f.rest brace)).value ++
          (readSheet cfg f.rest (closing f.rest brace + 1)).value := by
  cases nonempty : f.rest with
  | nil =>
    rw [readSheet_of_end rfl (Nat.zero_le _)]
    rfl
  | cons c more =>
    rw [← nonempty]
    have room : 0 < f.rest.length := by
      rw [nonempty]
      exact Nat.succ_pos _
    have noImport : startsImport (f.rest.drop 0) = false := f.noImport
    cases found : find? '{' f.rest 0 f.rest.length with
    | none =>
      rw [readSheet_of_none f.starts room noImport found]
      exact value_readStray _ _
    | some brace =>
      rw [readSheet_of_brace f.starts room noImport found, Reported.value_append,
        Reported.value_append, value_outermost, Stylesheet.empty_append]
      rfl

/-- A block with this header adds nothing to a sheet. -/
def AddsNothing (cfg : Config) (header : List Char) : Prop :=
  (unsupportedAtRule? cfg header).isSome = true ∨
    ['@', 'e', 'x', 'p', 'o', 'r', 't'].isPrefixOf header = true ∧ readExport header = none

theorem outermostValue_eq_empty_iff {header : List Char} {b : Body} :
    outermostValue cfg header b = .empty ↔ AddsNothing cfg header := by
  unfold outermostValue outermost readItem AddsNothing
  cases unsupportedAtRule? cfg header with
  | some name => simp
  | none =>
    by_cases exports : ['@', 'e', 'x', 'p', 'o', 'r', 't'].isPrefixOf header = true
    · rw [if_pos exports]
      cases readExport header with
      | some name => simp [Reported.map, Stylesheet.empty]
      | none => simp [exports]
    · rw [if_neg exports]
      simp [exports, Reported.map, Stylesheet.empty]

/-- No import stands in front of the first block of what follows, and the block adds nothing. -/
def StartsIdle (cfg : Config) (f : Following) : Prop :=
  f.lead.flatMap Lead.meaning = [] ∧
    ∃ brace ∈ find? '{' f.rest 0 f.rest.length, AddsNothing cfg (bareLine (f.rest.take brace))

instance (header : List Char) : Decidable (AddsNothing cfg header) :=
  inferInstanceAs (Decidable (_ ∨ _ ∧ _))

instance (f : Following) : Decidable (StartsIdle cfg f) :=
  inferInstanceAs (Decidable (_ ∧ ∃ brace ∈ _, _))

/-! ## At-rules -/

theorem opensComment_quote {quote : Char} (kind : isQuote quote = true) (next : Option Char) :
    opensComment quote next = false := by
  have other : quote ≠ '/' := ne_of_holds kind (by decide)
  simp [opensComment, other]

/-- Where no name goes on in a text without its comments, none does in the text, nor in what is left
of the text and what follows it. -/
theorem endsName_written (legible : Legible rest ps)
    (ends : EndsName (stripComments false (written ps))) :
    (EndsName rest → EndsName (written ps ++ rest)) ∧
      (EndsName (stripComments false rest) →
        EndsName (stripComments false (written ps ++ rest))) := by
  -- All but a comment begins with a character that stays.
  have first {c : Char} {s : List Char} (code : opensComment c (s ++ rest).head? = false)
      (ends : EndsName (stripComments false (c :: s))) :
      (EndsName rest → EndsName (c :: s ++ rest)) ∧ (EndsName (stripComments false rest) →
        EndsName (stripComments false (c :: s ++ rest))) := by
    rw [stripComments_cons false (opensComment_append code)] at ends
    rw [List.cons_append, stripComments_cons false code]
    exact ⟨fun _ => ends, fun _ => ends⟩
  induction legible with
  | nil => exact ⟨id, id⟩
  | plain single code => exact first code ends
  | opener => exact first rfl ends
  | closer => exact first rfl ends
  | quoted kind escaped => exact first (opensComment_quote kind _) ends
  | unended kind escaped => exact first (opensComment_quote kind _) ends
  | @comment inner ps closed more ih =>
    have bare (s : List Char) :
        stripComments false ('/' :: '*' :: (inner ++ ['*', '/']) ++ s) = stripComments false s := by
      rw [← comment_append, stripComments_comment false closed]
      rfl
    rw [written_cons, Span.chars, bare] at ends
    rw [written_cons, Span.chars, List.append_assoc, bare]
    exact ⟨fun _ c first => by cases first; decide +kernel, (ih ends).2⟩

theorem trimRight_append (solid : EndsSolid u) (s : List Char) :
    trimRight (u ++ s) = u ++ trimRight s := by
  have own : (u.reverse.dropWhile isBlank).reverse = u := trimRight_eq_self_iff.2 solid
  rw [trimRight, trimRight, List.reverse_append, List.dropWhile_append]
  split
  next blank => rw [own, List.isEmpty_iff.1 blank, List.reverse_nil, List.append_nil]
  next => rw [List.reverse_append, List.reverse_reverse]

theorem trimRight_prefix (s : List Char) : trimRight s <+: s := by
  rw [← List.reverse_suffix, trimRight, List.reverse_reverse]
  exact List.dropWhile_suffix _

/-- The at-rule is recognized, whatever follows its name. -/
theorem unsupportedAtRule?_bareLine (h : UnsupportedHeader cfg) (rest : List Char)
    (behind : EndsName (stripComments false rest)) (apart : Apart h.rest.chars rest) :
    unsupportedAtRule? cfg (bareLine (h.chars ++ rest)) = some (.ofList ('@' :: h.name)) := by
  have plain := isPlain_of_mem_atName h
  have solid : ∀ c ∈ '@' :: h.name, isBlank c = false :=
    List.forall_mem_cons.2 ⟨by decide, fun c mem => isBlank_of_isNameChar (h.isName c mem)⟩
  let shown := stripComments false (h.rest.chars ++ rest)
  have strips : stripComments false (h.chars ++ rest) = ('@' :: h.name) ++ shown := by
    have name : Strips false ('@' :: h.name) ('@' :: h.name) :=
      .of_noOpener (noOpener_of_plain plain)
    rw [UnsupportedHeader.chars, ← List.cons_append, List.append_assoc,
      name (.of_plain_left plain)]
  have ends : EndsName (trimRight shown) := by
    have whole : EndsName shown :=
      (endsName_written (h.rest.legible.of_apart h.rest.ended apart) h.maximal).2 behind
    intro c first
    obtain ⟨cut, same⟩ := trimRight_prefix shown
    apply whole c
    rw [← same, List.head?_append, first]
    rfl
  have bare : bareLine (h.chars ++ rest) = '@' :: (h.name ++ trimRight shown) := by
    rw [bareLine, strips, trim, trimLeft_eq_self_iff.2 (.of_append (List.cons_ne_nil _ _)
      (startsSolid_of_forall solid)), trimRight_append (endsSolid_of_forall solid),
      List.cons_append]
  have nonempty : h.name.isEmpty = false := by simpa using h.nonempty
  rw [bare, unsupportedAtRule?, takeWhile_name h.isName ends, nonempty]
  simp [h.listed]

theorem startsImport_header (h : UnsupportedHeader cfg) (behind : EndsName rest)
    (apart : Apart h.rest.chars rest) (nonempty : h.rest.chars ++ rest ≠ [])
    (solid : StartsSolid h.rest.chars → StartsSolid (h.rest.chars ++ rest)) :
    startsImport (h.chars ++ rest) = false := by
  rw [UnsupportedHeader.chars, List.cons_append, List.append_assoc]
  exact startsImport_atRule h.isName
    ((endsName_written (h.rest.legible.of_apart h.rest.ended apart) h.maximal).1 behind) nonempty
    fun named => solid (h.noImport named)

theorem outermost_unsupported {header : List Char} {line : Nat} {r : Reported Body}
    (h : UnsupportedHeader cfg)
    (rule : unsupportedAtRule? cfg header = some (.ofList ('@' :: h.name))) :
    outermost cfg line header r = ⟨.empty, [⟨h.fault, line⟩]⟩ := by
  rw [outermost, rule]
  rfl

theorem skipGap_header (h : UnsupportedHeader cfg) (tail : List Char) :
    skipGap (h.indent.chars ++ (h.chars ++ tail)) 0 (h.indent.chars ++ (h.chars ++ tail)).length =
      h.indent.chars.length := by
  have passed : Passed h.indent.chars := .of_blank h.indent.blank
  refine (passed.skipGap [] (h.chars ++ tail)).trans ?_
  exact gapEnd_cons (by simp [UnsupportedHeader.chars]) rfl

/-- A block that is not supported is left out with its inside. -/
theorem readSheet_unsupported_block (h : UnsupportedHeader cfg) {inside : List Char}
    (skips : Skips '}' inside) (tail : List Char) :
    ∃ line back,
      readSheet cfg (h.indent.chars ++ (h.chars ++ '{' :: (inside ++ '}' :: tail))) 0 =
        ⟨.empty, [⟨h.fault, line⟩]⟩ ++ readSheet cfg (back ++ tail) back.length := by
  let pre := h.indent.chars ++ h.chars
  let text := h.indent.chars ++ (h.chars ++ '{' :: (inside ++ '}' :: tail))
  have whole : pre ++ '{' :: (inside ++ '}' :: tail) = text := List.append_assoc ..
  have behind : pre ++ '{' :: (inside ++ ['}']) ++ tail = text := by
    simp [pre, text]
  have room : h.indent.chars.length < text.length := by
    simp [text, UnsupportedHeader.chars]
  have noImport : startsImport (text.drop h.indent.chars.length) = false := by
    rw [List.drop_left]
    exact startsImport_header h (by rintro c ⟨⟩; decide +kernel) (.of_head (by simp)) (by simp)
      fun solid => solid.append (startsSolid_cons (by decide))
  have inText : pre.length < text.length := by
    rw [← whole]
    simp
  have found : find? '{' text h.indent.chars.length text.length = some pre.length := by
    rw [← whole] at inText ⊢
    exact find?_brace (.inr rfl) (skips_header h (.inr rfl)) inText
  have close : closing text pre.length = pre.length + 1 + inside.length := by
    rw [← whole]
    exact closing_eq skips
  have closed : closing text pre.length < text.length := by
    rw [close, ← behind]
    exact lt_length_block pre inside tail
  have header : slice text h.indent.chars.length pre.length = h.chars := by
    rw [← whole]
    exact slice_append _ _ _
  have rule := unsupportedAtRule?_bareLine h []
    (by rw [stripComments_nil]; rintro c ⟨⟩) (.of_head (by simp))
  rw [List.append_nil] at rule
  refine ⟨lineAt text h.indent.chars.length, pre ++ '{' :: (inside ++ ['}']), ?_⟩
  rw [behind, length_block, ← close]
  refine (readSheet_of_block (skipGap_header h _) room noImport found closed).trans ?_
  rw [header, outermost_unsupported h rule]

theorem fault_readStray {number : Nat} {x : Report} (mem : x ∈ (readStray number s).reports) :
    ∃ line, x.fault = .strayContent line := by
  unfold readStray at mem
  split at mem
  · cases mem
  · obtain rfl := List.mem_singleton.1 mem
    exact ⟨_, rfl⟩

/-- Behind the line of a statement that is not supported, a search goes on in what follows. -/
theorem find?_statement (h : UnsupportedHeader cfg) (b : List Char) :
    find? '{' (h.indent.chars ++ (h.chars ++ '\n' :: b)) h.indent.chars.length
        (h.indent.chars ++ (h.chars ++ '\n' :: b)).length =
      (find? '{' b 0 b.length).map ((h.indent.chars ++ (h.chars ++ ['\n'])).length + ·) := by
  let line := h.chars ++ ['\n']
  have skips : Skips '{' line :=
    (skips_header h (.inr rfl)).append (.of_blank (.inr rfl) allBlank_newline)
      (.of_blank_right allBlank_newline)
  have apart : Apart line b := .of_last (by simp [line])
  have length : (h.indent.chars ++ (h.chars ++ '\n' :: b)).length =
      (h.indent.chars ++ line).length + b.length := by
    rw [List.append_cons h.chars, ← List.append_assoc, List.length_append]
  have start : h.indent.chars.length + line.length = (h.indent.chars ++ line).length :=
    List.length_append.symm
  have passed := skips 0 apart (start.trans_le (length ▸ Nat.le_add_right _ _))
  rw [start, ← List.append_cons] at passed
  rw [find?, find?, List.drop_zero, ← seek_add, Nat.add_zero, ← length, List.drop_left]
  exact passed

/-- A statement that is not supported is left out with what follows it up to the end of the next
block, or of the source. -/
theorem readSheet_unsupported_statement (h : UnsupportedHeader cfg) (nonempty : h.rest.chars ≠ [])
    (b : List Char) :
    (readSheet cfg (h.indent.chars ++ (h.chars ++ '\n' :: b)) 0).value =
        (match find? '{' b 0 b.length with
          | none => .empty
          | some brace => (readSheet cfg b (closing b brace + 1)).value) ∧
      ((∃ x ∈ (readSheet cfg (h.indent.chars ++ (h.chars ++ '\n' :: b)) 0).reports,
          x.fault = h.fault) ↔ (find? '{' b 0 b.length).isSome) := by
  let pre := h.indent.chars ++ (h.chars ++ ['\n'])
  let text := h.indent.chars ++ (h.chars ++ '\n' :: b)
  have whole : pre ++ b = text := by
    simp [pre, text]
  have room : h.indent.chars.length < text.length := by
    simp [text, UnsupportedHeader.chars]
  have noImport : startsImport (text.drop h.indent.chars.length) = false := by
    rw [List.drop_left]
    exact startsImport_header h (endsName_cons isBlank_newline) (.of_head (by simp)) (by simp)
      (.of_append nonempty)
  have found := find?_statement h b
  cases behind : find? '{' b 0 b.length with
  | none =>
    -- All that is left of the source is in front of no block.
    rw [behind, Option.map_none] at found
    rw [readSheet_of_none (skipGap_header h _) room noImport found]
    refine ⟨value_readStray _ _, iff_of_false ?_ (by simp)⟩
    rintro ⟨x, mem, same⟩
    obtain ⟨line, stray⟩ := fault_readStray mem
    cases same.symm.trans stray
  | some brace =>
    rw [behind, Option.map_some] at found
    have header : slice text h.indent.chars.length (pre.length + brace) =
        h.chars ++ '\n' :: b.take brace := by
      have cut : pre.length + brace - h.indent.chars.length =
          (h.chars ++ ['\n']).length + brace := by
        simp only [pre, List.length_append]
        omega
      rw [slice, cut, List.drop_left, List.append_cons h.chars '\n' b,
        List.take_length_add_append, ← List.append_cons]
    have rule := unsupportedAtRule?_bareLine h ('\n' :: b.take brace)
      (by rw [stripComments_cons false rfl]; exact endsName_cons isBlank_newline)
      (.of_head (by simp))
    rw [readSheet_of_brace (skipGap_header h _) room noImport found, header,
      outermost_unsupported h rule]
    refine ⟨?_, iff_of_true ⟨⟨h.fault, lineAt text h.indent.chars.length⟩, ?_, rfl⟩ (by simp)⟩
    · rw [Reported.value_append, Reported.value_append, Stylesheet.empty_append,
        Stylesheet.empty_append]
      change (readSheet cfg text (closing text (pre.length + brace) + 1)).value = _
      rw [← whole, closing_behind, Nat.add_assoc, value_behind]
    · exact List.mem_append_right _ List.mem_cons_self

theorem value_newline (cfg : Config) (s : List Char) :
    (readSheet cfg ('\n' :: s) 0).value = (readSheet cfg s 0).value :=
  (congrArg Reported.value (readSheet_passed cfg [] (.of_blank allBlank_newline) s)).trans
    (value_behind cfg ['\n'] s 0)

theorem sheet_append_eq_right_iff {x y : Stylesheet} : x ++ y = y ↔ x = .empty := by
  constructor
  · intro same
    obtain ⟨rules, exports, imports⟩ := x
    obtain ⟨rules', exports', imports'⟩ := y
    injection same with sameRules sameExports sameImports
    obtain rfl := List.append_left_eq_self.1 sameRules
    obtain rfl := List.append_left_eq_self.1 sameExports
    obtain rfl := List.append_left_eq_self.1 sameImports
    rfl
  · rintro rfl
    exact Stylesheet.empty_append y

theorem merge_right_inj {x y z : Stylesheet} : x.merge y = x.merge z ↔ y = z := by
  constructor
  · intro same
    obtain ⟨rules, exports, imports⟩ := y
    obtain ⟨rules', exports', imports'⟩ := z
    injection same with sameRules sameExports sameImports
    obtain rfl := List.append_cancel_left sameRules
    obtain rfl := List.append_cancel_left sameExports
    obtain rfl := List.append_cancel_left sameImports
    rfl
  · rintro rfl
    rfl

/-- Imports and one block say nothing if there are no imports and the block says nothing. -/
theorem imports_append_eq_empty_iff {is : List ImportDirective} {x : Stylesheet} :
    { Stylesheet.empty with imports := is } ++ x = .empty ↔ is = [] ∧ x = .empty := by
  constructor
  · intro same
    obtain ⟨rules, exports, imports⟩ := x
    injection same with sameRules sameExports sameImports
    obtain rfl := (List.append_eq_nil_iff.1 sameRules).2
    obtain rfl := (List.append_eq_nil_iff.1 sameExports).2
    obtain ⟨rfl, rfl⟩ := List.append_eq_nil_iff.1 sameImports
    exact ⟨rfl, rfl⟩
  · rintro ⟨rfl, rfl⟩
    rfl

/-- A statement that is not supported is skipped alone if what follows it starts with a block that
says nothing. -/
theorem skips_statement_iff (h : UnsupportedHeader cfg) (nonempty : h.rest.chars ≠ [])
    (f : Following) :
    ((readSheet cfg (h.indent.chars ++ (h.chars ++ '\n' :: f.text)) 0).value =
          (readSheet cfg f.text 0).value ∧
        ∃ x ∈ (readSheet cfg (h.indent.chars ++ (h.chars ++ '\n' :: f.text)) 0).reports,
          x.fault = h.fault) ↔
      StartsIdle cfg f := by
  obtain ⟨value, reports⟩ := readSheet_unsupported_statement h nonempty f.text
  rw [value, reports, find?_follows (.inr rfl), value_follows, value_rest, StartsIdle]
  cases find? '{' f.rest 0 f.rest.length with
  | none => simp
  | some brace =>
    have later : closing f.text ((f.lead.flatMap Lead.text).length + brace) + 1 =
        (f.lead.flatMap Lead.text).length + (closing f.rest brace + 1) := by
      rw [Following.text, closing_behind, Nat.add_assoc]
    simp only [Option.map_some, Option.isSome_some, and_true, Option.mem_some_iff,
      exists_eq_left']
    rw [later, Following.text, value_behind, ← Stylesheet.append_assoc, eq_comm,
      sheet_append_eq_right_iff, imports_append_eq_empty_iff, outermostValue_eq_empty_iff]

/-- A block that is not supported is skipped alone. -/
theorem skips_block (h : UnsupportedHeader cfg) {inside : List Char} (skips : Skips '}' inside)
    (f : Following) :
    let text := h.indent.chars ++ (h.chars ++ '{' :: (inside ++ ['}'])) ++ '\n' :: f.text
    (readSheet cfg text 0).value = (readSheet cfg f.text 0).value ∧
      ∃ x ∈ (readSheet cfg text 0).reports, x.fault = h.fault := by
  obtain ⟨line, back, read⟩ := readSheet_unsupported_block h skips ('\n' :: f.text)
  intro text
  have whole : text = h.indent.chars ++ (h.chars ++ '{' :: (inside ++ '}' :: '\n' :: f.text)) := by
    simp [text]
  rw [whole, read]
  refine ⟨?_, ⟨h.fault, line⟩, List.mem_cons_self, rfl⟩
  rw [Reported.value_append, Stylesheet.empty_append]
  exact (value_behind cfg back _ 0).trans (value_newline cfg f.text)

end NestedStyles.Block

namespace NestedStyles

open Block

/-- Below a source that leaves nothing open and nothing over, an at-rule that is not supported is
reported, and what follows it says the same as without it, just if the at-rule is a block, or if
what follows starts with a block that says nothing. -/
theorem Stylesheet.unsupported_apart_iff (cfg : Config) (a : String)
    (clean : ∀ x ∈ (parse cfg a).reports,
      x.fault.rule ≠ "unclosed-brace" ∧ x.fault.rule ≠ "stray-content")
    (closed : ¬ EndsInComment a.toList) (r : Layout.Unsupported cfg) (f : Layout.Following) :
    ((parse cfg (a ++ "\n" ++ .ofList (r.text ++ '\n' :: f.text))).value =
          (parse cfg (a ++ "\n" ++ .ofList f.text)).value ∧
        ∃ rs, (parse cfg (a ++ "\n" ++ .ofList (r.text ++ '\n' :: f.text))).reports =
            (parse cfg a).reports ++ rs ∧
          ∃ x ∈ rs, x.fault = r.header.fault) ↔
      r.IsBlock ∨ StartsIdle cfg f := by
  have below := parse_below cfg a (.ofList (r.text ++ '\n' :: f.text)) clean closed
  have value : (parse cfg (a ++ "\n" ++ .ofList (r.text ++ '\n' :: f.text))).value =
      (parse cfg a).value.merge (parse cfg (.ofList (r.text ++ '\n' :: f.text))).value :=
    congrArg Reported.value below
  have value' : (parse cfg (a ++ "\n" ++ .ofList f.text)).value =
      (parse cfg a).value.merge (parse cfg (.ofList f.text)).value :=
    congrArg Reported.value (parse_below cfg a (.ofList f.text) clean closed)
  have reported : (∃ rs, (parse cfg (a ++ "\n" ++ .ofList (r.text ++ '\n' :: f.text))).reports =
        (parse cfg a).reports ++ rs ∧ ∃ x ∈ rs, x.fault = r.header.fault) ↔
      ∃ x ∈ (parse cfg (.ofList (r.text ++ '\n' :: f.text))).reports,
        x.fault = r.header.fault := by
    rw [below]
    simp [Reported.lowered, Report.lowered]
  rw [reported, value, value', merge_right_inj, parse, parse, String.toList_ofList,
    String.toList_ofList]
  cases r with
  | statement header finished =>
    have nonempty : header.rest.chars ≠ [] := by
      obtain ⟨front, spans⟩ := List.getLast?_eq_some_iff.1 finished
      simp [Layout.Passage.chars, spans, Span.chars]
    rw [Layout.Unsupported.text, List.append_assoc]
    exact (skips_statement_iff header nonempty f).trans (iff_of_eq (false_or _)).symm
  | block header body balanced =>
    exact iff_of_true (skips_block header (skips_body body balanced) f) (.inl trivial)

namespace Layout

/-- A passage without quotes, brackets, braces, slashes and backslashes. -/
def Passage.ofPlain (s : List Char) (plain : ∀ c ∈ s, isPlain c = true) : Passage where
  spans := s.map .plain
  legible := .of_plain plain
  ended := by simp
  plain := by simp [Span.EndsPlainly]
  nested := bracketsBehind?_plain 0 s

/-- The statement `@layer base, components;`. -/
def Unsupported.layers : Unsupported .standard :=
  .statement
    { indent := ⟨[], by decide⟩
      name := "layer".toList
      rest := .ofPlain " base, components;".toList (by decide +kernel)
      nonempty := by decide +kernel
      isName := by decide +kernel
      maximal := by decide +kernel
      listed := by decide +kernel
      noBraces := by decide +kernel
      noImport named := absurd named (by decide +kernel) }
    (by decide +kernel)

/-- A block below an at-rule. -/
def Following.rule : Following where
  lead := []
  rest := ".b \x7b\ny\n\x7d".toList
  starts := by decide +kernel
  noImport := by decide +kernel

end Layout

namespace Stylesheet

/-- A source of one rule. -/
def single : String :=
  ".a \x7b\nx\n\x7d"

/-- A rule below `@layer base, components;` is lost. -/
theorem unsupported_apart_iff_layers :
    (∀ x ∈ (parse .standard single).reports,
      x.fault.rule ≠ "unclosed-brace" ∧ x.fault.rule ≠ "stray-content") ∧
    ¬ EndsInComment single.toList ∧
    ¬ ((parse .standard
            (single ++ "\n" ++ "@layer base, components;\n.b \x7b\ny\n\x7d")).value =
          (parse .standard (single ++ "\n" ++ ".b \x7b\ny\n\x7d")).value ∧
        ∃ rs, (parse .standard
            (single ++ "\n" ++ "@layer base, components;\n.b \x7b\ny\n\x7d")).reports =
              (parse .standard single).reports ++ rs ∧
          ∃ x ∈ rs, x.fault = .unsupportedAtRule "@layer") := by
  have clean : ∀ x ∈ (parse .standard single).reports,
      x.fault.rule ≠ "unclosed-brace" ∧ x.fault.rule ≠ "stray-content" := by
    decide +kernel
  have closed : ¬ EndsInComment single.toList := by
    decide +kernel
  refine ⟨clean, closed, fun skipped => ?_⟩
  obtain block | idle :=
    (unsupported_apart_iff .standard single clean closed .layers .rule).1 skipped
  · exact block
  · exact absurd idle (by decide +kernel)

end Stylesheet

end NestedStyles
