import NestedStyles.Proofs.Block.Directives

/-!
# Lines of content are read back

The text of a block up to its next nested block grows line by line. `Content w b` adds all that is
needed of such a text: a search for a brace passes over it, its lines say `b`, and its last line
does not run on into a selector below it. White space and a further line keep it so.
-/

namespace NestedStyles.Block

open Text Layout

variable {s u v w clean last : List Char} {a b : Body}

/-! ## Last lines -/

/-- The text ends with this line. -/
structure LastLine (s last : List Char) : Prop where
  inline : '\n' ∉ last
  ends : s = last ∨ ∃ above, s = above ++ '\n' :: last

namespace LastLine

theorem of_inline (h : '\n' ∉ s) : LastLine s s :=
  ⟨h, .inl rfl⟩

theorem below (h : LastLine v last) (u : List Char) : LastLine (u ++ '\n' :: v) last := by
  refine ⟨h.inline, .inr ?_⟩
  obtain rfl | ⟨above, rfl⟩ := h.ends
  · exact ⟨u, rfl⟩
  · exact ⟨u ++ '\n' :: above, by simp⟩

theorem append (h : LastLine s last) (inline : '\n' ∉ v) : LastLine (s ++ v) (last ++ v) := by
  refine ⟨by simp [h.inline, inline], ?_⟩
  obtain rfl | ⟨above, rfl⟩ := h.ends
  · exact .inl rfl
  · exact .inr ⟨above, by simp⟩

theorem exists_of (s : List Char) : ∃ last, LastLine s last := by
  induction s with
  | nil => exact ⟨[], of_inline List.not_mem_nil⟩
  | cons c s ih =>
    obtain ⟨last, inline, rfl | ⟨above, rfl⟩⟩ := ih
    · by_cases newline : c = '\n'
      · subst newline
        exact ⟨s, (of_inline inline).below []⟩
      · exact ⟨c :: s, of_inline (by simp [Ne.symm newline, inline])⟩
    · exact ⟨last, (of_inline inline).below (c :: above)⟩

theorem lines_append (h : LastLine s last) :
    ∃ above, ∀ v, '\n' ∉ v → lines (s ++ v) = above ++ [last ++ v] := by
  obtain rfl | ⟨above, rfl⟩ := h.ends
  · exact ⟨[], fun v inline => lines_of_inline (by simp [h.inline, inline])⟩
  · refine ⟨lines above, fun v inline => ?_⟩
    have whole : '\n' ∉ last ++ v := by
      simp [h.inline, inline]
    rw [List.append_assoc, List.cons_append, lines_append_newline, lines_of_inline whole]

end LastLine

/-! ## What lines say -/

theorem reported_nothing_append {α : Type} [Append α] {x : α} (h : ∀ y : α, x ++ y = y)
    (r : Reported α) : ⟨x, []⟩ ++ r = r := by
  show Reported.mk (x ++ r.value) ([] ++ r.reports) = r
  rw [h, List.nil_append]

theorem reported_append_assoc {α : Type} [Append α]
    (h : ∀ a b c : α, a ++ b ++ c = a ++ (b ++ c)) (x y z : Reported α) :
    x ++ y ++ z = x ++ (y ++ z) := by
  show Reported.mk (x.value ++ y.value ++ z.value) (x.reports ++ y.reports ++ z.reports) = _
  rw [h, List.append_assoc]
  rfl

theorem readLines_append (number : Nat) (xs ys : List (List Char)) :
    readLines number (xs ++ ys) = readLines number xs ++ readLines (number + xs.length) ys := by
  induction xs generalizing number with
  | nil => exact (reported_nothing_append Body.empty_append _).symm
  | cons x xs ih =>
    have next : number + 1 + xs.length = number + (xs.length + 1) := by omega
    rw [List.cons_append, readLines, ih, readLines, List.length_cons, next,
      reported_append_assoc Body.append_assoc]

/-- The lines of a text without comments add this to their block, and nothing is wrong with them. -/
def Adds (s : List Char) (b : Body) : Prop :=
  ∀ number, readLines number (lines s) = ⟨b, []⟩

namespace Adds

theorem of_line (inline : '\n' ∉ s)
    (h : ∀ number, (ContentLine.ofTrimmed (trim s)).contribution number = ⟨b, []⟩) : Adds s b := by
  intro number
  rw [lines_of_inline inline, readLines, h]
  show Reported.mk (b ++ Body.empty) [] = _
  rw [Body.append_empty]

theorem newline (hu : Adds u a) (hv : Adds v b) : Adds (u ++ '\n' :: v) (a ++ b) := by
  intro number
  rw [lines_append_newline, readLines_append, hu, hv]
  rfl

protected theorem nil : Adds [] .empty :=
  .of_line List.not_mem_nil fun _ => rfl

theorem append_blank (h : Adds s b) (blank : AllBlank v) : Adds (s ++ v) b := by
  induction v generalizing s with
  | nil => rwa [List.append_nil]
  | cons c v ih =>
    obtain ⟨first, more⟩ := List.forall_mem_cons.1 blank
    rw [← List.singleton_append, ← List.append_assoc]
    refine ih ?_ more
    by_cases newline : c = '\n'
    · subst newline
      simpa using h.newline .nil
    · intro number
      obtain ⟨last, ends⟩ := LastLine.exists_of s
      obtain ⟨above, cut⟩ := ends.lines_append
      have same : trim (last ++ [c]) = trim last :=
        trim_append_blank (by simpa [AllBlank] using first)
      have before := h number
      rw [← List.append_nil s, cut [] List.not_mem_nil, List.append_nil, readLines_append] at before
      rw [cut [c] (by simpa using Ne.symm newline), readLines_append]
      simpa only [readLines, same] using before

theorem of_blank (blank : AllBlank s) : Adds s .empty :=
  Adds.nil.append_blank blank

end Adds

/-! ## Text in front of a block -/

/-- The text of lines of content in front of a nested block, or of the end of the block. -/
structure Content (w : List Char) (b : Body) : Prop where
  skips : Skips '{' w
  adds : ∃ clean, Strips true w clean ∧ Adds clean b
  ends : ∃ last bare, LastLine w last ∧ Strips false last bare ∧ (trim bare).getLast? ≠ some ','

theorem Apart.of_plain_left (h : ∀ c ∈ u, isPlain c = true) : Apart u v :=
  .of_last fun slash => notMem_of_holds h (by decide) (List.mem_of_getLast? slash)

theorem Apart.of_blank_left (h : AllBlank u) : Apart u v :=
  .of_plain_left fun c hc => isPlain_of_isBlank (h c hc)

theorem head?_blank_append (nonempty : v ≠ []) (h : AllBlank v) :
    (v ++ s).head? ≠ some '*' := by
  rw [List.head?_append_of_ne_nil _ nonempty]
  exact fun star => notMem_of_holds h (by decide) (List.mem_of_head? star)

theorem Apart.blank_append (h : AllBlank v) (next : s.head? ≠ some '*') : Apart u (v ++ s) := by
  refine .of_head ?_
  cases v with
  | nil => exact next
  | cons c v => exact head?_blank_append (List.cons_ne_nil c v) h

theorem Apart.of_blank_right (h : AllBlank v) : Apart u v :=
  List.append_nil v ▸ .blank_append h (by simp)

theorem noOpener_of_blank (h : AllBlank s) : ¬ ['/', '*'] <:+: s :=
  noOpener_of_plain fun c hc => isPlain_of_isBlank (h c hc)

theorem Strips.of_blank {keep : Bool} (h : AllBlank s) : Strips keep s s :=
  .of_noOpener (noOpener_of_blank h)

theorem Skips.of_blank {t : Char} (brace : t = '}' ∨ t = '{') (h : AllBlank s) : Skips t s :=
  .of_plain brace fun c hc => isPlain_of_isBlank (h c hc)

theorem allBlank_newline : AllBlank ['\n'] := by
  decide

/-- Comments are taken out of the texts above and below a line end one by one. -/
theorem Strips.newline {keep : Bool} {u' v' : List Char} (hu : Strips keep u u')
    (hv : Strips keep v v') :
    Strips keep (u ++ '\n' :: v) (u' ++ '\n' :: v') := by
  have line : Strips keep (['\n'] ++ v) (['\n'] ++ v') :=
    .append (.of_blank allBlank_newline) hv (.of_blank_left allBlank_newline)
  exact hu.append line (.of_head (by simp))

namespace Content

protected theorem nil : Content [] .empty where
  skips := .of_blank (.inr rfl) (by decide)
  adds := ⟨[], .of_blank (by decide), .nil⟩
  ends := ⟨[], [], .of_inline List.not_mem_nil, .of_blank (by decide), by decide⟩

theorem readContent (h : Content w b) (number : Nat) : readContent number w = ⟨b, []⟩ := by
  obtain ⟨clean, strips, adds⟩ := h.adds
  rw [Block.readContent, strips.eq, adds]

theorem append_blank (h : Content w b) (blank : AllBlank v) : Content (w ++ v) b where
  skips := h.skips.append (.of_blank (.inr rfl) blank) (.of_blank_right blank)
  adds := by
    obtain ⟨clean, strips, adds⟩ := h.adds
    exact ⟨clean ++ v, strips.append (.of_blank blank) (.of_blank_right blank),
      adds.append_blank blank⟩
  ends := by
    obtain ⟨last, bare, ends, strips, noComma⟩ := h.ends
    obtain ⟨end', inline, rfl | ⟨above, rfl⟩⟩ := LastLine.exists_of v
    · refine ⟨last ++ v, bare ++ v, ends.append inline,
        strips.append (.of_blank blank) (.of_blank_right blank), ?_⟩
      rwa [trim_append_blank blank]
    · have blank' : AllBlank end' := fun c hc => blank c (by simp [hc])
      refine ⟨end', end', ?_, .of_blank blank', by simp [trim_of_allBlank blank']⟩
      rw [← List.append_assoc]
      exact (LastLine.of_inline inline).below (w ++ above)

theorem newline (hu : Content u a) (hv : Content v b) : Content (u ++ '\n' :: v) (a ++ b) where
  skips := by
    have line : Skips '{' (['\n'] ++ v) :=
      .append (.of_blank (.inr rfl) allBlank_newline) hv.skips (.of_blank_left allBlank_newline)
    exact hu.skips.append line (.of_head (by simp))
  adds := by
    obtain ⟨above, strips, adds⟩ := hu.adds
    obtain ⟨clean, strips', adds'⟩ := hv.adds
    exact ⟨above ++ '\n' :: clean, strips.newline strips', adds.newline adds'⟩
  ends := by
    obtain ⟨last, bare, ends, strips, noComma⟩ := hv.ends
    exact ⟨last, bare, ends.below u, strips, noComma⟩

theorem of_inert {indent : List Char} (blank : AllBlank indent) (inline : '\n' ∉ indent)
    (inert : Inert s) (trimmed : trim s = s) (noComma : s.getLast? ≠ some ',')
    (reads : ∀ number, (ContentLine.ofTrimmed s).contribution number = ⟨b, []⟩) :
    Content (indent ++ s) b := by
  have line : Inert (indent ++ s) :=
    (Inert.of_blank blank inline).append inert (.of_blank_left blank)
  have bare : trim (indent ++ s) = s := by
    rw [trim_blank_append blank, trimmed]
  refine ⟨line.skips (.inr rfl), ⟨_, line.strips true, .of_line line.inline ?_⟩,
    _, _, .of_inline line.inline, line.strips false, ?_⟩
  · rwa [bare]
  · rwa [bare]

theorem of_declaration {indent : List Char} (blank : AllBlank indent) (inline : '\n' ∉ indent)
    (inert : Inert s) (trimmed : trim s = s) (finished : s.getLast? = some ';')
    (noUse : headedBy ['@', 'u', 's', 'e'] s = false)
    (noImport : headedBy ['@', 'i', 'm', 'p', 'o', 'r', 't'] s = false) :
    Content (indent ++ s) { Body.empty with declarations := [.ofList s] } := by
  have nonempty : s.isEmpty = false := by
    cases s with
    | nil => cases finished
    | cons => rfl
  have noComma : s.getLast? ≠ some ',' := by
    simp [finished]
  refine .of_inert blank inline inert trimmed noComma fun number => ?_
  rw [ContentLine.ofTrimmed, nonempty, noUse, noImport, finished]
  rfl

end Content

/-! ## The lines of a block -/

/-- A comment below its first line has no delimiter but the closing one. -/
theorem noOpener_lastLine {above : List Char}
    (h : ¬ ['/', '*'] <:+: above ++ '\n' :: last ++ ['*']) :
    ¬ ['/', '*'] <:+: last ++ ['*', '/'] := by
  intro opener
  rw [List.append_cons, List.infix_concat_iff] at opener
  obtain ⟨before, atEnd⟩ | within := opener
  · have ends := congrArg List.getLast? atEnd
    simp at ends
  · refine h (within.trans ⟨above ++ ['\n'], [], ?_⟩)
    simp

theorem content_comment {indent : List Char} (blank : AllBlank indent) (inline : '\n' ∉ indent)
    (c : Comment) : Content (indent ++ c.text) .empty where
  skips := (Skips.of_blank (.inr rfl) blank).append (.comment c.closed) (.of_blank_left blank)
  adds := by
    refine ⟨_, (Strips.of_blank blank).append (.comment c.closed) (.of_blank_left blank),
      .of_blank (blank.append fun d hd => ?_)⟩
    rw [if_pos rfl] at hd
    rw [eq_of_beq (List.mem_filter.1 hd).2]
    exact isBlank_newline
  ends := by
    obtain ⟨last, inline', same | ⟨above, same⟩⟩ := LastLine.exists_of c.inner
    · refine ⟨_, _, .of_inline ?_, (Strips.of_blank blank).append (.comment c.closed)
        (.of_blank_left blank), by simp [trim_of_allBlank blank]⟩
      simp [Comment.text, inline, same, inline']
    · have single := c.single
      rw [same] at single
      have cut : indent ++ c.text =
          (indent ++ '/' :: '*' :: above) ++ '\n' :: (last ++ ['*'] ++ ['/']) := by
        simp [Comment.text, same]
      refine ⟨last ++ ['*'] ++ ['/'], _, cut ▸ (LastLine.of_inline ?_).below _,
        .of_noOpener ?_, ?_⟩
      · simp [inline']
      · simpa using noOpener_lastLine single
      · rw [getLast?_trim (by decide : isBlank '/' = false)]
        decide

theorem inert_append_flatMap {α : Type} {f : α → List Char} {l : List α} (hs : Inert s)
    (hf : ∀ x ∈ l, Inert (f x) ∧ (f x).head? ≠ some '*') : Inert (s ++ l.flatMap f) := by
  induction l generalizing s with
  | nil => simpa using hs
  | cons x l ih =>
    obtain ⟨⟨inert, apart⟩, more⟩ := List.forall_mem_cons.1 hf
    rw [List.flatMap_cons, ← List.append_assoc]
    exact ih (hs.append inert (.of_head apart)) more

theorem inert_words (first : Word) (more : List (Space × Word)) : Inert (wordsText first more) := by
  refine inert_append_flatMap (.of_closed first.closed) fun (space, word) _ => ?_
  exact ⟨(Inert.of_blank space.blank space.inline).append (.of_closed word.closed)
    (.of_blank_left space.blank), head?_blank_append space.nonempty space.blank⟩

theorem words_append_flatMap (more : List (Space × Word)) :
    words (s ++ more.flatMap fun (space, word) => space.chars ++ word.chars) =
      words s ++ more.map fun (_, word) => word.chars := by
  induction more generalizing s with
  | nil => simp
  | cons entry more ih =>
    obtain ⟨space, word⟩ := entry
    rw [List.flatMap_cons, List.append_assoc,
      words_append_blank_append space.nonempty space.blank, ih,
      words_of_unspaced word.nonempty word.unspaced]
    rfl

theorem words_wordsText (first : Word) (more : List (Space × Word)) :
    words (wordsText first more) = first.chars :: more.map fun (_, word) => word.chars := by
  rw [wordsText, words_append_flatMap, words_of_unspaced first.nonempty first.unspaced]
  rfl

theorem trim_wordsText (first : Word) (more : List (Space × Word)) :
    trim (wordsText first more) = wordsText first more := by
  refine trim_eq_self_iff.2 ⟨.of_append first.nonempty (startsSolid_of_forall first.unspaced), ?_⟩
  refine .append (endsSolid_of_forall first.unspaced) (.flatMap fun (space, word) _ => ?_)
  exact .of_append word.nonempty (endsSolid_of_forall word.unspaced)

/-- A line that a keyword heads has the keyword as its first word. -/
theorem head?_words_of_headedBy {keyword line : List Char} (nonempty : keyword ≠ [])
    (unspaced : ∀ c ∈ keyword, isBlank c = false) (h : headedBy keyword line = true) :
    (words line).head? = some keyword := by
  obtain same | starts := Bool.or_eq_true_iff.1 h
  · rw [eq_of_beq same, words_of_unspaced nonempty unspaced]
    rfl
  · obtain ⟨rest, rfl⟩ := List.isPrefixOf_iff_prefix.1 starts
    rw [List.append_assoc, words_append_blank_append (List.cons_ne_nil _ _) (by decide),
      words_of_unspaced nonempty unspaced]
    rfl

theorem content_classes {indent : List Char} (blank : AllBlank indent) (inline : '\n' ∉ indent)
    (l : ClassLine) : Content (indent ++ (Line.classes l).text) (Line.classes l).meaning := by
  obtain ⟨first, more, ⟨notUse, notImport⟩, noSemicolon, noComma⟩ := l
  have other : ∀ keyword, keyword ≠ [] → (∀ c ∈ keyword, isBlank c = false) →
      first.chars ≠ keyword → headedBy keyword (wordsText first more) = false := by
    intro keyword nonempty unspaced differs
    by_contra headed
    have same := head?_words_of_headedBy nonempty unspaced (Bool.of_not_eq_false headed)
    rw [words_wordsText] at same
    exact differs (Option.some.inj same)
  have nonempty : (wordsText first more).isEmpty = false := by
    simp [wordsText, first.nonempty]
  refine .of_inert blank inline (inert_words first more) (trim_wordsText first more) noComma
    fun number => ?_
  simp only [Line.text, ContentLine.ofTrimmed, nonempty,
    other _ (List.cons_ne_nil _ _) (by decide) notUse,
    other _ (List.cons_ne_nil _ _) (by decide) notImport, beq_false_of_ne noSemicolon,
    words_wordsText, Bool.false_eq_true, if_false]
  simp [ContentLine.contribution, Line.meaning, ClassLine.meaning]

theorem content_declaration {indent : List Char} (blank : AllBlank indent)
    (inline : '\n' ∉ indent) (l : Declaration) :
    Content (indent ++ (Line.declaration l).text) (Line.declaration l).meaning := by
  obtain ⟨chars, closed, trimmed, finished, noUse, noImport⟩ := l
  exact .of_declaration blank inline (.of_closed closed) trimmed finished noUse noImport

theorem inert_semicolon (finish : Option Gap) : Inert (semicolon finish) := by
  cases finish with
  | none => exact .of_plain (by simp [semicolon]) (by simp [semicolon])
  | some gap =>
    exact (Inert.of_blank gap.blank gap.inline).append (.of_plain (by decide) (by decide))
      (.of_blank_left gap.blank)

theorem inert_source (source : Source) (noBackslash : '\\' ∉ source.path)
    (noOpener : ¬ ['/', '*'] <:+: source.path) : Inert source.text := by
  have unquoted : source.quote ∉ source.path :=
    fun h => by cases source.isQuote.symm.trans (source.unquoted _ h)
  have quoted : Inert source.quoted :=
    .quoted source.isQuote unquoted noBackslash source.inline noOpener
  have before : Inert source.before.chars := .of_blank source.before.blank source.before.inline
  have after : Inert source.after.chars := .of_blank source.after.blank source.after.inline
  have keyword : Inert ['f', 'r', 'o', 'm'] := .of_plain (by decide) (by decide)
  refine ((before.append keyword (.of_blank_left source.before.blank)).append after
    (.of_blank_right source.after.blank)).append quoted (.of_head ?_)
  simpa [Source.quoted] using ne_of_holds source.isQuote (by decide)

theorem newline_notMem_name (n : Name) : '\n' ∉ n.chars :=
  (Inert.of_name (isNameChar_of_mem n)).inline

/-- A keyword and a name behind it open and close nothing. -/
theorem isPlain_named {keyword : List Char} (plain : ∀ c ∈ keyword, isPlain c = true)
    (blank : AllBlank u) (n : Name) : ∀ c ∈ keyword ++ u ++ n.chars, isPlain c = true :=
  List.forall_mem_append.2 ⟨List.forall_mem_append.2
    ⟨plain, fun c hc => isPlain_of_isBlank (blank c hc)⟩,
    fun c hc => isPlain_of_isNameChar (isNameChar_of_mem n c hc)⟩

theorem inert_use (l : UseLine) : Inert l.text := by
  obtain ⟨gap, name, source, plain, finish⟩ := l
  have named : ∀ c ∈ ['@', 'u', 's', 'e', ' '] ++ gap.chars ++ name.chars, isPlain c = true :=
    isPlain_named (by decide) gap.blank name
  have line : Inert (['@', 'u', 's', 'e', ' '] ++ gap.chars ++ name.chars) := by
    refine .of_plain named ?_
    simp [gap.inline, newline_notMem_name]
  refine line.append ?_ (.of_plain_left named)
  cases source with
  | none => simpa using inert_semicolon finish
  | some source =>
    obtain ⟨noBackslash, noOpener⟩ := plain source rfl
    refine (inert_source source noBackslash noOpener).append (inert_semicolon finish) (.of_last ?_)
    simpa [getLast?_source] using ne_of_holds source.isQuote (by decide)

theorem content_use {indent : List Char} (blank : AllBlank indent) (inline : '\n' ∉ indent)
    (l : UseLine) : Content (indent ++ (Line.use l).text) (Line.use l).meaning := by
  have headed : headedBy ['@', 'u', 's', 'e'] l.text = true := by
    simp [headedBy, UseLine.text]
  have last : ∀ c ∈ l.text.getLast?, c ≠ ',' := by
    have ofAll : ∀ u : List Char, ',' ∉ u → ∀ c ∈ u.getLast?, c ≠ ',' :=
      fun u absent c hc same => absent (same ▸ List.mem_of_getLast? hc)
    obtain ⟨gap, name, source, plain, finish⟩ := l
    refine forall_getLast?_append (ofAll _ ?_) (forall_getLast?_append ?_ (ofAll _ ?_))
    · simp [comma_notMem_blank gap.blank, comma_notMem_name]
    · cases source with
      | none => simp
      | some source =>
        simpa [getLast?_source] using ne_of_holds source.isQuote (by decide)
    · cases finish with
      | none => simp [semicolon]
      | some gap => simp [semicolon, comma_notMem_blank gap.blank]
  have noComma : l.text.getLast? ≠ some ',' := fun comma => last _ comma rfl
  refine .of_inert blank inline (inert_use l) (trim_use l) noComma fun number => ?_
  rw [Line.text, ContentLine.ofTrimmed, headed, readUse_text]
  rfl

theorem exists_split (start : Break) :
    ∃ above indent, start.chars = above ++ '\n' :: indent ∧ AllBlank above ∧ AllBlank indent ∧
      '\n' ∉ indent := by
  obtain ⟨indent, inline, same | ⟨above, same⟩⟩ := LastLine.exists_of start.chars
  · exact absurd start.breaks (same ▸ inline)
  · have blank := start.blank
    rw [same] at blank
    obtain ⟨before, after⟩ := List.forall_mem_append.1 blank
    exact ⟨above, indent, same, before, (List.forall_mem_cons.1 after).2, inline⟩

/-- A further line on lines of its own. -/
theorem Content.line (h : Content w a) (start : Break) (l : Line) :
    Content (w ++ (start.chars ++ l.text)) (a ++ l.meaning) := by
  obtain ⟨above, indent, cut, blank, blank', inline⟩ := exists_split start
  have added : Content (indent ++ l.text) l.meaning := by
    cases l with
    | comment c => exact content_comment blank' inline c
    | use l => exact content_use blank' inline l
    | declaration l => exact content_declaration blank' inline l
    | classes l => exact content_classes blank' inline l
  have whole : w ++ (start.chars ++ l.text) = (w ++ above) ++ '\n' :: (indent ++ l.text) := by
    simp [cut]
  rw [whole]
  exact (h.append_blank blank).newline added

/-! ## Headers of nested blocks -/

/-- The text in front of the brace of a block, without the white space around it. -/
structure IsHeader (header : List Char) : Prop where
  inert : Inert header
  nonempty : header ≠ []
  trimmed : trim header = header
  noOpener : ¬ ['/', '*'] <:+: header

/-- The header of a rule. -/
structure IsSelector (header : List Char) : Prop extends IsHeader header where
  noDirective : header.head? ≠ some '@'

theorem isSelector_text (s : SelectorText) : IsSelector s.chars :=
  ⟨⟨.of_closed s.closed, s.nonempty, s.trimmed, s.closed.noOpener⟩, s.noDirective⟩

theorem isHeader_atRule {cfg : Config} (a : AtRule cfg) : IsHeader a.chars :=
  ⟨.of_closed a.closed, List.cons_ne_nil _ _, a.trimmed, a.closed.noOpener⟩

theorem IsHeader.skips {header : List Char} {t : Char} (h : IsHeader header)
    (brace : t = '}' ∨ t = '{') (gap : Blanks) : Skips t (header ++ gap.chars) :=
  (h.inert.skips brace).append (.of_blank brace gap.blank) (.of_blank_right gap.blank)

/-- White space behind a line is white space at the end of that line and blank lines below it. -/
theorem lines_append_blank (inline : '\n' ∉ s) (blank : AllBlank v) :
    ∃ behind below, lines (s ++ v) = (s ++ behind) :: below ∧ AllBlank behind ∧ '\n' ∉ behind ∧
      ∀ line ∈ below, AllBlank line := by
  induction v generalizing s with
  | nil => exact ⟨[], [], by simp [lines_of_inline inline], by simp [AllBlank], by simp, by simp⟩
  | cons c v ih =>
    obtain ⟨first, more⟩ := List.forall_mem_cons.1 blank
    by_cases newline : c = '\n'
    · obtain ⟨behind, below, cut, hb, -, hl⟩ := ih List.not_mem_nil more
      refine ⟨[], behind :: below, ?_, by simp [AllBlank], by simp,
        List.forall_mem_cons.2 ⟨hb, hl⟩⟩
      rw [newline, lines_append_newline, lines_of_inline inline, List.append_nil]
      exact congrArg (s :: ·) cut
    · have inline' : '\n' ∉ s ++ [c] := by
        simp [inline, Ne.symm newline]
      obtain ⟨behind, below, cut, hb, hi, hl⟩ := ih inline' more
      refine ⟨c :: behind, below, ?_, List.forall_mem_cons.2 ⟨first, hb⟩, ?_, hl⟩
      · simpa using cut
      · simp [Ne.symm newline, hi]

theorem bareLine_eq {bare : List Char} (h : Strips false s bare) : bareLine s = trim bare := by
  rw [bareLine, h.eq]

theorem bareLine_append_blank (h : Inert s) (blank : AllBlank v) : bareLine (s ++ v) = trim s := by
  rw [bareLine_eq ((h.strips false).append (.of_blank blank) (.of_blank_right blank)),
    trim_append_blank blank]

/-- The selector is the last line that is not blank, with the lines above it as long as they end in
a comma. -/
theorem splitHeader_of_upwards (cfg : Config) {more above : List (List Char)}
    (upwards : (lines s).reverse.dropWhile (fun l => (bareLine l).isEmpty) =
      last :: (more ++ above))
    (ends : above.takeWhile (fun l => (bareLine l).getLast? == some ',') = []) :
    let continued := more.takeWhile fun l => (bareLine l).getLast? == some ','
    let selector := bareLine (unlines (last :: continued).reverse)
    splitHeader cfg s =
      if looksLikeSelector cfg selector then
        ⟨unlines (above.reverse ++ (more.drop continued.length).reverse), selector⟩
      else ⟨s, []⟩ := by
  intro continued selector
  have same : (more ++ above).takeWhile (fun l => (bareLine l).getLast? == some ',') =
      continued := by
    rw [List.takeWhile_append, ends, List.append_nil]
    split
    next all => exact ((List.takeWhile_prefix _).eq_of_length all).symm
    next => rfl
  have short : continued.length ≤ more.length := (List.takeWhile_prefix _).length_le
  simp only [splitHeader, upwards, selectorLines, same, List.drop_append_of_le_length short,
    List.reverse_append, selector]

/-- A selector does not go on above a line that ends in no comma. -/
theorem LastLine.stops (ends : LastLine s last) (noComma : (bareLine last).getLast? ≠ some ',') :
    (lines s).reverse.takeWhile (fun l => (bareLine l).getLast? == some ',') = [] := by
  obtain ⟨upper, cut⟩ := ends.lines_append
  have lines_eq : lines s = upper ++ [last] := by
    simpa using cut [] List.not_mem_nil
  rw [lines_eq, List.reverse_concat, List.takeWhile_cons_of_neg]
  simpa using noComma

theorem Content.stops (h : Content w b) :
    (lines w).reverse.takeWhile (fun l => (bareLine l).getLast? == some ',') = [] := by
  obtain ⟨last, bare, ends, strips, noComma⟩ := h.ends
  exact ends.stops (by rwa [bareLine_eq strips])

/-- Upwards from the end of a text, the first line that is not blank is the last one in front of
trailing white space. -/
theorem dropWhile_lines_append_blank {upper : List (List Char)} (inline : '\n' ∉ last)
    (blank : AllBlank v) (cut : lines s = upper ++ lines (last ++ v))
    (filled : ∀ behind, AllBlank behind → bareLine (last ++ behind) ≠ []) :
    ∃ behind, AllBlank behind ∧ '\n' ∉ behind ∧
      (lines s).reverse.dropWhile (fun l => (bareLine l).isEmpty) =
        (last ++ behind) :: upper.reverse := by
  obtain ⟨behind, below, split, hb, hi, hl⟩ := lines_append_blank inline blank
  have blankLine : ∀ l ∈ below.reverse, (bareLine l).isEmpty = true := by
    intro l mem
    have blankLine := hl l (List.mem_reverse.1 mem)
    rw [bareLine_eq (.of_blank blankLine), trim_of_allBlank blankLine]
    rfl
  have filled' : ¬ (bareLine (last ++ behind)).isEmpty = true := by
    simpa using filled behind hb
  refine ⟨behind, hb, hi, ?_⟩
  rw [cut, split, List.reverse_append, List.reverse_cons, List.append_assoc,
    List.dropWhile_append_of_pos blankLine, List.singleton_append]
  exact List.dropWhile_cons_of_neg (p := fun l => (bareLine l).isEmpty) filled'

/-- A selector below lines of content is told from them. -/
theorem Content.splitHeader (h : Content w b) {cfg : Config} {header : List Char}
    (isHeader : IsHeader header) (start : Break) (gap : Blanks)
    (proper : looksLikeSelector cfg header = true) :
    ∃ w', Content w' b ∧
      splitHeader cfg (w ++ (start.chars ++ (header ++ gap.chars))) = ⟨w', header⟩ := by
  obtain ⟨above, indent, cut, blank, blank', inline⟩ := exists_split start
  refine ⟨w ++ above, h.append_blank blank, ?_⟩
  have line : Inert (indent ++ header) :=
    (Inert.of_blank blank' inline).append isHeader.inert (.of_blank_left blank')
  have bare : ∀ behind, AllBlank behind → bareLine (indent ++ header ++ behind) = header := by
    intro behind hb
    rw [bareLine_append_blank line hb, trim_blank_append blank', isHeader.trimmed]
  have whole : lines (w ++ (start.chars ++ (header ++ gap.chars))) =
      lines (w ++ above) ++ lines (indent ++ header ++ gap.chars) := by
    rw [← lines_append_newline, cut]
    simp
  obtain ⟨behind, hb, -, upwards⟩ := dropWhile_lines_append_blank line.inline gap.blank whole
    fun behind hb => (bare behind hb).symm ▸ isHeader.nonempty
  have continued := (h.append_blank blank).stops
  have own : unlines [indent ++ header ++ behind] = indent ++ header ++ behind :=
    List.intercalate_singleton
  rw [← List.nil_append (lines (w ++ above)).reverse] at upwards
  have split := splitHeader_of_upwards cfg upwards continued
  simp only [List.takeWhile_nil, List.reverse_singleton, own, bare behind hb, proper, if_true,
    List.drop_nil, List.reverse_reverse, List.reverse_nil, List.append_nil, unlines_lines] at split
  exact split

end NestedStyles.Block
