import NestedStyles.Proofs.Block.Behind

/-!
# Sources one below the other

What is found inside of a text is found there whatever follows it (`seek_append`, `closing_append`),
so a block that is closed is read the same in front of any text (`readBody_append`). A source that
ends outside of blocks and comments says the same in front of another, which is read behind it
(`Stylesheet.parse_append`).
-/

namespace NestedStyles.Block

open Text

variable {cfg : Config} {t c : Char} {σ : Scan} {i start stop stop' pos : Nat}
  {s rest more text : List Char}

/-! ## Searches in front of a text -/

/-- A brace is seen or not whatever follows it. -/
theorem Scan.sees_brace (brace : t = '}' ∨ t = '{') (next next' : Option Char) :
    σ.sees t next = σ.sees t next' := by
  have code : ∀ next, opensComment t next = false := by
    obtain rfl | rfl := brace <;> simp [opensComment]
  exact Scan.sees_eq (code next) (code next')

/-- What follows the end of a search does not matter. -/
theorem seek_append (brace : t = '}' ∨ t = '{') (room : stop ≤ pos + s.length) :
    seek t stop σ pos (s ++ more) = seek t stop σ pos s := by
  induction s generalizing σ pos with
  | nil =>
    have ends : stop ≤ pos := by simpa using room
    rw [seek_of_le ends, seek_of_le ends]
  | cons c s ih =>
    rw [List.length_cons] at room
    have here : (c == t && σ.depth == 0 && σ.sees c (s ++ more).head?) =
        (c == t && σ.depth == 0 && σ.sees c s.head?) := by
      by_cases same : c = t
      · subst same
        rw [Scan.sees_brace brace]
      · rw [beq_false_of_ne same]
        rfl
    rw [List.cons_append, seek, seek, here]
    split
    · rfl
    split
    · rfl
    cases s with
    | nil =>
      -- The search ends here, in whichever state.
      have ends : stop ≤ pos + 1 := by simpa using room
      rw [seek_of_le ends, seek_of_le ends]
    | cons d s => exact ih (by omega)

/-- A search that goes further finds what it found. -/
theorem seek_mono (h : seek t stop σ pos s = some i) (further : stop ≤ stop') :
    seek t stop' σ pos s = some i := by
  fun_induction seek t stop σ pos s with
  | case1 | case2 => cases h
  | case3 σ pos c s room here => rw [seek, if_neg (by omega), if_pos here, h]
  | case4 σ pos c s room other ih =>
    have bounds := bounds_of_seek h
    rw [seek, if_neg (by omega), if_neg other, ih h]

theorem find?_append_of_le (brace : t = '}' ∨ t = '{') (within : stop ≤ text.length) :
    find? t (text ++ more) start stop = find? t text start stop := by
  rw [find?, find?]
  by_cases inside : start ≤ text.length
  · rw [List.drop_append_of_le_length inside]
    apply seek_append brace
    rw [List.length_drop]
    omega
  · rw [seek_of_le (by omega), seek_of_le (by omega)]

theorem find?_append_of_some (brace : t = '}' ∨ t = '{')
    (h : find? t text start text.length = some i) :
    find? t (text ++ more) start (text ++ more).length = some i := by
  have found : find? t (text ++ more) start text.length = some i :=
    (find?_append_of_le brace le_rfl).trans h
  exact seek_mono found (by simp)

/-- A block that is closed is closed at the same place in front of a text. -/
theorem closing_append {brace : Nat} (closed : closing text brace < text.length) :
    closing (text ++ more) brace = closing text brace := by
  rw [closing] at closed ⊢
  cases found : find? '}' text (brace + 1) text.length with
  | none =>
    rw [found, Option.getD_none] at closed
    exact absurd closed (lt_irrefl _)
  | some i => rw [find?_append_of_some (.inl rfl) found, closing, found, Option.getD_some,
      Option.getD_some]

theorem lineAt_append (within : pos ≤ text.length) :
    lineAt (text ++ more) pos = lineAt text pos := by
  rw [lineAt, lineAt, List.take_append_of_le_length within]

theorem slice_append_of_le (within : stop ≤ text.length) :
    slice (text ++ more) start stop = slice text start stop := by
  rw [slice, slice]
  by_cases inside : start ≤ text.length
  · rw [List.drop_append_of_le_length inside, List.take_append_of_le_length]
    rw [List.length_drop]
    omega
  · rw [Nat.sub_eq_zero_of_le (by omega), List.take_zero, List.take_zero]

/-! ## Blocks in front of a text -/

/-- No block is left open. -/
def NoneOpen (rs : List Report) : Prop :=
  ∀ r ∈ rs, r.fault ≠ .unclosedBrace

theorem noneOpen_append {rs rs' : List Report} :
    NoneOpen (rs ++ rs') ↔ NoneOpen rs ∧ NoneOpen rs' :=
  List.forall_mem_append

theorem NoneOpen.closed {brace close : Nat} (h : NoneOpen (unclosed text brace close)) :
    close < text.length := by
  by_contra ends
  rw [unclosed, if_pos (Nat.not_lt.1 ends)] at h
  exact h _ List.mem_cons_self rfl

/-- Two contents of a nested block that differ only if nothing is read of them are read alike. -/
theorem nested_congr {line : Nat} {header : List Char} {r r' : Reported Body}
    (h : r.reports ⊆ (nested cfg line header r).reports → r' = r) :
    nested cfg line header r' = nested cfg line header r := by
  cases rule : unsupportedAtRule? cfg header with
  | some name => simp only [nested, rule]
  | none =>
    cases exports : ['@', 'e', 'x', 'p', 'o', 'r', 't'].isPrefixOf header with
    | true => simp only [nested, rule, exports, if_true]
    | false =>
      simp only [nested, rule, exports, Bool.false_eq_true, if_false] at h ⊢
      rw [h (List.Subset.refl _)]

theorem outermost_congr {line : Nat} {header : List Char} {r r' : Reported Body}
    (h : r.reports ⊆ (outermost cfg line header r).reports → r' = r) :
    outermost cfg line header r' = outermost cfg line header r := by
  unfold outermost readItem at h ⊢
  split at h
  next => rfl
  next =>
    rw [h]
    split
    · split
      · exact List.Subset.refl _
      · exact List.subset_append_left _ _
    · exact List.Subset.refl _

/-- The inside of a block is read the same in front of a text if each block in it is closed. -/
theorem readBody_append (within : stop ≤ text.length)
    (closed : NoneOpen (readBody cfg text start stop).reports) :
    readBody cfg (text ++ more) start stop = readBody cfg text start stop := by
  have within' : stop ≤ (text ++ more).length := by
    rw [List.length_append]
    omega
  fun_induction blocks text start stop with
  | case1 start stop room none =>
    rw [min_eq_left within] at room none
    rw [readBody_of_none room within none, readBody_of_none room within'
      ((find?_append_of_le (.inr rfl) within).trans none), lineAt_append (by omega),
      slice_append_of_le within]
  | case2 start stop room brace found _ _ ihInside ihNext =>
    rw [min_eq_left within] at room found
    have inside := (bounds_of_find? found).2.2
    rw [readBody_of_brace room within found] at closed ⊢
    simp only [Reported.reports_append, noneOpen_append] at closed
    obtain ⟨-, closes, own, later⟩ := closed
    have close : closing text brace < text.length := NoneOpen.closed closes
    rw [readBody_of_brace room within' ((find?_append_of_le (.inr rfl) within).trans found),
      closing_append close, lineAt_append (by omega), slice_append_of_le (by omega),
      unclosed_of_lt close, unclosed_of_lt (by rw [List.length_append]; omega),
      ihNext within later within']
    rw [nested_congr fun read => ihInside (closing_le brace) (fun r mem => own r (read mem))
      ((closing_le brace).trans (by simp))]
  | case3 start stop out =>
    rw [min_eq_left within] at out
    rw [readBody_of_le (by omega), readBody_of_le (by omega)]

/-! ## Gaps in front of a text -/

theorem stripComments_of_split {keep : Bool} {comment : List Char}
    (h : splitComment s = some (comment, rest)) :
    stripComments keep s =
      (if keep then comment.filter (· == '\n') else []) ++ stripComments keep rest := by
  rw [stripComments]
  split
  next found =>
    cases h.symm.trans found
    rfl
  next none => cases h.symm.trans none

theorem stripComments_of_none {keep : Bool} (h : splitComment (c :: s) = none) :
    stripComments keep (c :: s) = c :: stripComments keep s := by
  rw [stripComments]
  split
  next found => cases h.symm.trans found
  next => rfl

theorem splitComment_append {comment : List Char} (h : splitComment s = some (comment, rest)) :
    splitComment (s ++ more) = some (comment, rest ++ more) := by
  obtain ⟨inner, rfl, closed⟩ := eq_of_splitComment h
  rw [comment_append, splitComment_comment closed] at h
  cases h
  rw [comment_append, List.append_assoc, splitComment_comment closed]

/-- A newline does not make a character open a comment. -/
theorem opensComment_newline (code : opensComment c s.head? = false) :
    opensComment c (s ++ '\n' :: rest).head? = false := by
  cases s with
  | nil => simp [opensComment]
  | cons d s => exact code

theorem Passed.of_split {comment : List Char} (h : splitComment s = some (comment, rest)) :
    Passed comment := by
  obtain ⟨inner, rfl, closed⟩ := eq_of_splitComment h
  rw [comment_append, splitComment_comment closed] at h
  cases h
  exact .of_closed closed

/-- A gap that reaches to the end of a text is all of it, if no comment is left open there. -/
theorem passed_of_gapEnd (h : stop ≤ gapEnd stop pos s) (whole : stop = pos + s.length)
    (closed : ¬ ['/', '*'] <:+: stripComments false s) : Passed s := by
  fun_induction gapEnd stop pos s with
  | case1 pos s out =>
    obtain rfl := List.length_eq_zero_iff.1 (by omega : s.length = 0)
    exact .of_blank (by decide)
  | case2 pos s room comment rest found _ ih =>
    rw [stripComments_of_split found] at closed
    have cut := append_of_splitComment found
    rw [← cut, List.length_append] at whole
    rw [← cut]
    exact (Passed.of_split found).append (ih h (by omega) closed)
  | case3 => exact .of_blank (by decide)
  | case4 pos room c s none opens =>
    obtain ⟨rfl, next⟩ : c = '/' ∧ s.head? = some '*' := by
      simpa [opensComment] using opens
    obtain ⟨s, rfl⟩ := List.head?_eq_some_iff.1 next
    rw [stripComments_of_none none, stripComments_cons false (by simp [opensComment])] at closed
    exact absurd ⟨[], stripComments false s, rfl⟩ closed
  | case5 pos room c s none code blank ih =>
    rw [stripComments_cons false (eq_false_of_ne_true code)] at closed
    rw [List.length_cons] at whole
    rw [← List.singleton_append]
    exact (Passed.of_blank (by simpa [AllBlank] using blank)).append
      (ih h (by omega) fun within => closed (List.infix_cons within))
  | case6 pos room c s none code solid =>
    rw [List.length_cons] at whole
    omega

/-- A gap that ends in a text ends there in front of a newline, too. -/
theorem gapEnd_append (h : gapEnd stop pos s < stop) (whole : stop = pos + s.length)
    (within : stop ≤ stop') : gapEnd stop' pos (s ++ '\n' :: more) = gapEnd stop pos s := by
  fun_induction gapEnd stop pos s with
  | case1 | case4 => omega
  | case2 pos s room comment rest found _ ih =>
    have total := congrArg List.length (append_of_splitComment found)
    rw [List.length_append] at total
    rw [gapEnd_of_split (by omega) (splitComment_append found)]
    exact ih h (by omega)
  | case3 pos room =>
    rw [List.length_nil] at whole
    omega
  | case5 pos room c s none code blank ih =>
    rw [List.length_cons] at whole
    rw [List.cons_append, gapEnd_cons (by omega) (opensComment_newline (eq_false_of_ne_true code)),
      if_pos blank, ih h (by omega)]
  | case6 pos room c s none code solid =>
    rw [List.cons_append, gapEnd_cons (by omega) (opensComment_newline (eq_false_of_ne_true code)),
      if_neg solid]

/-- A gap ends in front of a character that is no white space and opens no comment. -/
theorem exists_solid_of_gapEnd (h : gapEnd stop pos s < stop) (whole : stop = pos + s.length) :
    ∃ c rest, s.drop (gapEnd stop pos s - pos) = c :: rest ∧ isBlank c = false ∧
      opensComment c rest.head? = false := by
  fun_induction gapEnd stop pos s with
  | case1 | case4 => omega
  | case2 pos s room comment rest found _ ih =>
    have cut := append_of_splitComment found
    rw [← cut, List.length_append] at whole
    have beyond := le_gapEnd stop (pos + comment.length) rest
    have apart : gapEnd stop (pos + comment.length) rest - pos =
        comment.length + (gapEnd stop (pos + comment.length) rest - (pos + comment.length)) := by
      omega
    rw [← cut, apart, drop_behind]
    exact ih h (by omega)
  | case3 pos room =>
    rw [List.length_nil] at whole
    omega
  | case5 pos room c s none code blank ih =>
    rw [List.length_cons] at whole
    have beyond := le_gapEnd stop (pos + 1) s
    have apart : gapEnd stop (pos + 1) s - pos = (gapEnd stop (pos + 1) s - (pos + 1)) + 1 := by
      omega
    rw [apart, List.drop_succ_cons]
    exact ih h (by omega)
  | case6 pos room c s none code solid =>
    rw [Nat.sub_self]
    exact ⟨c, s, rfl, eq_false_of_ne_true solid, eq_false_of_ne_true code⟩

theorem exists_solid (text : List Char) (start : Nat)
    (h : skipGap text start text.length < text.length) :
    ∃ c rest, text.drop (skipGap text start text.length) = c :: rest ∧ isBlank c = false ∧
      opensComment c rest.head? = false := by
  have first := le_skipGap text start text.length
  obtain ⟨c, rest, cons, solid⟩ := exists_solid_of_gapEnd h (by rw [List.length_drop]; omega)
  rw [List.drop_drop, ← skipGap, Nat.add_sub_cancel' first] at cons
  exact ⟨c, rest, cons, solid⟩

/-! ## Sources in front of a text -/

/-- A newline does not make a text start with the import keyword. -/
theorem startsImport_newline (s more : List Char) :
    startsImport (s ++ '\n' :: more) = startsImport s := by
  by_cases starts : ['@', 'i', 'm', 'p', 'o', 'r', 't'] <+: s
  · obtain ⟨rest, rfl⟩ := starts
    rw [List.append_assoc, startsImport, startsImport, after?_append, after?_append]
    cases rest with
    | nil => simp
    | cons c rest => rfl
  · have other : ¬ ['@', 'i', 'm', 'p', 'o', 'r', 't'] <+: s ++ '\n' :: more := by
      intro starts'
      obtain within | ⟨u, cut⟩ :=
        List.prefix_or_prefix_of_prefix starts' (List.prefix_append s ('\n' :: more))
      · exact starts within
      · rw [← cut, List.prefix_append_right_inj] at starts'
        cases u with
        | nil => exact starts ⟨[], by simpa using cut.symm⟩
        | cons c u =>
          obtain rfl : c = '\n' := (List.cons_prefix_cons.1 starts').1
          exact absurd (cut ▸ List.mem_append_right s List.mem_cons_self) (by decide)
    rw [startsImport_eq_false (eq_false_of_ne_true (mt List.isPrefixOf_iff_prefix.1 other)),
      startsImport_eq_false (eq_false_of_ne_true (mt List.isPrefixOf_iff_prefix.1 starts))]

theorem takeWhile_newline (s more : List Char) :
    (s ++ '\n' :: more).takeWhile (· != '\n') = s.takeWhile (· != '\n') := by
  induction s with
  | nil => rfl
  | cons c s ih =>
    rw [List.cons_append, List.takeWhile_cons, List.takeWhile_cons, ih]

/-- What a source holds from `start` on behind its imports and its blocks. -/
def remainder (text : List Char) (start : Nat) : List Char :=
  have _hs := le_skipGap text start text.length
  let pos := skipGap text start text.length
  if pos < text.length then
    let rest := text.drop pos
    if startsImport rest then
      remainder text (pos + (rest.takeWhile (· != '\n')).length + 1)
    else
      match h : find? '{' text pos text.length with
      | none => rest
      | some brace =>
        have _hb := bounds_of_find? h
        have _hc := lt_closing _hb.2.2
        remainder text (closing text brace + 1)
  else text.drop start
termination_by text.length - start

/-- A source opens a comment behind its imports and its blocks and never closes it. -/
def EndsInComment (text : List Char) : Prop :=
  ['/', '*'] <:+: stripComments false (remainder text 0)

instance : Decidable (EndsInComment text) :=
  inferInstanceAs (Decidable (_ <:+: _))

/-- No text is left over. -/
def NoneStray (rs : List Report) : Prop :=
  ∀ r ∈ rs, ∀ line, r.fault ≠ .strayContent line

theorem noneStray_append {rs rs' : List Report} :
    NoneStray (rs ++ rs') ↔ NoneStray rs ∧ NoneStray rs' :=
  List.forall_mem_append

theorem readStray_solid {number : Nat} (solid : isBlank c = false)
    (code : opensComment c s.head? = false) :
    ¬ NoneStray (readStray number (c :: s)).reports := by
  intro none
  rw [readStray, stripComments_cons false code] at none
  have shown : trim (c :: stripComments false s) ≠ [] :=
    List.ne_nil_of_mem (mem_trim solid List.mem_cons_self)
  split at none
  next leftover => exact shown leftover
  next leftover => exact none _ List.mem_cons_self _ rfl

/-- A source is read the same from wherever in a gap. -/
theorem readSheet_congr {start' : Nat}
    (h : skipGap text start text.length = skipGap text start' text.length) :
    readSheet cfg text start = readSheet cfg text start' := by
  by_cases room : skipGap text start' text.length < text.length
  · cases starts : startsImport (text.drop (skipGap text start' text.length)) with
    | true => rw [readSheet_of_import h room starts, readSheet_of_import rfl room starts]
    | false =>
      cases found : find? '{' text (skipGap text start' text.length) text.length with
      | none =>
        rw [readSheet_of_none h room starts found, readSheet_of_none rfl room starts found]
      | some brace =>
        rw [readSheet_of_brace h room starts found, readSheet_of_brace rfl room starts found]
  · rw [readSheet_of_end h (by omega), readSheet_of_end rfl (by omega)]

/-- A source that leaves nothing open and nothing over is read in front of another one, which is
read on the lines below. -/
theorem readSheet_append {a b : List Char} (within : start ≤ a.length + 1)
    (noneOpen : NoneOpen (readSheet cfg a start).reports)
    (noneStray : NoneStray (readSheet cfg a start).reports)
    (closed : ¬ ['/', '*'] <:+: stripComments false (remainder a start)) :
    readSheet cfg (a ++ '\n' :: b) start =
      readSheet cfg a start ++ (readSheet cfg b 0).lowered (a.count '\n' + 1) := by
  have total : (a ++ '\n' :: b).length = a.length + (b.length + 1) := List.length_append
  have below : readSheet cfg (a ++ '\n' :: b) (a.length + 1) =
      (readSheet cfg b 0).lowered (a.count '\n' + 1) := by
    have behind : readSheet cfg (a ++ ['\n'] ++ b) ((a ++ ['\n']).length + 0) = _ :=
      readSheet_behind (a ++ ['\n']) b
    simpa using behind
  have gap : ∀ start ≤ a.length + 1, skipGap a start a.length < a.length →
      skipGap (a ++ '\n' :: b) start (a ++ '\n' :: b).length = skipGap a start a.length := by
    intro start within ends
    have first : start ≤ a.length := (le_skipGap a start a.length).trans ends.le
    rw [skipGap, List.drop_append_of_le_length first]
    apply gapEnd_append ends
    · rw [List.length_drop]
      omega
    · omega
  fun_induction remainder a start with
  | case1 start _ pos room rest starts ih =>
    have rest' : (a ++ '\n' :: b).drop pos = rest ++ '\n' :: b :=
      List.drop_append_of_le_length room.le
    have line : (rest.takeWhile (· != '\n')).length ≤ rest.length :=
      (List.takeWhile_prefix _).length_le
    rw [List.length_drop] at line
    rw [readSheet_of_import rfl room starts, Reported.reports_append] at noneOpen noneStray
    rw [readSheet_of_import rfl room starts, readSheet_of_import (gap start within room) (by omega)
      (by rw [rest', startsImport_newline, starts]), rest', takeWhile_newline,
      lineAt_append room.le, ih (by omega) (noneOpen_append.1 noneOpen).2
        (noneStray_append.1 noneStray).2 closed, reported_append_assoc Stylesheet.append_assoc]
  | case2 start _ pos room rest starts none =>
    obtain ⟨c, more, cons, solid, code⟩ := exists_solid a start room
    rw [readSheet_of_none rfl room (eq_false_of_ne_true starts) none, cons] at noneStray
    exact absurd noneStray (readStray_solid solid code)
  | case3 start _ pos room rest starts brace found _ _ ih =>
    have starts := eq_false_of_ne_true starts
    have rest' : (a ++ '\n' :: b).drop pos = rest ++ '\n' :: b :=
      List.drop_append_of_le_length room.le
    have inside := (bounds_of_find? found).2.2
    rw [readSheet_of_brace rfl room starts found] at noneOpen noneStray ⊢
    simp only [Reported.reports_append, noneOpen_append, noneStray_append] at noneOpen noneStray
    obtain ⟨closes, own, later⟩ := noneOpen
    have close : closing a brace < a.length := closes.closed
    rw [readSheet_of_brace (gap start within room) (by omega)
      (by rw [rest', startsImport_newline, starts]) (find?_append_of_some (.inr rfl) found),
      closing_append close, lineAt_append room.le, slice_append_of_le inside.le,
      unclosed_of_lt close, unclosed_of_lt (by omega), ih (by omega) later noneStray.2.2 closed,
      outermost_congr fun read => readBody_append close.le fun r mem => own r (read mem)]
    simp only [reported_append_assoc Stylesheet.append_assoc]
  | case4 start _ pos out =>
    have none : readSheet cfg a start = ⟨.empty, []⟩ := readSheet_of_end rfl (Nat.not_lt.1 out)
    have passes : readSheet cfg (a ++ '\n' :: b) start =
        readSheet cfg (a ++ '\n' :: b) (a.length + 1) := by
      obtain rfl | first : start = a.length + 1 ∨ start ≤ a.length := by omega
      · rfl
      · apply readSheet_congr
        have passed : Passed (a.drop start) :=
          passed_of_gapEnd (Nat.not_lt.1 out) (by rw [List.length_drop]; omega) closed
        have line : (a ++ '\n' :: b).drop (a.length + 1) = b := by simp
        rw [skipGap, skipGap, line, List.drop_append_of_le_length first,
          passed (by rw [List.length_drop]; omega), List.length_drop, Nat.add_sub_cancel' first,
          gapEnd_cons (by omega) rfl, if_pos isBlank_newline]
    rw [none, reported_nothing_append Stylesheet.empty_append, passes, below]

end NestedStyles.Block

namespace NestedStyles

open Block

/-- What a source that leaves nothing open and nothing over says comes first, and what is read of the
lines below follows. -/
theorem Stylesheet.parse_below (cfg : Config) (a b : String)
    (clean : ∀ r ∈ (parse cfg a).reports,
      r.fault.rule ≠ "unclosed-brace" ∧ r.fault.rule ≠ "stray-content")
    (closed : ¬ EndsInComment a.toList) :
    parse cfg (a ++ "\n" ++ b) =
      parse cfg a ++ (parse cfg b).lowered (a.toList.count '\n' + 1) := by
  have text : (a ++ "\n" ++ b).toList = a.toList ++ '\n' :: b.toList := by simp
  rw [parse, text]
  apply readSheet_append (Nat.zero_le _)
  · intro r mem open'
    exact (clean r mem).1 (by rw [open']; rfl)
  · intro r mem line stray
    exact (clean r mem).2 (by rw [stray]; rfl)
  · exact closed

/-- A source that leaves no block open, no text over and no comment open says the same in front of
another one, which is read on the lines below. -/
theorem Stylesheet.parse_append (cfg : Config) (a b : String)
    (clean : ∀ r ∈ (parse cfg a).reports,
      r.fault.rule ≠ "unclosed-brace" ∧ r.fault.rule ≠ "stray-content")
    (closed : ¬ EndsInComment a.toList) :
    (parse cfg (a ++ "\n" ++ b)).value = (parse cfg a).value.merge (parse cfg b).value ∧
      (parse cfg (a ++ "\n" ++ b)).reports =
        (parse cfg a).reports ++
          (parse cfg b).reports.map fun r =>
            { r with line := r.line + (a.toList.count '\n' + 1) } := by
  rw [parse_below cfg a b clean closed]
  exact ⟨rfl, rfl⟩

namespace Stylesheet

/-- A source whose brackets, quotes and comments are in disorder and whose blocks are closed. -/
def disordered : String :=
  "@import oops /*\n.a ] \x7b px-4 ' \x7d '\n  @use\n\x7d /* \x7b */\n@media x \x7b [ \x7d ] \x7d"

/-- A source that leaves two blocks open. -/
def leftOpen : String :=
  "\x7d ] \x7b\n  @export y \x7b /* \x7d\n"

theorem parse_append_disordered :
    (∀ r ∈ (parse .standard disordered).reports,
      r.fault.rule ≠ "unclosed-brace" ∧ r.fault.rule ≠ "stray-content") ∧
    ¬ EndsInComment disordered.toList ∧
    (parse .standard (disordered ++ "\n" ++ leftOpen)).value.rules.map StyleRule.selector =
      [".a ]", "\x7d ]"] ∧
    (parse .standard (disordered ++ "\n" ++ leftOpen)).reports.map
        (fun r => (r.fault.rule, r.line)) =
      [("malformed-import", 1), ("malformed-use", 3), ("unsupported-at-rule", 5),
        ("unclosed-brace", 6), ("unclosed-brace", 7), ("malformed-export", 6)] := by
  have clean : ∀ r ∈ (parse .standard disordered).reports,
      r.fault.rule ≠ "unclosed-brace" ∧ r.fault.rule ≠ "stray-content" := by
    decide +kernel
  have closed : ¬ EndsInComment disordered.toList := by
    decide +kernel
  obtain ⟨value, reports⟩ := parse_append .standard disordered leftOpen clean closed
  refine ⟨clean, closed, ?_, ?_⟩
  · rw [value]
    decide +kernel
  · rw [reports]
    decide +kernel

end Stylesheet

end NestedStyles
