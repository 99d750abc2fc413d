import Mathlib.Data.List.Forall2
import NestedStyles.Proofs.Block.Commented

/-!
# Lines with comments

Comments can be taken out of a text line by line if none takes up more than one line
(`whole_lines`). A line that is read as an import has no comment in it
(`stripComments_of_readImport`).
-/

namespace NestedStyles.Block

open Text

variable {s u u' v v' l l' : List Char} {ls ls' : List (List Char)} {p q : Place} {c : Char}

/-! ## Lines whose comments are closed -/

/-- The second text is the first without its comments, with or without the lines they take up. -/
structure Whole (l l' : List Char) : Prop where
  strips (keep : Bool) : Strips keep l l'
  noOpener : ¬ ['/', '*'] <:+: l'

namespace Whole

theorem of_noOpener (no : ¬ ['/', '*'] <:+: l) : Whole l l :=
  ⟨fun _ => .of_noOpener no, no⟩

theorem bareLine_eq (h : Whole l l') : bareLine l' = bareLine l := by
  rw [Block.bareLine_eq (h.strips false), Block.bareLine_eq (.of_noOpener h.noOpener)]

end Whole

/-- No comment in the text takes up more than one line. -/
def OneLined (s : List Char) : Prop :=
  stripComments false s = stripComments true s

theorem noOpener_blank_append (blank : AllBlank u) (no : ¬ ['/', '*'] <:+: s) :
    ¬ ['/', '*'] <:+: u ++ s := by
  induction u with
  | nil => exact no
  | cons c u ih =>
    obtain ⟨first, more⟩ := List.forall_mem_cons.1 blank
    exact noOpener_cons (fun slash => ne_of_holds first (by decide) slash.1) (ih more)

theorem noOpener_newline (hu : ¬ ['/', '*'] <:+: u) (hv : ¬ ['/', '*'] <:+: v) :
    ¬ ['/', '*'] <:+: u ++ '\n' :: v :=
  noOpener_append hu (noOpener_cons (by simp) hv) (.of_head (by simp))

/-- No comment is opened in what is left. -/
theorem Spaced.noOpener (h : Spaced [] p s q) : ¬ ['/', '*'] <:+: stripComments true s := by
  induction h with
  | nil => simp [stripComments_nil]
  | keep code more ih =>
    rw [List.append_nil] at code
    rw [stripComments_cons true code]
    apply noOpener_cons _ ih
    have code' := Spaced.opensComment_stripComments true more code
    simpa [opensComment] using code'
  | comment closed more ih =>
    rw [stripComments_comment true closed, if_pos rfl]
    apply noOpener_blank_append _ ih
    intro c hc
    rw [eq_of_beq (List.mem_filter.1 hc).2]
    exact isBlank_newline

theorem length_stripComments_le (h : Spaced [] p s q) :
    (stripComments false s).length ≤ (stripComments true s).length := by
  induction h with
  | nil => simp [stripComments_nil]
  | keep code more ih =>
    rw [List.append_nil] at code
    rw [stripComments_cons _ code, stripComments_cons _ code, List.length_cons, List.length_cons]
    omega
  | comment closed more ih =>
    rw [stripComments_comment _ closed, stripComments_comment _ closed, List.length_append,
      List.length_append]
    simp
    omega

theorem filter_newline_iff : s.filter (· == '\n') = [] ↔ '\n' ∉ s := by
  simp [List.filter_eq_nil_iff, List.forall_mem_ne']

theorem OneLined.of_cons (h : OneLined (c :: s)) (code : opensComment c s.head? = false) :
    OneLined s := by
  rw [OneLined, stripComments_cons _ code, stripComments_cons _ code] at h
  exact (List.cons.inj h).2

theorem OneLined.of_comment {inner : List Char}
    (h : OneLined ('/' :: '*' :: (inner ++ '*' :: '/' :: s)))
    (closed : ¬ ['*', '/'] <:+: inner) (spaced : Spaced [] p s q) :
    '\n' ∉ inner ∧ OneLined s := by
  rw [OneLined, stripComments_comment _ closed, stripComments_comment _ closed, if_pos rfl] at h
  have lengths := congrArg List.length h
  have shorter := length_stripComments_le spaced
  simp only [Bool.false_eq_true, if_false, List.nil_append, List.length_append] at h lengths
  have none : inner.filter (· == '\n') = [] := List.length_eq_zero_iff.1 (by omega)
  rw [none] at h
  exact ⟨filter_newline_iff.1 none, h⟩

/-- A text is its first line and what follows it. -/
theorem takeWhile_line (s : List Char) :
    '\n' ∉ s.takeWhile (· != '\n') ∧
      (s.dropWhile (· != '\n') = [] ∨ ∃ below, s.dropWhile (· != '\n') = '\n' :: below) := by
  constructor
  · intro newline
    have other := List.mem_takeWhile_imp newline
    simp at other
  · cases e : s.dropWhile (· != '\n') with
    | nil => exact .inl rfl
    | cons c below =>
      have stop := List.head?_dropWhile_not (· != '\n') s
      obtain rfl : c = '\n' := by
        simpa [e] using stop
      exact .inr ⟨below, rfl⟩

/-- The comments and the strings in a line are closed in it. -/
def ClosedLine (line : List Char) : Prop :=
  ∃ free, (Place.code true).behind? line = some (.code free)

theorem ClosedLine.tidy {line : List Char} (h : ClosedLine line) : Tidy line := by
  obtain ⟨free, behind⟩ := h
  exact ⟨.code free, spaced_of_behind? behind⟩

/-- A piece of a line in front of a text is in front of its first line. -/
theorem lines_inline_append (inline : '\n' ∉ u) (s : List Char) :
    ∃ l ls, lines s = l :: ls ∧ l <+: s ∧ lines (u ++ s) = (u ++ l) :: ls := by
  obtain ⟨inline', ended⟩ := takeWhile_line s
  generalize cut : s.takeWhile (· != '\n') = l at inline'
  have start : l <+: s := cut ▸ List.takeWhile_prefix _
  have whole : s = l ++ s.dropWhile (· != '\n') := cut ▸ List.takeWhile_append_dropWhile.symm
  have both : '\n' ∉ u ++ l := by
    simp [inline, inline']
  obtain none | ⟨below, some⟩ := ended
  · rw [none, List.append_nil] at whole
    subst whole
    exact ⟨s, [], lines_of_inline inline', start, lines_of_inline both⟩
  · rw [some] at whole
    refine ⟨l, lines below, ?_, start, ?_⟩
    · rw [whole, lines_append_newline, lines_of_inline inline']
      rfl
    · rw [whole, ← List.append_assoc, lines_append_newline, lines_of_inline both]
      rfl

namespace Whole

theorem cons (h : Whole l l') (code : opensComment c l.head? = false)
    (code' : opensComment c l'.head? = false) : Whole (c :: l) (c :: l') := by
  constructor
  · intro keep rest apart
    have code : opensComment c (l ++ rest).head? = false := by
      apply opensComment_false _ apart
      rintro r rfl rfl
      simp [opensComment] at code
    rw [List.cons_append, stripComments_cons keep code, h.strips keep apart.tail, List.cons_append]
  · apply noOpener_cons _ h.noOpener
    simpa [opensComment] using code'

theorem comment {inner : List Char} (h : Whole l l') (closed : ¬ ['*', '/'] <:+: inner)
    (inline : '\n' ∉ inner) : Whole ('/' :: '*' :: (inner ++ ['*', '/']) ++ l) l' := by
  constructor
  · intro keep rest apart
    have left : (if keep then inner.filter (· == '\n') else []) = [] := by
      cases keep with
      | false => rfl
      | true => exact filter_newline_iff.2 inline
    have whole : '/' :: '*' :: (inner ++ ['*', '/']) ++ l ++ rest =
        '/' :: '*' :: (inner ++ '*' :: '/' :: (l ++ rest)) := by
      simp
    rw [whole, stripComments_comment keep closed, left, List.nil_append,
      h.strips keep apart.right_of_append]
  · exact h.noOpener

theorem newline (hu : Whole u u') (hv : Whole v v') :
    Whole (u ++ '\n' :: v) (u' ++ '\n' :: v') where
  strips keep := (hu.strips keep).newline (hv.strips keep)
  noOpener := noOpener_newline hu.noOpener hv.noOpener

end Whole

theorem opensComment_of_start (h : l <+: s) (code : opensComment c s.head? = false) :
    opensComment c l.head? = false := by
  obtain ⟨t, rfl⟩ := h
  exact opensComment_append code

/-- The lines of a text whose comments each lie on one line. -/
theorem whole_lines (h : Spaced [] p s q) (one : OneLined s) :
    List.Forall₂ Whole (lines s) (lines (stripComments true s)) := by
  induction h with
  | nil =>
    rw [stripComments_nil]
    exact .cons (.of_noOpener (by simp)) .nil
  | @keep p q c s code more ih =>
    rw [List.append_nil] at code
    have below := ih (one.of_cons code)
    rw [stripComments_cons true code]
    by_cases newline : c = '\n'
    · subst newline
      have first : ∀ t : List Char, lines ('\n' :: t) = [] :: lines t := fun t =>
        lines_append_newline (u := [])
      rw [first, first]
      exact .cons (.of_noOpener (by simp)) below
    · have inline : '\n' ∉ [c] := by
        simpa using Ne.symm newline
      obtain ⟨l, ls, cut, start, cut'⟩ := lines_inline_append inline s
      obtain ⟨m, ms, stripped, start', stripped'⟩ :=
        lines_inline_append inline (stripComments true s)
      rw [cut, stripped] at below
      show List.Forall₂ Whole (lines ([c] ++ s)) (lines ([c] ++ stripComments true s))
      rw [cut', stripped']
      obtain ⟨head, tail⟩ := List.forall₂_cons.1 below
      apply List.Forall₂.cons _ tail
      apply head.cons (opensComment_of_start start code)
      exact opensComment_of_start start' (Spaced.opensComment_stripComments true more code)
  | @comment q inner s closed more ih =>
    obtain ⟨inline, one⟩ := one.of_comment closed more
    have below := ih one
    have piece : '\n' ∉ '/' :: '*' :: (inner ++ ['*', '/']) := by
      simp [inline]
    obtain ⟨l, ls, cut, start, cut'⟩ := lines_inline_append piece s
    have whole : '/' :: '*' :: (inner ++ '*' :: '/' :: s) =
        '/' :: '*' :: (inner ++ ['*', '/']) ++ s := by
      simp
    have left : stripComments true ('/' :: '*' :: (inner ++ '*' :: '/' :: s)) =
        stripComments true s := by
      rw [stripComments_comment true closed, if_pos rfl, filter_newline_iff.2 inline,
        List.nil_append]
    rw [left, whole, cut']
    rw [cut] at below
    obtain ⟨m, ms, stripped, -⟩ := lines_inline_append List.not_mem_nil (stripComments true s)
    rw [stripped] at below ⊢
    obtain ⟨head, tail⟩ := List.forall₂_cons.1 below
    exact .cons (head.comment closed inline) tail

theorem unlines_cons (l m : List Char) (ls : List (List Char)) :
    unlines (l :: m :: ls) = l ++ '\n' :: unlines (m :: ls) := by
  rw [unlines, List.intercalate_cons_of_ne_nil (by simp), List.append_assoc]
  rfl

theorem unlines_append (l m : List Char) (ls ms : List (List Char)) :
    unlines (l :: ls ++ m :: ms) = unlines (l :: ls) ++ '\n' :: unlines (m :: ms) := by
  induction ls generalizing l with
  | nil =>
    rw [List.singleton_append, unlines_cons, unlines, unlines, List.intercalate_singleton]
  | cons k ls ih =>
    rw [List.cons_append, List.cons_append, unlines_cons, ← List.cons_append, ih, unlines_cons,
      List.append_assoc, List.cons_append]

theorem whole_unlines (h : List.Forall₂ Whole ls ls') : Whole (unlines ls) (unlines ls') := by
  induction h with
  | nil => exact .of_noOpener (by simp [unlines])
  | @cons l l' ls ls' first more ih =>
    cases more with
    | nil =>
      rw [unlines, unlines, List.intercalate_singleton, List.intercalate_singleton]
      exact first
    | cons second more =>
      rw [unlines_cons, unlines_cons]
      exact first.newline ih

/-! ## Imports have no comments -/

theorem mem_or_mem_of_mem_intercalate (mem : c ∈ s.intercalate ls) :
    c ∈ s ∨ ∃ l ∈ ls, c ∈ l := by
  induction ls with
  | nil => simp at mem
  | cons l ls ih =>
    by_cases some : ls = []
    · subst some
      rw [List.intercalate_singleton] at mem
      exact .inr ⟨l, List.mem_cons_self, mem⟩
    · rw [List.intercalate_cons_of_ne_nil some, List.append_assoc] at mem
      obtain here | later := List.mem_append.1 mem
      · exact .inr ⟨l, List.mem_cons_self, here⟩
      · obtain between | below := List.mem_append.1 later
        · exact .inl between
        · obtain inSep | ⟨m, isLine, mem⟩ := ih below
          · exact .inl inSep
          · exact .inr ⟨m, List.mem_cons_of_mem _ isLine, mem⟩

section

variable (solid : isBlank c = false)
include solid

theorem mem_trimLeft (mem : c ∈ s) : c ∈ trimLeft s := by
  rw [← List.takeWhile_append_dropWhile (p := isBlank) (l := s)] at mem
  obtain before | behind := List.mem_append.1 mem
  · exact absurd (List.mem_takeWhile_imp before) (by simp [solid])
  · exact behind

theorem mem_trim (mem : c ∈ s) : c ∈ trim s := by
  have left := mem_trimLeft solid mem
  rw [← List.mem_reverse] at left
  exact List.mem_reverse.2 (mem_trimLeft solid left)

theorem mem_of_afterBlanks? (h : afterBlanks? s = some u) (mem : c ∈ s) : c ∈ u := by
  cases s with
  | nil => cases h
  | cons d s =>
    rw [afterBlanks?] at h
    split at h
    next blank =>
      obtain rfl := Option.some.inj h
      obtain rfl | later := List.mem_cons.1 mem
      · cases solid.symm.trans blank
      · exact mem_trimLeft solid later
    next => cases h

theorem mem_of_beforeFrom? (h : beforeFrom? s = some u) (mem : c ∈ s) :
    c ∈ ['m', 'o', 'r', 'f'] ∨ c ∈ u := by
  simp only [beforeFrom?, Option.bind_eq_bind, Option.pure_def, Option.bind_eq_some_iff,
    Option.some.injEq] at h
  obtain ⟨behind, ended, keyword, found, before, reversed, rfl⟩ := h
  have mem := mem_of_afterBlanks? solid ended (List.mem_reverse.2 mem)
  rw [← append_of_after? found] at mem
  obtain inKeyword | further := List.mem_append.1 mem
  · exact .inl inKeyword
  · exact .inr (List.mem_reverse.2 (mem_of_afterBlanks? solid reversed further))

theorem mem_of_isLineEnd (h : isLineEnd s = true) (mem : c ∈ s) : c = ';' := by
  have left := mem_trimLeft solid mem
  unfold isLineEnd at h
  split at h
  next none =>
    rw [none] at left
    cases left
  next d rest some =>
    rw [some] at left
    obtain ⟨rfl, blank⟩ : d = ';' ∧ ∀ c ∈ rest, isBlank c = true := by
      simpa using h
    obtain rfl | later := List.mem_cons.1 left
    · rfl
    · cases solid.symm.trans (blank c later)

theorem mem_of_readNames {names : List (List Char)} (h : readNames s = some names) (mem : c ∈ s) :
    c = ',' ∨ isNameChar c = true := by
  have pieces : c ∈ [','] ∨ ∃ piece ∈ s.splitOn ',', c ∈ piece := by
    have whole : [','].intercalate (s.splitOn ',') = s := List.intercalate_splitOn ','
    rw [← whole] at mem
    exact mem_or_mem_of_mem_intercalate mem
  obtain comma | ⟨piece, isPiece, mem⟩ := pieces
  · exact .inl (List.mem_singleton.1 comma)
  · right
    have trimmed := mem_trim solid mem
    simp only [readNames] at h
    split at h
    next valid =>
      have all := (Bool.and_eq_true_iff.1 valid).2
      rw [List.all_eq_true] at all
      have name : isName (trim piece) = true := by
        apply all
        rw [List.mem_filter]
        exact ⟨List.mem_map_of_mem isPiece, by simpa using List.ne_nil_of_mem trimmed⟩
      exact isNameChar_of_mem ⟨trim piece, name⟩ c trimmed
    next => cases h

end

theorem exists_trim (s : List Char) : ∃ u v, s = u ++ trim s ++ v ∧ AllBlank u ∧ AllBlank v := by
  refine ⟨s.takeWhile isBlank, ((trimLeft s).reverse.takeWhile isBlank).reverse, ?_, ?_, ?_⟩
  · have right : trim s ++ ((trimLeft s).reverse.takeWhile isBlank).reverse = trimLeft s := by
      rw [trim, trimRight, ← List.reverse_append, List.takeWhile_append_dropWhile,
        List.reverse_reverse]
    rw [List.append_assoc, right, trimLeft, List.takeWhile_append_dropWhile]
  · exact fun c mem => List.mem_takeWhile_imp mem
  · exact fun c mem => List.mem_takeWhile_imp (List.mem_reverse.1 mem)

theorem eq_of_splitPath? {path after : List Char} (h : splitPath? s = some (path, after)) :
    path ≠ [] ∧ ∃ quote quote', s = quote :: (path ++ quote' :: after) ∧ isQuote quote = true ∧
      isQuote quote' = true ∧ ∀ c ∈ path, isQuote c = false := by
  cases s with
  | nil => cases h
  | cons c s =>
    simp only [splitPath?] at h
    split at h
    next d path' quote' after' isQuote before behind =>
      cases h
      have whole : s = d :: path' ++ quote' :: after := by
        rw [← before, ← behind, List.takeWhile_append_dropWhile]
      have stop := List.head?_dropWhile_not (fun d => !Block.isQuote d) s
      rw [behind] at stop
      refine ⟨List.cons_ne_nil d path', c, quote', by rw [whole], isQuote, by simpa using stop, ?_⟩
      intro c mem
      rw [← before] at mem
      simpa using List.mem_takeWhile_imp mem
    next => cases h

/-- A line that is read as an import has slashes in its path only. -/
theorem exists_path_of_readImport {d : ImportDirective} (h : readImport s = some d) :
    ∃ head quote path rest, s = head ++ [quote] ++ (path ++ rest) ∧
      (∀ c ∈ head, isQuote c = false) ∧ isQuote quote = true ∧ (∀ c ∈ path, isQuote c = false) ∧
      '/' ∉ head ∧ '/' ∉ rest := by
  simp only [readImport, Option.bind_eq_bind, Option.pure_def, Option.bind_eq_some_iff,
    Option.some.injEq] at h
  obtain ⟨named, keyword, listed, parted, names, before, list, read, ⟨path, after⟩, cut, _, ended,
    -⟩ := h
  have solid : isBlank '/' = false := by decide
  have ended : isLineEnd after = true := by
    by_contra more
    simp [guard, more] at ended
  have inHead : '/' ∉ (trim s).takeWhile fun c => !isQuote c := by
    intro mem
    rw [← append_of_after? keyword] at mem
    obtain inKeyword | mem := List.mem_append.1 mem
    · revert inKeyword
      decide
    · have mem := mem_of_afterBlanks? solid parted mem
      obtain inFrom | mem := mem_of_beforeFrom? solid before mem
      · revert inFrom
        decide
      · obtain comma | name := mem_of_readNames solid read mem
        · cases comma
        · revert name
          decide
  obtain ⟨-, quote, quote', rest, isQuote, isQuote', unquoted⟩ := eq_of_splitPath? cut
  obtain ⟨u, v, whole, blank, blank'⟩ := exists_trim s
  have trimmed : trim s = (trim s).takeWhile (fun c => !Block.isQuote c) ++
      quote :: (path ++ quote' :: after) := by
    rw [← rest]
    exact (List.prefix_iff_eq_append.1 (List.takeWhile_prefix _)).symm
  refine ⟨u ++ (trim s).takeWhile (fun c => !Block.isQuote c), quote, path,
    quote' :: (after ++ v), ?_, ?_, isQuote, unquoted, ?_, ?_⟩
  · conv_lhs => rw [whole, trimmed]
    simp
  · intro c mem
    obtain mem | mem := List.mem_append.1 mem
    · exact isQuote_of_isBlank (blank c mem)
    · simpa using List.mem_takeWhile_imp mem
  · intro mem
    obtain mem | mem := List.mem_append.1 mem
    · cases solid.symm.trans (blank _ mem)
    · exact inHead mem
  · intro mem
    obtain same | mem := List.mem_cons.1 mem
    · exact ne_of_holds isQuote' (by decide) same.symm
    · obtain mem | mem := List.mem_append.1 mem
      · cases mem_of_isLineEnd solid ended mem
      · cases solid.symm.trans (blank' _ mem)

theorem Place.after_quote (free : Bool) (h : isQuote c = true) :
    (Place.code free).after c = .quoted c false := by
  rw [Place.after, Bool.or_comm]
  exact if_pos h

theorem Place.after_unquoted (free : Bool) (h : isQuote c = false) :
    (Place.code free).after c = .code (isBlank c) := by
  rw [Place.after, Bool.or_comm]
  exact if_neg (ne_true_of_eq_false h)

theorem foldl_after_unquoted (free : Bool) (h : ∀ c ∈ s, isQuote c = false) :
    ∃ free', s.foldl Place.after (.code free) = .code free' := by
  induction s generalizing free with
  | nil => exact ⟨free, rfl⟩
  | cons c s ih =>
    obtain ⟨first, more⟩ := List.forall_mem_cons.1 h
    rw [List.foldl_cons, Place.after_unquoted free first]
    exact ih _ more

theorem Spaced.slashless (no : '/' ∉ u) (h : Spaced [] p (u ++ v) q) :
    Spaced [] (u.foldl Place.after p) v q ∧
      stripComments true (u ++ v) = u ++ stripComments true v := by
  induction u generalizing p with
  | nil => exact ⟨h, rfl⟩
  | cons c u ih =>
    have code : opensComment c (u ++ v).head? = false := by
      simp [opensComment, Ne.symm (List.ne_of_not_mem_cons no)]
    obtain ⟨more, left⟩ := ih (List.not_mem_of_not_mem_cons no)
      (Spaced.of_keep (by rwa [List.append_nil]) h)
    rw [List.cons_append, stripComments_cons true code, left]
    exact ⟨more, rfl⟩

theorem Spaced.quoted {quote : Char} {escaped : Bool} (no : quote ∉ u)
    (h : Spaced [] (.quoted quote escaped) (u ++ v) q) :
    ∃ escaped', Spaced [] (.quoted quote escaped') v q ∧
      stripComments true (u ++ v) = u ++ stripComments true v := by
  induction u generalizing escaped with
  | nil => exact ⟨escaped, h, rfl⟩
  | cons c u ih =>
    have stays : (Place.quoted quote escaped).after c = .quoted quote (c == '\\') := by
      simp [Place.after, Ne.symm (List.ne_of_not_mem_cons no)]
    generalize whole : c :: u ++ v = w at h
    cases h with
    | nil => cases whole
    | keep code more =>
      cases whole
      rw [stays] at more
      obtain ⟨escaped', behind, left⟩ := ih (List.not_mem_of_not_mem_cons no) more
      rw [List.append_nil] at code
      exact ⟨escaped', behind, by rw [stripComments_cons true code]; exact congrArg (c :: ·) left⟩

/-- A line that is read as an import has no comment in it. -/
theorem stripComments_of_readImport {d : ImportDirective} {free : Bool}
    (h : readImport s = some d) (spaced : Spaced [] (.code free) s q) :
    stripComments true s = s := by
  obtain ⟨head, quote, path, rest, rfl, unquoted, isQuote, unquoted', noSlash, noSlash'⟩ :=
    exists_path_of_readImport h
  have opened : '/' ∉ head ++ [quote] := by
    have other := ne_of_holds isQuote (by decide : Block.isQuote '/' = false)
    simp [noSlash, other.symm]
  have inside : quote ∉ path := notMem_of_holds (p := fun c => !Block.isQuote c)
    (fun c hc => by simp [unquoted' c hc]) (by simp [isQuote])
  obtain ⟨free', code⟩ := foldl_after_unquoted free unquoted
  have place : (head ++ [quote]).foldl Place.after (.code free) = .quoted quote false := by
    rw [List.foldl_append, code]
    exact Place.after_quote free' isQuote
  obtain ⟨behind, left⟩ := spaced.slashless opened
  rw [place] at behind
  obtain ⟨escaped, behind, left'⟩ := behind.quoted inside
  rw [← List.append_nil rest] at behind
  have left'' := (behind.slashless noSlash').2
  rw [stripComments_nil, List.append_nil] at left''
  rw [left, left', left'']

end NestedStyles.Block
