import NestedStyles.Proofs.Block.RoundTrip

/-!
# Comments that stand apart

The comments of a text stand apart if each is closed, lies outside of strings and has white space
or nothing in front of it (`commentsApart`). `Spaced` is that as a relation, along a part of a text
and in view of what follows it.

What a text leads to at a later position it leads to without its comments, too (`Leads`). So a
search comes to the same character (`seek_stripComments`), and a gap ends at the same one
(`gapEnd_stripComments`).
-/

namespace NestedStyles.Block

open Text

/-- What stands in front of a position that is inside of no comment. -/
inductive Place
  /-- Code. A comment may follow if `free` says that nothing or white space stands in front. -/
  | code (free : Bool)
  /-- A string in this kind of quotes. `escaped` says that a backslash was read just before. -/
  | quoted (quote : Char) (escaped : Bool)
  deriving DecidableEq, Repr

namespace Place

/-- The place behind a character that opens no comment. -/
def after : Place → Char → Place
  | code _, c => if c == '"' || c == '\'' then quoted c false else code (isBlank c)
  | quoted quote escaped, c =>
    if c == quote && !escaped then code false else quoted quote (c == '\\')

theorem after_of_blank (free : Bool) {c : Char} (h : isBlank c = true) :
    (code free).after c = code true := by
  have double : c ≠ '"' := ne_of_holds h (by decide)
  have single : c ≠ '\'' := ne_of_holds h (by decide)
  simp [after, double, single, h]

/-- What a scan says of the place. -/
def region : Place → Region
  | code _ => .code
  | quoted quote escaped => .quoted quote escaped

/-- A comment may start behind white space only. -/
theorem after_of_solid (p : Place) {c : Char} (h : isBlank c = false) :
    p.after c ≠ .code true := by
  cases p with
  | code free | quoted quote escaped =>
    rw [after]
    split
    · simp
    · simp [h]

end Place

/-- The place behind a text, if each comment of it is closed, lies outside of strings and has white
space or nothing in front of it. -/
def Place.behind? (p : Place) (s : List Char) : Option Place :=
  match h : splitComment s with
  | some (_, rest) =>
    have := length_of_splitComment h
    if p = .code true then (Place.code false).behind? rest else none
  | none =>
    match s with
    | [] => some p
    | c :: rest => if opensComment c rest.head? then none else (p.after c).behind? rest
termination_by s.length

/-- The comments of the text stand apart. -/
def commentsApart (s : List Char) : Bool :=
  ((Place.code true).behind? s).isSome

/-- The comments of a text stand apart, where `rest` follows it and it leads from the one place to
the other. -/
inductive Spaced (rest : List Char) : Place → List Char → Place → Prop
  | nil {p : Place} : Spaced rest p [] p
  | keep {p q : Place} {c : Char} {s : List Char} (code : opensComment c (s ++ rest).head? = false)
      (more : Spaced rest (p.after c) s q) : Spaced rest p (c :: s) q
  | comment {q : Place} {inner s : List Char} (closed : ¬ ['*', '/'] <:+: inner)
      (more : Spaced rest (.code false) s q) :
      Spaced rest (.code true) ('/' :: '*' :: (inner ++ '*' :: '/' :: s)) q

variable {rest s u v x y : List Char} {p q r : Place} {c t : Char} {keep : Bool}

/-! ## Texts whose comments stand apart -/

theorem eq_of_indexOf?_closer {i : Nat} (h : indexOf? ['*', '/'] s = some i) :
    ∃ inner rest, s = inner ++ '*' :: '/' :: rest ∧ inner.length = i ∧
      ¬ ['*', '/'] <:+: inner := by
  induction s generalizing i with
  | nil => cases h
  | cons c s ih =>
    rw [indexOf?] at h
    split at h
    next starts =>
      obtain ⟨rest, whole⟩ := List.isPrefixOf_iff_prefix.1 starts
      obtain rfl : 0 = i := Option.some.inj h
      exact ⟨[], rest, whole.symm, rfl, by simp⟩
    next other =>
      obtain ⟨j, found, rfl⟩ := Option.map_eq_some_iff.1 h
      obtain ⟨inner, rest, rfl, rfl, closed⟩ := ih found
      refine ⟨c :: inner, rest, rfl, rfl, fun within => ?_⟩
      obtain atStart | later := List.infix_cons_iff.1 within
      · apply other
        apply List.isPrefixOf_iff_prefix.2
        exact atStart.trans (List.prefix_append _ _)
      · exact closed later

theorem eq_of_splitComment {comment : List Char} (h : splitComment s = some (comment, rest)) :
    ∃ inner, s = '/' :: '*' :: (inner ++ '*' :: '/' :: rest) ∧ ¬ ['*', '/'] <:+: inner := by
  unfold splitComment at h
  split at h
  next behind =>
    obtain ⟨i, found, cut⟩ := Option.map_eq_some_iff.1 h
    obtain ⟨inner, rest', rfl, rfl, closed⟩ := eq_of_indexOf?_closer found
    obtain rfl : rest' = rest := by
      simpa [List.drop_append, List.drop_eq_nil_of_le] using congrArg Prod.snd cut
    exact ⟨inner, rfl, closed⟩
  next => cases h

theorem spaced_of_behind? (h : p.behind? s = some q) : Spaced [] p s q := by
  fun_induction Place.behind? p s with
  | case1 s comment rest found _ ih =>
    obtain ⟨inner, rfl, closed⟩ := eq_of_splitComment found
    exact .comment closed (ih h)
  | case2 | case4 => cases h
  | case3 p =>
    obtain rfl : p = q := Option.some.inj h
    exact .nil
  | case5 p c rest _ code ih =>
    apply Spaced.keep _ (ih h)
    rw [List.append_nil]
    exact eq_false_of_ne_true code

theorem exists_spaced (h : commentsApart s = true) : ∃ q, Spaced [] (.code true) s q := by
  obtain ⟨q, found⟩ := Option.isSome_iff_exists.1 h
  exact ⟨q, spaced_of_behind? found⟩

theorem opensComment_append (h : opensComment c (s ++ rest).head? = false) :
    opensComment c s.head? = false := by
  cases s with
  | nil => simp [opensComment]
  | cons d s => exact h

theorem stripComments_nil (keep : Bool) : stripComments keep [] = [] := by
  rw [stripComments]
  rfl

namespace Spaced

theorem append (hu : Spaced (v ++ rest) p u q) (hv : Spaced rest q v r) :
    Spaced rest p (u ++ v) r := by
  induction hu with
  | nil => exact hv
  | keep code more ih => exact .keep (by simpa using code) (ih hv)
  | comment closed more ih =>
    rw [List.cons_append, List.cons_append, List.append_assoc]
    exact .comment closed (ih hv)

/-- What follows matters at the end of the text only. -/
theorem of_apart (h : Spaced [] p u q) (apart : Apart u rest) : Spaced rest p u q := by
  induction h with
  | nil => exact .nil
  | keep code more ih =>
    rw [List.append_nil] at code
    apply Spaced.keep _ (ih apart.tail)
    apply opensComment_false _ apart
    rintro r rfl rfl
    simp [opensComment] at code
  | @comment q inner s closed more ih =>
    apply Spaced.comment closed (ih _)
    have behind : Apart (('/' :: '*' :: (inner ++ ['*', '/'])) ++ s) rest := by
      simpa using apart
    exact behind.right_of_append

theorem shorten (h : Spaced (u ++ v) p s q) : Spaced u p s q := by
  induction h with
  | nil => exact .nil
  | keep code more ih => exact .keep (opensComment_append (by simpa using code)) ih
  | comment closed more ih => exact .comment closed ih

theorem alone (h : Spaced rest p u q) : Spaced [] p u q :=
  shorten (u := []) h

theorem of_keep (code : opensComment c (s ++ rest).head? = false)
    (h : Spaced rest p (c :: s) q) : Spaced rest (p.after c) s q := by
  cases h with
  | keep _ more => exact more
  | comment => simp [opensComment] at code

theorem of_comment {inner : List Char} (closed : ¬ ['*', '/'] <:+: inner)
    (h : Spaced rest p ('/' :: '*' :: (inner ++ '*' :: '/' :: s)) q) :
    Spaced rest (.code false) s q := by
  generalize same : '/' :: '*' :: (inner ++ '*' :: '/' :: s) = whole at h
  cases h with
  | nil => cases same
  | keep code =>
    cases same
    simp [opensComment] at code
  | comment closed' more =>
    obtain ⟨-, -, same⟩ : True ∧ True ∧ inner ++ '*' :: '/' :: s = _ := by
      simpa using same
    have index := (indexOf?_closer closed).symm.trans (same ▸ indexOf?_closer closed')
    obtain ⟨-, rest⟩ := List.append_inj same (Option.some.inj index)
    cases rest
    exact more

/-- A text is read in one way only. -/
theorem of_append (front : Spaced (v ++ rest) p u q) (whole : Spaced rest p (u ++ v) r) :
    Spaced rest q v r := by
  induction front with
  | nil => exact whole
  | keep code more ih => exact ih (whole.of_keep (by rwa [List.append_assoc]))
  | comment closed more ih =>
    rw [List.cons_append, List.cons_append, List.append_assoc] at whole
    exact ih (whole.of_comment closed)

theorem stripComments_append (h : Spaced rest p u q) :
    stripComments keep (u ++ rest) = stripComments keep u ++ stripComments keep rest := by
  induction h with
  | nil => rw [stripComments_nil, List.nil_append, List.nil_append]
  | keep code more ih =>
    rw [List.cons_append, stripComments_cons keep code, ih,
      stripComments_cons keep (opensComment_append code), List.cons_append]
  | comment closed more ih =>
    rw [List.cons_append, List.cons_append, List.append_assoc, List.cons_append, List.cons_append,
      stripComments_comment keep closed, ih, stripComments_comment keep closed, List.append_assoc]

/-- Where no comment may stand, taking comments out leaves the first character. -/
theorem head?_stripComments (keep : Bool) (h : Spaced [] p s q) (bound : p ≠ .code true) :
    (stripComments keep s).head? = s.head? := by
  cases h with
  | nil => rw [stripComments_nil]
  | keep code =>
    rw [stripComments_cons keep (opensComment_append code), List.head?_cons, List.head?_cons]
  | comment => exact absurd rfl bound

theorem opensComment_stripComments (keep : Bool) (h : Spaced [] (p.after c) s q)
    (code : opensComment c s.head? = false) :
    opensComment c (stripComments keep s).head? = false := by
  by_cases slash : c = '/'
  · subst slash
    rwa [h.head?_stripComments keep (p.after_of_solid (by decide))]
  · simp [opensComment, slash]

end Spaced

/-- The comments of a text that is cut out stand apart. -/
def Tidy (s : List Char) : Prop :=
  ∃ q, Spaced [] (.code true) s q

theorem Spaced.tidy {free : Bool} {rest : List Char} (h : Spaced rest (.code free) s q) :
    Tidy s := by
  cases h.alone with
  | nil => exact ⟨_, .nil⟩
  | keep code more => exact ⟨q, .keep code more⟩
  | comment closed more => exact ⟨q, .comment closed more⟩

/-- Where no comment may start it does not matter whether one may. -/
theorem Spaced.of_solid (free : Bool) {free' : Bool} {rest : List Char}
    (h : Spaced rest (.code true) u (.code free')) (solid : Spaced [] (.code false) (u ++ v) q) :
    ∃ free', Spaced rest (.code free) u (.code free') := by
  cases h with
  | nil => exact ⟨free, .nil⟩
  | keep code more => exact ⟨free', .keep code more⟩
  | @comment _ inner s closed more =>
    generalize whole : '/' :: '*' :: (inner ++ '*' :: '/' :: s) ++ v = w at solid
    cases solid with
    | nil => cases whole
    | keep code =>
      cases whole
      simp [opensComment] at code

theorem mem_of_mem_stripComments {c : Char} (h : Spaced [] p s q)
    (mem : c ∈ stripComments true s) : c ∈ s := by
  induction h with
  | nil =>
    rw [stripComments_nil] at mem
    cases mem
  | keep code more ih =>
    rw [List.append_nil] at code
    rw [stripComments_cons true code] at mem
    obtain rfl | later := List.mem_cons.1 mem
    · exact List.mem_cons_self
    · exact List.mem_cons_of_mem _ (ih later)
  | @comment _ inner s closed more ih =>
    rw [stripComments_comment true closed, if_pos rfl] at mem
    obtain within | later := List.mem_append.1 mem
    · simp [List.mem_of_mem_filter within]
    · simp [ih later]

/-- Of a comment its line ends are left. -/
theorem stripComments_comment_append {inner : List Char} (closed : ¬ ['*', '/'] <:+: inner)
    (s : List Char) :
    stripComments true ('/' :: '*' :: (inner ++ ['*', '/']) ++ s) =
      inner.filter (· == '\n') ++ stripComments true s := by
  rw [← comment_append inner s, stripComments_comment true closed, if_pos rfl]

/-! ## Ways through a text -/

/-- The text at position `pos` leads to position `m` of code, where `rest` stands. Without its
comments it leads from `pos'` to `m'`. -/
def Leads (rest : List Char) (pos pos' : Nat) (p : Place) (s : List Char) (m m' : Nat) : Prop :=
  ∃ front free, s = front ++ rest ∧ Spaced rest p front (.code free) ∧
    m = pos + front.length ∧ m' = pos' + (stripComments true front).length

namespace Leads

variable {pos pos' m m' : Nat}

theorem refl (rest : List Char) (pos pos' : Nat) (free : Bool) :
    Leads rest pos pos' (.code free) rest pos pos' := by
  refine ⟨[], free, rfl, .nil, rfl, ?_⟩
  rw [stripComments_nil]
  rfl

theorem cons (code : opensComment c s.head? = false)
    (h : Leads rest (pos + 1) (pos' + 1) (p.after c) s m m') :
    Leads rest pos pos' p (c :: s) m m' := by
  obtain ⟨front, free, rfl, spaced, rfl, rfl⟩ := h
  refine ⟨c :: front, free, rfl, .keep code spaced, (add_length_cons ..).symm, ?_⟩
  rw [stripComments_cons true (opensComment_append code), add_length_cons]

theorem comment {inner : List Char} (closed : ¬ ['*', '/'] <:+: inner)
    (h : Leads rest (pos + ('/' :: '*' :: (inner ++ ['*', '/'])).length)
      (pos' + (inner.filter (· == '\n')).length) (.code false) s m m') :
    Leads rest pos pos' (.code true) ('/' :: '*' :: (inner ++ ['*', '/']) ++ s) m m' := by
  obtain ⟨front, free, rfl, spaced, rfl, rfl⟩ := h
  refine ⟨'/' :: '*' :: (inner ++ ['*', '/']) ++ front, free, by simp, ?_, ?_, ?_⟩
  · rw [← comment_append inner front]
    exact .comment closed spaced
  · rw [add_length_append]
  · rw [stripComments_comment_append closed, add_length_append]

end Leads

/-! ## Searches -/

section

variable {σ : Scan} {brackets : Int} {depth stop pos : Nat} {next next' : Option Char}

theorem Scan.sees_eq (code : opensComment c next = false) (code' : opensComment c next' = false) :
    σ.sees c next = σ.sees c next' := by
  rw [Scan.sees, Scan.sees, code, code']

theorem Scan.step_eq (here : σ.region = p.region) (code : opensComment c next = false)
    (code' : opensComment c next' = false) : σ.step c next = σ.step c next' := by
  obtain ⟨region, brackets, depth⟩ := σ
  obtain rfl : region = p.region := here
  cases p with
  | code free => simp only [Scan.step, Place.region, code, code']
  | quoted quote escaped => rfl

theorem Scan.region_step (here : σ.region = p.region) (code : opensComment c next = false) :
    (σ.step c next).region = (p.after c).region := by
  obtain ⟨region, brackets, depth⟩ := σ
  obtain rfl : region = p.region := here
  cases p with
  | code free =>
    simp only [Scan.step, Place.region, Place.after, code, Bool.false_eq_true, if_false]
    split_ifs <;> rfl
  | quoted quote escaped =>
    simp only [Scan.step, Place.region, Place.after]
    split_ifs <;> rfl

theorem seek_cons_eq (t : Char) (σ : Scan) (pos : Nat) (c : Char) (s rest : List Char) :
    seek t (pos + (c :: s).length) σ pos (c :: s ++ rest) =
      if c == t && σ.depth == 0 && σ.sees c (s ++ rest).head? then some pos
      else seek t (pos + 1 + s.length) (σ.step c (s ++ rest).head?) (pos + 1) (s ++ rest) := by
  rw [List.cons_append, seek, if_neg (by simp), add_length_cons]

theorem seek_newlines (brace : t = '}' ∨ t = '{') (h : ∀ c ∈ u, c = '\n') :
    seek t stop ⟨.code, brackets, depth⟩ pos (u ++ s) =
      seek t stop ⟨.code, brackets, depth⟩ (pos + u.length) s := by
  induction u generalizing pos with
  | nil => rfl
  | cons c u ih =>
    obtain ⟨rfl, more⟩ := List.forall_mem_cons.1 h
    have other : ('\n' == t) = false := by
      obtain rfl | rfl := brace
      · rfl
      · rfl
    have stays : (Scan.mk .code brackets depth).step '\n' (u ++ s).head? =
        ⟨.code, brackets, depth⟩ := by
      simp [Scan.step, opensComment]
    rw [List.cons_append, add_length_cons, seek_next (by simp [other]), stays]
    exact ih more

end

/-- Two searches find nothing, or the text leads both of them to the same character. -/
def Meets (t : Char) (pos pos' : Nat) (p : Place) (s : List Char) (found found' : Option Nat) :
    Prop :=
  found = none ∧ found' = none ∨
    ∃ behind m m', found = some m ∧ found' = some m' ∧ Leads (t :: behind) pos pos' p s m m'

theorem Meets.imp {pos pos' n n' : Nat} {found found' : Option Nat}
    (h : Meets t pos pos' p u found found')
    (further : ∀ rest m m', Leads rest pos pos' p u m m' → Leads rest n n' q v m m') :
    Meets t n n' q v found found' :=
  h.imp_right fun ⟨behind, m, m', found, found', leads⟩ =>
    ⟨behind, m, m', found, found', further _ _ _ leads⟩

/-- A search comes to the same character with the comments and without them, or to none. -/
theorem seek_stripComments (brace : t = '}' ∨ t = '{') (hx : Spaced y p x q)
    (hy : Spaced [] q y r) {σ : Scan} (here : σ.region = p.region) (pos pos' : Nat) :
    Meets t pos pos' p (x ++ y) (seek t (pos + x.length) σ pos (x ++ y))
      (seek t (pos' + (stripComments true x).length) σ pos'
        (stripComments true x ++ stripComments true y)) := by
  induction hx generalizing σ pos pos' with
  | nil =>
    left
    rw [stripComments_nil]
    exact ⟨seek_of_le le_rfl, seek_of_le le_rfl⟩
  | @keep p q c s code more ih =>
    have code' : opensComment c (stripComments true s ++ stripComments true y).head? = false := by
      rw [← more.stripComments_append]
      exact Spaced.opensComment_stripComments true (.append (by rwa [List.append_nil]) hy) code
    rw [stripComments_cons true (opensComment_append code), seek_cons_eq, seek_cons_eq,
      Scan.sees_eq code' code, Scan.step_eq here code' code]
    split
    next hit =>
      right
      obtain ⟨⟨rfl, -⟩, sees⟩ : (c = t ∧ σ.depth = 0) ∧ σ.sees c (s ++ y).head? = true := by
        simpa using hit
      cases p with
      | code free => exact ⟨s ++ y, pos, pos', rfl, rfl, .refl _ pos pos' free⟩
      | quoted quote escaped => simp [Scan.sees, here, Place.region] at sees
    next =>
      exact (ih hy (Scan.region_step here code) (pos + 1) (pos' + 1)).imp fun _ _ _ => .cons code
  | @comment q inner s closed more ih =>
    obtain ⟨region, brackets, depth⟩ := σ
    obtain rfl : region = .code := here
    have newlines : ∀ c ∈ inner.filter (· == '\n'), c = '\n' :=
      fun c mem => eq_of_beq (List.mem_filter.1 mem).2
    rw [comment_append inner s, stripComments_comment_append closed, add_length_append,
      add_length_append, List.append_assoc, List.append_assoc,
      seek_whole_comment closed, seek_newlines brace newlines]
    exact (ih hy rfl _ _).imp fun _ _ _ => .comment closed

/-! ## Gaps -/

/-- The white space and the comments at the start of a text are passed over, and so is what the
comments leave. -/
theorem gapEnd_stripComments {free : Bool} (h : Spaced [] (.code free) s q) (pos pos' : Nat) :
    ∃ rest, (∃ q', Spaced [] (.code false) rest q') ∧
      Leads rest pos pos' (.code free) s (gapEnd (pos + s.length) pos s)
        (gapEnd (pos' + (stripComments true s).length) pos' (stripComments true s)) := by
  generalize here : Place.code free = p at h
  induction h generalizing free pos pos' with
  | nil =>
    rw [stripComments_nil, gapEnd, if_pos (by simp), gapEnd, if_pos (by simp)]
    exact ⟨[], ⟨_, .nil⟩, here ▸ .refl [] pos pos' free⟩
  | @keep p q c s code more ih =>
    subst here
    rw [List.append_nil] at code
    have code' := Spaced.opensComment_stripComments true more code
    rw [stripComments_cons true code, add_length_cons, add_length_cons,
      gapEnd_cons (by omega) code, gapEnd_cons (by omega) code']
    split
    next blank =>
      have step : (Place.code free).after c = .code true := Place.after_of_blank free blank
      obtain ⟨rest, solid, leads⟩ := ih (pos + 1) (pos' + 1) step.symm
      exact ⟨rest, solid, .cons code (step ▸ leads)⟩
    next solid =>
      have rest : Spaced [] (.code false) (c :: s) q := .keep (by rwa [List.append_nil]) more
      exact ⟨c :: s, ⟨q, rest⟩, .refl _ pos pos' free⟩
  | @comment q inner s closed more ih =>
    have blank : AllBlank (inner.filter (· == '\n')) := by
      intro c hc
      rw [eq_of_beq (List.mem_filter.1 hc).2]
      exact isBlank_newline
    obtain ⟨rest, solid, leads⟩ :=
      ih (pos + ('/' :: '*' :: (inner ++ ['*', '/'])).length)
        (pos' + (inner.filter (· == '\n')).length) rfl
    rw [comment_append inner s, stripComments_comment_append closed, add_length_append,
      add_length_append, Passed.of_closed closed (by omega), Passed.of_blank blank (by omega)]
    exact ⟨rest, solid, here ▸ .comment closed leads⟩

/-! ## Imports -/

theorem after?_cons {w : List Char} {d : Char} :
    after? (d :: w) (c :: s) = if d = c then after? w s else none := by
  by_cases same : d = c
  · subst same
    simp [after?]
  · simp [after?, same, List.isPrefixOf]

/-- A word at the start of a text is there without the comments, too. -/
theorem after?_stripComments (keep : Bool) {w : List Char} (solid : ∀ c ∈ w, isBlank c = false)
    (h : Spaced [] p s q) (bound : p ≠ .code true) :
    after? w s = none ∧ after? w (stripComments keep s) = none ∨
      ∃ rest p', after? w s = some rest ∧
        after? w (stripComments keep s) = some (stripComments keep rest) ∧
        Spaced [] p' rest q ∧ p' ≠ .code true := by
  induction w generalizing p s with
  | nil => exact .inr ⟨s, p, rfl, rfl, h, bound⟩
  | cons d w ih =>
    obtain ⟨first, more⟩ := List.forall_mem_cons.1 solid
    cases h with
    | nil => simp [stripComments_nil, after?]
    | @keep _ _ c s code rest =>
      rw [stripComments_cons keep (opensComment_append code), after?_cons, after?_cons]
      split
      next same =>
        subst same
        exact ih more rest (p.after_of_solid first)
      next => exact .inl ⟨rfl, rfl⟩
    | comment => exact absurd rfl bound

theorem startsImport_stripComments (keep : Bool) (h : Spaced [] (.code false) s q) :
    startsImport (stripComments keep s) = startsImport s := by
  obtain ⟨none, none'⟩ | ⟨rest, p', found, found', spaced, bound⟩ :=
    after?_stripComments keep (w := ['@', 'i', 'm', 'p', 'o', 'r', 't']) (by decide) h (by simp)
  · rw [startsImport, startsImport, none, none']
  · rw [startsImport, startsImport, found, found']
    simp only [spaced.head?_stripComments keep bound]

end NestedStyles.Block
