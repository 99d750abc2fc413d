import NestedStyles.Proofs.Block.Commented

/-!
# A text as strings, comments, brackets and other characters

A text is cut into spans: quoted strings, in which a backslash escapes exactly the next character,
closed comments, single square brackets and other single characters (`Legible`). What stands
outside of strings, comments and pairs of brackets is visible (`visible`).

A search for a brace reads a text in this way, span by span (`seek_span`, `seek_spans_iff`), as long
as no string of it ends behind a backslash: the scan looks at one character in front of a quote only.
-/

namespace NestedStyles.Block

open Text

/-! ## Spans -/

/-- A part of a text that is read as a whole. -/
inductive Span
  | plain (c : Char)
  /-- A square bracket that is opened. -/
  | opener
  /-- A square bracket that is closed. -/
  | closer
  | quoted (quote : Char) (inner : List Char)
  | comment (inner : List Char)
  /-- A string that the text ends in. -/
  | unended (quote : Char) (inner : List Char)
  deriving DecidableEq, Repr

namespace Span

/-- The span as written. -/
def chars : Span → List Char
  | plain c => [c]
  | opener => ['[']
  | closer => [']']
  | quoted quote inner => quote :: (inner ++ [quote])
  | comment inner => '/' :: '*' :: (inner ++ ['*', '/'])
  | unended quote inner => quote :: inner

/-- The span is no string that ends right behind a backslash. -/
def EndsPlainly : Span → Prop
  | quoted _ inner => inner.getLast? ≠ some '\\'
  | _ => True

theorem chars_ne_nil (p : Span) : p.chars ≠ [] := by
  cases p <;> simp [chars]

instance : DecidablePred EndsPlainly
  | quoted _ inner => inferInstanceAs (Decidable (inner.getLast? ≠ some '\\'))
  | plain _ | opener | closer | comment _ | unended _ _ => inferInstanceAs (Decidable True)

end Span

/-- The text that consists of these spans. -/
def written (ps : List Span) : List Char :=
  ps.flatMap Span.chars

/-- The inside of a string in these quotes: a backslash escapes exactly the next character, and no
quote stands there unescaped. -/
inductive Escaped (quote : Char) : List Char → Prop
  | nil : Escaped quote []
  | char {c : Char} {s : List Char} (other : c ≠ quote) (noEscape : c ≠ '\\')
      (more : Escaped quote s) : Escaped quote (c :: s)
  | escape {c : Char} {s : List Char} (more : Escaped quote s) : Escaped quote ('\\' :: c :: s)

/-- The spans are what is to be read in their text, where `rest` follows it. -/
inductive Legible (rest : List Char) : List Span → Prop
  | nil : Legible rest []
  | plain {c : Char} {ps : List Span} (single : Scan.isDelimiter c = false)
      (code : opensComment c (written ps ++ rest).head? = false) (more : Legible rest ps) :
      Legible rest (.plain c :: ps)
  | opener {ps : List Span} (more : Legible rest ps) : Legible rest (.opener :: ps)
  | closer {ps : List Span} (more : Legible rest ps) : Legible rest (.closer :: ps)
  | quoted {quote : Char} {inner : List Char} {ps : List Span} (kind : isQuote quote = true)
      (escaped : Escaped quote inner) (more : Legible rest ps) :
      Legible rest (.quoted quote inner :: ps)
  | comment {inner : List Char} {ps : List Span} (closed : ¬ ['*', '/'] <:+: inner)
      (more : Legible rest ps) : Legible rest (.comment inner :: ps)
  | unended {quote : Char} {inner : List Char} {ps : List Span} (kind : isQuote quote = true)
      (escaped : Escaped quote inner ∨ ∃ s, inner = s ++ ['\\'] ∧ Escaped quote s)
      (last : written ps ++ rest = []) (more : Legible rest ps) :
      Legible rest (.unended quote inner :: ps)

/-- The square brackets that are open behind the spans, with `k` open in front, if none is closed
that was not opened. -/
def bracketsBehind? (k : Nat) : List Span → Option Nat
  | [] => some k
  | .opener :: ps => bracketsBehind? (k + 1) ps
  | .closer :: ps => if k = 0 then none else bracketsBehind? (k - 1) ps
  | .plain _ :: ps | .quoted _ _ :: ps | .comment _ :: ps | .unended _ _ :: ps =>
    bracketsBehind? k ps

/-- The characters outside of strings, comments and pairs of brackets, with `k` brackets open in
front. -/
def visible (k : Nat) : List Span → List Char
  | [] => []
  | .plain c :: ps => if k = 0 then c :: visible k ps else visible k ps
  | .opener :: ps => visible (k + 1) ps
  | .closer :: ps => visible (k - 1) ps
  | .quoted _ _ :: ps | .comment _ :: ps | .unended _ _ :: ps => visible k ps

/-- The blocks that are open behind these characters, with `depth` open in front, if a search for
`t` outside of all blocks finds none. -/
def passes? (t : Char) : Nat → List Char → Option Nat
  | depth, [] => some depth
  | depth, c :: s =>
    if c = t ∧ depth = 0 then none
    else passes? t (if c = '{' then depth + 1 else if c = '}' then depth - 1 else depth) s

variable {rest s u v : List Char} {ps qs : List Span} {p : Span} {c t quote : Char}
  {k k' d d' i pos stop : Nat}

@[simp] theorem written_nil : written [] = [] := rfl

@[simp] theorem written_cons (p : Span) (ps : List Span) :
    written (p :: ps) = p.chars ++ written ps := rfl

@[simp] theorem written_append (ps qs : List Span) :
    written (ps ++ qs) = written ps ++ written qs :=
  List.flatMap_append

theorem bracketsBehind?_append (k : Nat) (ps qs : List Span) :
    bracketsBehind? k (ps ++ qs) = (bracketsBehind? k ps).bind (bracketsBehind? · qs) := by
  induction ps generalizing k with
  | nil => rfl
  | cons p ps ih =>
    cases p with
    | plain | opener | quoted | comment | unended => exact ih _
    | closer =>
      rw [List.cons_append, bracketsBehind?, bracketsBehind?, ih]
      split <;> rfl

theorem visible_append (behind : bracketsBehind? k ps = some k') :
    visible k (ps ++ qs) = visible k ps ++ visible k' qs := by
  induction ps generalizing k with
  | nil =>
    obtain rfl : k = k' := Option.some.inj behind
    rfl
  | cons p ps ih =>
    cases p with
    | opener | quoted | comment | unended => exact ih behind
    | plain c =>
      rw [List.cons_append, visible, visible, ih behind]
      split <;> rfl
    | closer =>
      rw [bracketsBehind?] at behind
      split at behind
      · cases behind
      · exact ih behind

theorem passes?_append (t : Char) (d : Nat) (u v : List Char) :
    passes? t d (u ++ v) = (passes? t d u).bind (passes? t · v) := by
  induction u generalizing d with
  | nil => rfl
  | cons c u ih =>
    rw [List.cons_append, passes?, passes?, ih]
    split <;> rfl

theorem legible_append :
    Legible rest (ps ++ qs) ↔
      Legible (written qs ++ rest) ps ∧ Legible rest qs := by
  constructor
  · intro h
    induction ps with
    | nil => exact ⟨.nil, h⟩
    | cons p ps ih =>
      cases h with
      | plain single code more =>
        obtain ⟨front, back⟩ := ih more
        exact ⟨.plain single (by simpa using code) front, back⟩
      | opener more => exact (ih more).imp_left .opener
      | closer more => exact (ih more).imp_left .closer
      | quoted kind escaped more => exact (ih more).imp_left (.quoted kind escaped)
      | comment closed more => exact (ih more).imp_left (.comment closed)
      | unended kind escaped last more =>
        exact (ih more).imp_left (.unended kind escaped (by simpa using last))
  · rintro ⟨front, back⟩
    induction front with
    | nil => exact back
    | plain single code _ ih => exact .plain single (by simpa using code) ih
    | opener _ ih => exact .opener ih
    | closer _ ih => exact .closer ih
    | quoted kind escaped _ ih => exact .quoted kind escaped ih
    | comment closed _ ih => exact .comment closed ih
    | unended kind escaped last _ ih => exact .unended kind escaped (by simpa using last) ih

theorem endsPlainly_of_noBackslash (none : '\\' ∉ written ps) (mem : p ∈ ps) : p.EndsPlainly := by
  cases p with
  | quoted quote inner =>
    intro last
    refine none (List.mem_flatMap.2 ⟨_, mem, ?_⟩)
    simp [Span.chars, List.mem_of_getLast? last]
  | plain | opener | closer | comment | unended => trivial

/-- Behind a quote its string ends, or the text ends in the string. -/
theorem exists_escaped (quote : Char) : ∀ s : List Char,
    (∃ inner rest, s = inner ++ quote :: rest ∧ Escaped quote inner) ∨
      Escaped quote s ∨ ∃ u, s = u ++ ['\\'] ∧ Escaped quote u
  | [] => .inr (.inl .nil)
  | [c] => by
    by_cases escapes : c = '\\'
    · exact .inr (.inr ⟨[], by rw [escapes, List.nil_append], .nil⟩)
    by_cases ends : c = quote
    · exact .inl ⟨[], [], by rw [ends, List.nil_append], .nil⟩
    · exact .inr (.inl (.char ends escapes .nil))
  | c :: d :: s => by
    by_cases escapes : c = '\\'
    · subst escapes
      obtain ⟨inner, rest, rfl, more⟩ | more | ⟨u, rfl, more⟩ := exists_escaped quote s
      · exact .inl ⟨'\\' :: d :: inner, rest, rfl, .escape more⟩
      · exact .inr (.inl (.escape more))
      · exact .inr (.inr ⟨'\\' :: d :: u, rfl, .escape more⟩)
    by_cases ends : c = quote
    · exact .inl ⟨[], d :: s, by rw [ends, List.nil_append], .nil⟩
    obtain ⟨inner, rest, whole, more⟩ | more | ⟨u, whole, more⟩ := exists_escaped quote (d :: s)
    · exact .inl ⟨c :: inner, rest, by rw [whole, List.cons_append], .char ends escapes more⟩
    · exact .inr (.inl (.char ends escapes more))
    · exact .inr (.inr ⟨c :: u, by rw [whole, List.cons_append], .char ends escapes more⟩)

/-- Every text consists of spans, up to a comment that is never closed. -/
theorem exists_legible (s : List Char) :
    ∃ ps rest, s = written ps ++ rest ∧ Legible rest ps ∧
      (rest = [] ∨ ∃ inner, rest = '/' :: '*' :: inner ∧ splitComment rest = none) := by
  induction n : s.length using Nat.strong_induction_on generalizing s with
  | _ n ih =>
    subst n
    cases s with
    | nil => exact ⟨[], [], rfl, .nil, .inl rfl⟩
    | cons c s =>
      have step (p : Span) (t : List Char) (whole : c :: s = p.chars ++ t)
          (legible : ∀ ps rest, t = written ps ++ rest → Legible rest ps → Legible rest (p :: ps)) :
          ∃ ps rest, c :: s = written ps ++ rest ∧ Legible rest ps ∧
            (rest = [] ∨ ∃ inner, rest = '/' :: '*' :: inner ∧ splitComment rest = none) := by
        have shorter : t.length < (c :: s).length := by
          have nonempty := List.length_pos_iff.2 p.chars_ne_nil
          rw [whole, List.length_append]
          omega
        obtain ⟨ps, rest, rfl, more, ends⟩ := ih _ shorter t rfl
        refine ⟨p :: ps, rest, ?_, legible ps rest rfl more, ends⟩
        rw [whole, written_cons, List.append_assoc]
      cases found : splitComment (c :: s) with
      | some cut =>
        obtain ⟨comment, behind⟩ := cut
        obtain ⟨inner, whole, closed⟩ := eq_of_splitComment found
        exact step (.comment inner) behind (by simp [whole, Span.chars]) fun _ _ _ => .comment closed
      | none =>
        by_cases opens : opensComment c s.head?
        · obtain ⟨rfl, star⟩ : c = '/' ∧ s.head? = some '*' := by simpa [opensComment] using opens
          obtain ⟨inner, rfl⟩ := List.head?_eq_some_iff.1 star
          exact ⟨[], _, rfl, .nil, .inr ⟨inner, rfl, found⟩⟩
        by_cases opener : c = '['
        · exact step .opener s (by rw [opener]; rfl) fun _ _ _ => .opener
        by_cases closer : c = ']'
        · exact step .closer s (by rw [closer]; rfl) fun _ _ _ => .closer
        by_cases kind : isQuote c
        · obtain ⟨inner, rest, rfl, escaped⟩ | escaped := exists_escaped c s
          · exact step (.quoted c inner) rest (by simp [Span.chars]) fun _ _ _ =>
              .quoted kind escaped
          · refine step (.unended c s) [] (by simp [Span.chars]) fun ps rest ended =>
              .unended kind escaped ended.symm
        · have single : Scan.isDelimiter c = false := by
            simp_all [Scan.isDelimiter, isQuote]
          refine step (.plain c) s rfl fun ps rest whole => .plain single ?_
          rw [← whole]
          exact eq_false_of_ne_true opens

theorem passes?_braceless {w : List Char} (brace : t = '}' ∨ t = '{')
    (h : ∀ c ∈ w, c ≠ '{' ∧ c ≠ '}') (d : Nat) : passes? t d w = some d := by
  induction w with
  | nil => rfl
  | cons c w ih =>
    obtain ⟨own, more⟩ := List.forall_mem_cons.1 h
    have other : c ≠ t := by
      obtain rfl | rfl := brace
      · exact own.2
      · exact own.1
    simp [passes?, other, own.1, own.2, ih more]

/-! ## Searches -/

/-- Inside of a string a search remembers the last character only. -/
theorem seek_escaped (kind : isQuote quote = true) (h : Escaped quote s) (escaped : Bool) :
    seek t stop ⟨.quoted quote escaped, k, d⟩ pos (s ++ rest) =
      seek t stop ⟨.quoted quote (s.getLast?.elim escaped (· == '\\')), k, d⟩
        (pos + s.length) rest := by
  induction h generalizing pos escaped with
  | nil => rfl
  | @char c s other noEscape _ ih =>
    have last : (c :: s).getLast?.elim escaped (· == '\\') =
        s.getLast?.elim (c == '\\') (· == '\\') := by
      rw [List.getLast?_cons]
      cases s.getLast? <;> rfl
    rw [last, List.cons_append, seek_next (by simp [Scan.sees])]
    simp only [Scan.step, beq_false_of_ne other, Bool.false_and, Bool.false_eq_true, if_false]
    rw [ih, add_length_cons]
  | @escape c s _ ih =>
    have last : ('\\' :: c :: s).getLast?.elim escaped (· == '\\') =
        s.getLast?.elim (c == '\\') (· == '\\') := by
      rw [List.getLast?_cons, List.getLast?_cons]
      cases s.getLast? <;> rfl
    have backslash : ('\\' == quote) = false :=
      beq_false_of_ne (ne_of_holds kind (by decide)).symm
    have first : ∀ next, (Scan.mk (.quoted quote escaped) k d).step '\\' next =
        ⟨.quoted quote true, k, d⟩ := by
      simp [Scan.step, backslash]
    have second : ∀ next, (Scan.mk (.quoted quote true) k d).step c next =
        ⟨.quoted quote (c == '\\'), k, d⟩ := by
      simp [Scan.step]
    rw [last, List.cons_append, List.cons_append, seek_next (by simp [Scan.sees]), first,
      seek_next (by simp [Scan.sees]), second, ih, add_length_cons, add_length_cons]

theorem seek_quoted (kind : isQuote quote = true) (brace : t = '}' ∨ t = '{')
    (h : Escaped quote s) :
    seek t stop ⟨.code, k, d⟩ pos (quote :: (s ++ quote :: rest)) =
      if s.getLast? = some '\\' then
        seek t stop ⟨.quoted quote false, k, d⟩ (pos + 1 + s.length + 1) rest
      else seek t stop ⟨.code, k, d⟩ (pos + 1 + s.length + 1) rest := by
  have noEscape : (quote == '\\') = false := beq_false_of_ne (ne_of_holds kind (by decide))
  rw [seek_quote kind brace, seek_escaped kind h, seek_next (by simp [Scan.sees])]
  split
  next last => simp [Scan.step, last, noEscape]
  next other =>
    have plain : s.getLast?.elim false (· == '\\') = false := by
      cases last : s.getLast? with
      | none => rfl
      | some c => simpa [last] using other
    simp [Scan.step, plain]

/-- A string that the text ends in hides all that follows. -/
theorem seek_unended (kind : isQuote quote = true) (brace : t = '}' ∨ t = '{')
    (h : Escaped quote s ∨ ∃ u, s = u ++ ['\\'] ∧ Escaped quote u) :
    seek t stop ⟨.code, k, d⟩ pos (quote :: s) = none := by
  rw [seek_quote kind brace]
  obtain escaped | ⟨u, rfl, escaped⟩ := h
  · rw [← List.append_nil s, seek_escaped kind escaped]
    rfl
  · rw [seek_escaped kind escaped, seek_next (by simp [Scan.sees])]
    rfl

theorem Legible.tail (h : Legible rest (p :: ps)) : Legible rest ps := by
  cases h with
  | plain _ _ more | unended _ _ _ more => exact more
  | opener more | closer more | quoted _ _ more | comment _ more => exact more

/-- Behind the span a search for `t` goes on with `k'` brackets and `d'` blocks open where `k` and `d`
are open in front, and so does the count of them. -/
structure Proceeding (t : Char) (k d : Nat) (p : Span) (rest : List Char) (k' d' : Nat) : Prop where
  search (stop pos : Nat) : seek t stop ⟨.code, k, d⟩ pos (p.chars ++ rest) =
    seek t stop ⟨.code, k', d'⟩ (pos + p.chars.length) rest
  brackets (ps : List Span) : bracketsBehind? k (p :: ps) = bracketsBehind? k' ps
  passes (ps : List Span) : passes? t d (visible k (p :: ps)) = passes? t d' (visible k' ps)

/-- A search for a brace ends at a span if this is what it looks for, and goes on behind any other. -/
theorem seek_span (brace : t = '}' ∨ t = '{') (h : Legible rest (p :: ps)) (plain : p.EndsPlainly)
    (nested : (bracketsBehind? k (p :: ps)).isSome) :
    (p = .plain t ∧ k = 0 ∧ d = 0) ∨ ∃ k' d', Proceeding t k d p (written ps ++ rest) k' d' := by
  cases h with
  | @plain c _ single code _ =>
    by_cases ground : k = 0
    · subst ground
      by_cases here : c = t ∧ d = 0
      · obtain ⟨rfl, rfl⟩ := here
        exact .inl ⟨rfl, rfl, rfl⟩
      · refine .inr ⟨0, _, fun stop pos => (seek_visible single code).trans (if_neg here),
          fun _ => rfl, fun ps => ?_⟩
        rw [visible, if_pos rfl, passes?, if_neg here]
    · refine .inr ⟨k, d, fun stop pos => seek_hidden single code ground, fun _ => rfl, fun ps => ?_⟩
      rw [visible, if_neg ground]
  | opener =>
    exact .inr ⟨k + 1, d, fun stop pos => seek_bracket_opener brace, fun _ => rfl, fun _ => rfl⟩
  | closer =>
    have within : k ≠ 0 := by
      rintro rfl
      cases nested
    refine .inr ⟨k - 1, d, fun stop pos => seek_bracket_closer brace within, fun ps => ?_,
      fun _ => rfl⟩
    rw [bracketsBehind?, if_neg within]
  | @quoted quote inner _ kind escaped =>
    refine .inr ⟨k, d, fun stop pos => ?_, fun _ => rfl, fun _ => rfl⟩
    have text : (Span.quoted quote inner).chars ++ (written ps ++ rest) =
        quote :: (inner ++ quote :: (written ps ++ rest)) := by
      simp [Span.chars]
    have length : pos + (Span.quoted quote inner).chars.length = pos + 1 + inner.length + 1 := by
      simp only [Span.chars, List.length_append, List.length_cons, List.length_nil]
      omega
    rw [text, length, seek_quoted kind brace escaped, if_neg plain]
  | comment closed =>
    exact .inr ⟨k, d, fun stop pos => seek_whole_comment closed, fun _ => rfl, fun _ => rfl⟩
  | unended kind escaped last =>
    refine .inr ⟨k, d, fun stop pos => ?_, fun _ => rfl, fun _ => rfl⟩
    rw [last, List.append_nil, Span.chars, seek_unended kind brace escaped]
    rfl

/-- A search goes on behind spans in which it finds nothing. -/
theorem seek_spans (brace : t = '}' ∨ t = '{') (h : Legible rest ps)
    (plain : ∀ p ∈ ps, p.EndsPlainly) (brackets : bracketsBehind? k ps = some k')
    (passes : passes? t d (visible k ps) = some d') :
    seek t stop ⟨.code, k, d⟩ pos (written ps ++ rest) =
      seek t stop ⟨.code, k', d'⟩ (pos + (written ps).length) rest := by
  induction ps generalizing k d pos with
  | nil =>
    obtain rfl : k = k' := Option.some.inj brackets
    obtain rfl : d = d' := Option.some.inj passes
    rfl
  | cons p ps ih =>
    obtain ⟨own, more⟩ := List.forall_mem_cons.1 plain
    have nested : (bracketsBehind? k (p :: ps)).isSome := by
      rw [brackets]
      rfl
    obtain ⟨rfl, rfl, rfl⟩ | ⟨k₁, d₁, step⟩ := seek_span (d := d) brace h own nested
    · simp [visible, passes?] at passes
    · rw [written_cons, List.append_assoc, add_length_append, step.search]
      exact ih h.tail more ((step.brackets ps).symm.trans brackets)
        ((step.passes ps).symm.trans passes)

/-- What follows a text changes its reading only if it makes up a delimiter with the text's last
character, or if the text ends in a string. -/
theorem Legible.of_apart (h : Legible [] ps) (ended : ∀ quote inner, .unended quote inner ∉ ps)
    (apart : Apart (written ps) rest) : Legible rest ps := by
  induction h with
  | nil => exact .nil
  | @plain c ps single code _ ih =>
    have more := fun quote inner => List.not_mem_of_not_mem_cons (ended quote inner)
    refine .plain single ?_ (ih more apart.tail)
    rw [List.append_nil] at code
    cases next : written ps with
    | cons d s => rwa [next] at code
    | nil =>
      rw [written_cons, next, List.append_nil] at apart
      by_cases slash : c = '/'
      · have other : rest.head? ≠ some '*' := apart (by rw [slash]; rfl)
        simpa [opensComment] using fun _ => other
      · simp [opensComment, slash]
  | opener _ ih =>
    exact .opener (ih (fun quote inner => List.not_mem_of_not_mem_cons (ended quote inner))
      (apart.right_of_append))
  | closer _ ih =>
    exact .closer (ih (fun quote inner => List.not_mem_of_not_mem_cons (ended quote inner))
      (apart.right_of_append))
  | quoted kind escaped _ ih =>
    exact .quoted kind escaped (ih (fun q i => List.not_mem_of_not_mem_cons (ended q i))
      (apart.right_of_append))
  | comment closed _ ih =>
    exact .comment closed (ih (fun q i => List.not_mem_of_not_mem_cons (ended q i))
      (apart.right_of_append))
  | @unended quote inner => exact absurd List.mem_cons_self (ended quote inner)

/-- A search passes over spans in which it finds nothing and that leave nothing open. -/
theorem Skips.of_spans (brace : t = '}' ∨ t = '{') (h : Legible [] ps)
    (ended : ∀ quote inner, .unended quote inner ∉ ps) (plain : ∀ p ∈ ps, p.EndsPlainly)
    (brackets : bracketsBehind? 0 ps = some 0) (passes : ∀ d, passes? t d (visible 0 ps) = some d) :
    Skips t (written ps) := by
  intro depth stop pos rest apart _
  exact seek_spans brace (h.of_apart ended apart) plain brackets (passes depth)

/-- The first part of a text behind which a search for `t` finds it, with `k` brackets and `d`
blocks open in front. -/
structure Ahead (t : Char) (k d : Nat) (ps front : List Span) : Prop where
  splits : ∃ back, ps = front ++ .plain t :: back
  brackets : bracketsBehind? k front = some 0
  passes : passes? t d (visible k front) = some 0

namespace Ahead

variable {front : List Span}

theorem nil (t : Char) (ps : List Span) : Ahead t 0 0 (.plain t :: ps) [] :=
  ⟨⟨ps, rfl⟩, rfl, rfl⟩

theorem cons (h : Ahead t k' d' ps front)
    (brackets : bracketsBehind? k (p :: front) = bracketsBehind? k' front)
    (passes : passes? t d (visible k (p :: front)) = passes? t d' (visible k' front)) :
    Ahead t k d (p :: ps) (p :: front) := by
  obtain ⟨⟨back, rfl⟩, brackets', passes'⟩ := h
  exact ⟨⟨back, rfl⟩, brackets.trans brackets', passes.trans passes'⟩

end Ahead

theorem exists_ahead (brace : t = '}' ∨ t = '{') (h : Legible [] ps)
    (plain : ∀ p ∈ ps, p.EndsPlainly) (nested : (bracketsBehind? k ps).isSome)
    (found : seek t stop ⟨.code, k, d⟩ pos (written ps) = some i) :
    i < stop ∧ ∃ front, Ahead t k d ps front ∧ i = pos + (written front).length := by
  induction ps generalizing k d pos with
  | nil => cases found
  | cons p ps ih =>
    obtain ⟨own, more⟩ := List.forall_mem_cons.1 plain
    obtain ⟨rfl, rfl, rfl⟩ | ⟨k₁, d₁, step⟩ := seek_span (d := d) brace h own nested
    · cases h with
      | plain single code =>
        rw [List.append_nil] at code
        replace found := (seek_visible single code).symm.trans found
        rw [if_pos ⟨rfl, rfl⟩] at found
        split at found
        next room =>
          obtain rfl : pos = i := Option.some.inj found
          exact ⟨room, [], .nil t ps, rfl⟩
        next => cases found
    · have further := step.search stop pos
      rw [List.append_nil] at further
      rw [step.brackets] at nested
      obtain ⟨room, front, ahead, rfl⟩ := ih h.tail more nested (further.symm.trans found)
      refine ⟨room, p :: front, ahead.cons (step.brackets front) (step.passes front), ?_⟩
      rw [written_cons, add_length_append]

/-- What a search finds is the first visible character of this kind outside of all blocks. -/
theorem seek_spans_iff (brace : t = '}' ∨ t = '{') (h : Legible [] ps)
    (plain : ∀ p ∈ ps, p.EndsPlainly) (nested : (bracketsBehind? k ps).isSome) :
    seek t stop ⟨.code, k, d⟩ pos (written ps) = some i ↔
      i < stop ∧ ∃ front, Ahead t k d ps front ∧ i = pos + (written front).length := by
  refine ⟨exists_ahead brace h plain nested, ?_⟩
  rintro ⟨room, front, ⟨⟨back, rfl⟩, brackets, passes⟩, rfl⟩
  obtain ⟨legible, behind⟩ := legible_append.1 h
  rw [List.append_nil] at legible
  cases behind with
  | plain single code =>
    rw [List.append_nil] at code
    rw [written_append, seek_spans brace legible
      (fun p mem => plain p (List.mem_append_left _ mem)) brackets passes]
    refine (seek_visible single code).trans ?_
    rw [if_pos ⟨rfl, rfl⟩, if_pos room]

end NestedStyles.Block
