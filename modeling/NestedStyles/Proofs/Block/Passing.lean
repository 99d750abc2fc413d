import Mathlib.Data.List.Basic
import NestedStyles.Block.Directive
import NestedStyles.Block.Scan
import NestedStyles.Proofs.Block.Blanks

/-!
# Texts that are passed over

A text is balanced when all it opens is closed in it (`isBalanced`), and closed when it moreover
shows no brace and has no delimiter of a comment in it (`Closed`). A search for a brace passes over
such a text whatever follows it (`Skips`), and taking comments out leaves it as it is (`Strips`).

Both are stated with the text that follows, since a `/` at the end and a `*` after it would open a
comment. `Apart` excludes just that.
-/

namespace NestedStyles.Block

open Text

/-! ## Balanced texts -/

/-- What a reader of a text is inside of. -/
inductive Inside
  | text
  | quoted (quote : Char)
  | comment
  deriving DecidableEq, Repr

/-- All quotes, brackets and comments are closed, with `brackets` brackets and `depth` braces open
before. Braces outside of these are allowed only with `blocks`, and each one opened is closed. -/
def isBalanced (blocks : Bool) : Inside → Nat → Nat → List Char → Bool
  | .text, brackets, depth, [] => brackets == 0 && depth == 0
  | .quoted _, _, _, [] => false
  | .comment, _, _, [] => false
  | .quoted quote, brackets, depth, c :: s =>
    isBalanced blocks (if c == quote then .text else .quoted quote) brackets depth s
  | .comment, brackets, depth, '*' :: '/' :: s => isBalanced blocks .text brackets depth s
  | .comment, brackets, depth, _ :: s => isBalanced blocks .comment brackets depth s
  | .text, brackets, depth, '/' :: '*' :: s => isBalanced blocks .comment brackets depth s
  | .text, brackets, depth, c :: s =>
    if c == '"' || c == '\'' then isBalanced blocks (.quoted c) brackets depth s
    else if c == '[' then isBalanced blocks .text (brackets + 1) depth s
    else if c == ']' then 0 < brackets && isBalanced blocks .text (brackets - 1) depth s
    else if 0 < brackets then isBalanced blocks .text brackets depth s
    else if c == '{' then blocks && isBalanced blocks .text brackets (depth + 1) s
    else if c == '}' then 0 < depth && isBalanced blocks .text brackets (depth - 1) s
    else isBalanced blocks .text brackets depth s

/-- A piece of a line in which every string and bracket is closed, every brace is inside of one, and
nothing opens or closes a comment. -/
structure Closed (s : List Char) : Prop where
  balanced : isBalanced false .text 0 0 s = true
  noBackslash : '\\' ∉ s
  inline : '\n' ∉ s
  noOpener : ¬ ['/', '*'] <:+: s
  noCloser : ¬ ['*', '/'] <:+: s

/-! ## What follows a text -/

/-- No comment is opened where `rest` follows `s`. -/
def Apart (s rest : List Char) : Prop :=
  s.getLast? = some '/' → rest.head? ≠ some '*'

variable {s rest u v w : List Char} {c t : Char}

theorem Apart.nil (rest : List Char) : Apart [] rest := by
  rintro ⟨⟩

theorem Apart.tail (h : Apart (c :: s) rest) : Apart s rest := by
  cases s with
  | nil => exact .nil rest
  | cons d s =>
    intro last
    apply h
    rwa [List.getLast?_cons_cons]

theorem Apart.of_head (h : rest.head? ≠ some '*') : Apart s rest :=
  fun _ => h

theorem Apart.of_last (h : s.getLast? ≠ some '/') : Apart s rest :=
  fun last => absurd last h

theorem Apart.left_of_append (between : Apart u v) (after : Apart (u ++ v) rest) :
    Apart u (v ++ rest) := by
  cases v with
  | nil => simpa using after
  | cons c v => exact between

theorem Apart.right_of_append (after : Apart (u ++ v) rest) : Apart v rest := by
  cases v with
  | nil => exact .nil rest
  | cons c v =>
    intro last
    apply after
    rwa [List.getLast?_append_of_ne_nil u (List.cons_ne_nil c v)]

theorem noOpener_cons (head : ¬ (c = '/' ∧ s.head? = some '*')) (tail : ¬ ['/', '*'] <:+: s) :
    ¬ ['/', '*'] <:+: c :: s := by
  intro opener
  obtain ⟨rest, atStart⟩ | within := List.infix_cons_iff.1 opener
  · apply head
    cases atStart
    exact ⟨rfl, rfl⟩
  · exact tail within

theorem noOpener_append (hu : ¬ ['/', '*'] <:+: u) (hv : ¬ ['/', '*'] <:+: v)
    (between : Apart u v) : ¬ ['/', '*'] <:+: u ++ v := by
  induction u with
  | nil => exact hv
  | cons c u ih =>
    apply noOpener_cons _ (ih (fun within => hu (List.infix_cons within)) between.tail)
    rintro ⟨rfl, star⟩
    cases u with
    | nil => exact between rfl star
    | cons d u =>
      obtain rfl : d = '*' := by simpa using star
      exact hu ⟨[], u, rfl⟩

section

variable {p : Char → Bool} {d : Char}

/-- Characters differ if only one of them has a property. -/
theorem ne_of_holds (h : p c = true) (other : p d = false) : c ≠ d := by
  intro same
  rw [same, other] at h
  cases h

theorem notMem_of_holds (h : ∀ c ∈ s, p c = true) (other : p d = false) : d ∉ s :=
  fun mem => ne_of_holds (h d mem) other rfl

end

/-! ## One character of a search -/

theorem add_length_append (n : Nat) (u v : List Char) :
    n + (u ++ v).length = n + u.length + v.length := by
  rw [List.length_append, Nat.add_assoc]

theorem add_length_cons (n : Nat) (c : Char) (s : List Char) :
    n + (c :: s).length = n + 1 + s.length :=
  add_length_append n [c] s

section

variable {σ : Scan} {stop pos depth k : Nat} {brackets : Int} {quote : Char} {star : Bool}

theorem seek_of_le (h : stop ≤ pos) : seek t stop σ pos s = none := by
  cases s with
  | nil => rfl
  | cons c s => rw [seek, if_pos h]

/-- A search goes on behind a character that it does not stop at. -/
theorem seek_next (other : (c == t && σ.depth == 0 && σ.sees c s.head?) = false) :
    seek t stop σ pos (c :: s) = seek t stop (σ.step c s.head?) (pos + 1) s := by
  by_cases ended : stop ≤ pos
  · rw [seek_of_le ended, seek_of_le (by omega)]
  · rw [seek, if_neg ended, other]
    rfl

/-- Two characters open a comment. -/
theorem seek_opener : seek t stop ⟨.code, brackets, depth⟩ pos ('/' :: '*' :: s) =
    seek t stop ⟨.comment false, brackets, depth⟩ (pos + 1 + 1) s := by
  rw [seek_next (by simp [Scan.sees, opensComment]),
    seek_next (by simp [Scan.sees, Scan.step, opensComment])]
  simp [Scan.step, opensComment]

/-- Two characters close it. -/
theorem seek_closer : seek t stop ⟨.comment star, brackets, depth⟩ pos ('*' :: '/' :: s) =
    seek t stop ⟨.code, brackets, depth⟩ (pos + 1 + 1) s := by
  rw [seek_next (by simp [Scan.sees]), seek_next (by simp [Scan.sees, Scan.step])]
  simp [Scan.step]

/-- A star is not the first character of the two if no slash follows it. -/
theorem head?_ne_slash (no : ∀ r, c = '*' → s = '/' :: r → False) (star : (c == '*') = true) :
    s.head? ≠ some '/' := by
  intro next
  cases s with
  | nil => cases next
  | cons d s =>
    obtain rfl : d = '/' := by simpa using next
    exact no s (by simpa using star) rfl

/-- Any other character stands in the comment. -/
theorem seek_commented (before : star = true → c ≠ '/') :
    seek t stop ⟨.comment star, brackets, depth⟩ pos (c :: s) =
      seek t stop ⟨.comment (c == '*'), brackets, depth⟩ (pos + 1) s := by
  have stays : (star && c == '/') = false := by
    cases star with
    | false => rfl
    | true => simpa using before rfl
  rw [seek_next (by simp [Scan.sees])]
  simp only [Scan.step, stays, Bool.false_eq_true, if_false]

/-- A string is opened by its quote. -/
theorem seek_quote (kind : isQuote quote = true) (brace : t = '}' ∨ t = '{') :
    seek t stop ⟨.code, brackets, depth⟩ pos (quote :: s) =
      seek t stop ⟨.quoted quote false, brackets, depth⟩ (pos + 1) s := by
  have double : quote = '\'' ∨ quote = '"' := by simpa [isQuote] using kind
  obtain rfl | rfl := double
  · rw [seek_next (by obtain rfl | rfl := brace <;> simp)]
    simp [Scan.step, opensComment]
  · rw [seek_next (by obtain rfl | rfl := brace <;> simp)]
    simp [Scan.step, opensComment]

/-- A character of a string is passed over, or closes it. -/
theorem seek_in_string (noBackslash : c ≠ '\\') :
    seek t stop ⟨.quoted quote false, brackets, depth⟩ pos (c :: s) =
      seek t stop ⟨if c == quote then .code else .quoted quote false, brackets, depth⟩
        (pos + 1) s := by
  rw [seek_next (by simp [Scan.sees])]
  simp only [Scan.step, beq_false_of_ne noBackslash, Bool.not_false, Bool.and_true]

theorem seek_bracket_opener (brace : t = '}' ∨ t = '{') :
    seek t stop ⟨.code, k, depth⟩ pos ('[' :: s) =
      seek t stop ⟨.code, (k + 1 : Nat), depth⟩ (pos + 1) s := by
  rw [seek_next (by obtain rfl | rfl := brace <;> rfl)]
  simp [Scan.step, opensComment]

theorem seek_bracket_closer (brace : t = '}' ∨ t = '{') (within : k ≠ 0) :
    seek t stop ⟨.code, k, depth⟩ pos (']' :: s) =
      seek t stop ⟨.code, (k - 1 : Nat), depth⟩ (pos + 1) s := by
  have less : (k : Int) - 1 = ((k - 1 : Nat) : Int) := by omega
  rw [seek_next (by obtain rfl | rfl := brace <;> rfl)]
  simp [Scan.step, opensComment, less]

/-- In brackets a character is passed over. -/
theorem seek_hidden (single : Scan.isDelimiter c = false) (code : opensComment c s.head? = false)
    (within : k ≠ 0) :
    seek t stop ⟨.code, k, depth⟩ pos (c :: s) = seek t stop ⟨.code, k, depth⟩ (pos + 1) s := by
  have hidden : 0 < k := Nat.pos_of_ne_zero within
  simp only [Scan.isDelimiter, Bool.or_eq_false_iff] at single
  obtain ⟨⟨⟨double, quote⟩, opener⟩, closer⟩ := single
  rw [seek_next (by simp [Scan.sees, within])]
  simp [Scan.step, code, double, quote, opener, closer, hidden]

/-- Outside of brackets a character is found, or its braces are counted. -/
theorem seek_visible (single : Scan.isDelimiter c = false) (code : opensComment c s.head? = false) :
    seek t stop ⟨.code, (0 : Nat), depth⟩ pos (c :: s) =
      if c = t ∧ depth = 0 then if pos < stop then some pos else none
      else seek t stop
        ⟨.code, (0 : Nat), if c = '{' then depth + 1 else if c = '}' then depth - 1 else depth⟩
        (pos + 1) s := by
  have delimiters := single
  simp only [Scan.isDelimiter, Bool.or_eq_false_iff] at delimiters
  obtain ⟨⟨⟨double, quote⟩, opener⟩, closer⟩ := delimiters
  split
  next here =>
    obtain ⟨rfl, rfl⟩ := here
    by_cases room : pos < stop
    · rw [seek, if_neg (by omega), if_pos (by simp [Scan.sees, code, single]), if_pos room]
    · rw [seek_of_le (by omega), if_neg room]
  next other =>
    have other' : (c == t && depth == 0) = false := by simpa using other
    rw [seek_next (by simp [other'])]
    congr 1
    simp only [Scan.step, code, double, quote, opener, closer, Bool.false_or, Bool.false_eq_true,
      if_false, Int.natCast_zero, Int.lt_irrefl, beq_iff_eq]
    split_ifs <;> rfl

end

/-! ## Searches pass over balanced texts -/

/-- The region of a scan where the reader is inside of this, in front of `s`. -/
def Inside.Matches : Inside → Region → List Char → Prop
  | .text, region, _ => region = .code
  | .quoted quote, region, _ => region = .quoted quote false
  | .comment, region, s => ∃ star, region = .comment star ∧ (star = true → s.head? ≠ some '/')

/-- Neither in a text nor at its end a comment is opened by this character. -/
theorem opensComment_false (no : ∀ r, c = '/' → s = '*' :: r → False)
    (apart : Apart (c :: s) rest) : opensComment c (s ++ rest).head? = false := by
  by_cases slash : c = '/'
  · subst slash
    cases s with
    | nil =>
      have next : rest.head? ≠ some '*' := apart rfl
      simpa [opensComment] using next
    | cons d s =>
      have next : d ≠ '*' := by
        rintro rfl
        exact no s rfl rfl
      simpa [opensComment] using next
  · simp [opensComment, slash]

theorem opensComment_of_noOpener (no : ¬ ['/', '*'] <:+: c :: s) (apart : Apart (c :: s) rest) :
    opensComment c (s ++ rest).head? = false := by
  refine opensComment_false (fun r slash star => no ⟨[], r, ?_⟩) apart
  rw [slash, star]
  rfl

/-- A scan in front of a text that is balanced as it stands, with `base` braces open around it. -/
inductive Scan.Faces (blocks : Bool) (base : Nat) : Scan → List Char → Prop
  | intro {inside : Inside} {region : Region} {brackets depth : Nat} {s : List Char}
      (balanced : isBalanced blocks inside brackets depth s = true)
      (here : inside.Matches region s) : Faces blocks base ⟨region, brackets, base + depth⟩ s

/-- The search passes over the first part of the text, and the scan faces the others then. -/
def Onward (t : Char) (stop : Nat) (blocks : Bool) (base : Nat) (rest : List Char) (σ : Scan)
    (s : List Char) : Prop :=
  ∃ u v τ, s = u ++ v ∧ u ≠ [] ∧ Scan.Faces blocks base τ v ∧
    ∀ pos, seek t stop σ pos (s ++ rest) = seek t stop τ (pos + u.length) (v ++ rest)

section

variable {blocks : Bool} {brackets depth base stop pos : Nat} {quote d : Char} {star : Bool}
variable {σ τ : Scan}

theorem Onward.one (faces : τ.Faces blocks base s)
    (passes : ∀ pos, seek t stop σ pos (c :: (s ++ rest)) = seek t stop τ (pos + 1) (s ++ rest)) :
    Onward t stop blocks base rest σ (c :: s) :=
  ⟨[c], s, τ, rfl, by simp, faces, passes⟩

theorem Onward.two (faces : τ.Faces blocks base s)
    (passes : ∀ pos, seek t stop σ pos (c :: d :: (s ++ rest)) =
      seek t stop τ (pos + 1 + 1) (s ++ rest)) :
    Onward t stop blocks base rest σ (c :: d :: s) :=
  ⟨[c, d], s, τ, rfl, by simp, faces, passes⟩

/-- Inside of a string. -/
theorem onward_quoted (bare : c ≠ '\\')
    (h : isBalanced blocks (.quoted quote) brackets depth (c :: s) = true) :
    Onward t stop blocks base rest ⟨.quoted quote false, brackets, base + depth⟩ (c :: s) := by
  rw [isBalanced] at h
  refine .one ⟨h, ?_⟩ fun pos => seek_in_string bare
  split
  · exact rfl
  · exact rfl

/-- Inside of a comment. -/
theorem onward_commented (before : star = true → c ≠ '/')
    (h : isBalanced blocks .comment brackets depth (c :: s) = true) :
    Onward t stop blocks base rest ⟨.comment star, brackets, base + depth⟩ (c :: s) := by
  by_cases closes : ∃ r, c = '*' ∧ s = '/' :: r
  · obtain ⟨r, rfl, rfl⟩ := closes
    rw [isBalanced] at h
    exact .two ⟨h, rfl⟩ fun pos => seek_closer
  · have no (r : List Char) (first : c = '*') (second : s = '/' :: r) : False :=
      closes ⟨r, first, second⟩
    have further : isBalanced blocks .comment brackets depth s = true := by
      rwa [isBalanced] at h
      exact no
    exact .one ⟨further, _, rfl, head?_ne_slash no⟩ fun pos => seek_commented before

/-- Outside of all these a brace is counted, and anything else is passed over. -/
theorem onward_visible (target : t = '}' ∨ t = '{' ∧ blocks = false)
    (single : Scan.isDelimiter c = false) (code : opensComment c (s ++ rest).head? = false)
    (h : (if c == '{' then blocks && isBalanced blocks .text 0 (depth + 1) s
      else if c == '}' then 0 < depth && isBalanced blocks .text 0 (depth - 1) s
      else isBalanced blocks .text 0 depth s) = true) :
    Onward t stop blocks base rest ⟨.code, (0 : Nat), base + depth⟩ (c :: s) := by
  have visible (pos : Nat) :
      seek t stop ⟨.code, (0 : Nat), base + depth⟩ pos (c :: (s ++ rest)) = _ :=
    seek_visible single code
  by_cases opens : c = '{'
  · subst opens
    obtain ⟨rfl, h⟩ : blocks = true ∧ isBalanced blocks .text 0 (depth + 1) s = true := by
      simpa using h
    obtain rfl : t = '}' := by simpa using target
    refine .one ⟨h, rfl⟩ fun pos => ?_
    exact (visible pos).trans (by rw [if_neg (by simp), if_pos rfl, Nat.add_assoc])
  by_cases closes : c = '}'
  · subst closes
    obtain ⟨within, h⟩ : 0 < depth ∧ isBalanced blocks .text 0 (depth - 1) s = true := by
      simpa using h
    refine .one ⟨h, rfl⟩ fun pos => ?_
    refine (visible pos).trans ?_
    rw [if_neg (by omega), if_neg opens, if_pos rfl, Nat.add_sub_assoc within]
  · have other : c ≠ t := by
      obtain rfl | ⟨rfl, -⟩ := target
      · exact closes
      · exact opens
    rw [if_neg (by simpa using opens), if_neg (by simpa using closes)] at h
    refine .one ⟨h, rfl⟩ fun pos => ?_
    refine (visible pos).trans ?_
    rw [if_neg fun here => other here.1, if_neg opens, if_neg closes]

/-- Outside of strings and comments. -/
theorem onward_text (target : t = '}' ∨ t = '{' ∧ blocks = false) (apart : Apart (c :: s) rest)
    (h : isBalanced blocks .text brackets depth (c :: s) = true) :
    Onward t stop blocks base rest ⟨.code, brackets, base + depth⟩ (c :: s) := by
  have brace : t = '}' ∨ t = '{' := target.imp_right And.left
  by_cases opens : ∃ r, c = '/' ∧ s = '*' :: r
  · obtain ⟨r, rfl, rfl⟩ := opens
    rw [isBalanced] at h
    exact .two ⟨h, false, rfl, by simp⟩ fun pos => seek_opener
  have no (r : List Char) (first : c = '/') (second : s = '*' :: r) : False :=
    opens ⟨r, first, second⟩
  have code := opensComment_false no apart
  rw [isBalanced] at h
  swap
  · exact no
  split at h
  next quote =>
    have kind : isQuote c = true := by simpa [isQuote, or_comm] using quote
    exact .one ⟨h, rfl⟩ fun pos => seek_quote kind brace
  split at h
  next opener =>
    obtain rfl : c = '[' := by simpa using opener
    exact .one ⟨h, rfl⟩ fun pos => seek_bracket_opener brace
  split at h
  next closer =>
    obtain rfl : c = ']' := by simpa using closer
    obtain ⟨within, h⟩ : 0 < brackets ∧ isBalanced blocks .text (brackets - 1) depth s = true := by
      simpa using h
    exact .one ⟨h, rfl⟩ fun pos => seek_bracket_closer brace (Nat.ne_of_gt within)
  have single : Scan.isDelimiter c = false := by
    simp_all [Scan.isDelimiter]
  split at h
  next hidden =>
    exact .one ⟨h, rfl⟩ fun pos => seek_hidden single code (Nat.ne_of_gt hidden)
  next outside =>
    obtain rfl : brackets = 0 := Nat.eq_zero_of_not_pos outside
    exact onward_visible target single code h

/-- A scan that faces a balanced text passes over its first part. -/
theorem Scan.Faces.onward (h : σ.Faces blocks base (c :: s))
    (target : t = '}' ∨ t = '{' ∧ blocks = false) (plain : '\\' ∉ c :: s)
    (apart : Apart (c :: s) rest) : Onward t stop blocks base rest σ (c :: s) := by
  obtain @⟨inside, region, brackets, depth, _, balanced, here⟩ := h
  cases inside with
  | text =>
    obtain rfl : region = .code := here
    exact onward_text target apart balanced
  | quoted quote =>
    obtain rfl : region = .quoted quote false := here
    exact onward_quoted (List.ne_of_not_mem_cons plain).symm balanced
  | comment =>
    obtain ⟨star, rfl, before⟩ := here
    exact onward_commented (fun star => by simpa using before star) balanced

theorem Scan.Faces.eq_of_nil (h : σ.Faces blocks base []) : σ = ⟨.code, 0, base⟩ := by
  obtain @⟨inside, region, brackets, depth, _, balanced, here⟩ := h
  cases inside with
  | text =>
    obtain ⟨rfl, rfl⟩ : brackets = 0 ∧ depth = 0 := by simpa [isBalanced] using balanced
    obtain rfl : region = .code := here
    rfl
  | quoted | comment => simp [isBalanced] at balanced

/-- A search for a brace passes over a balanced text, and over one without braces whichever brace it
looks for. -/
theorem Scan.Faces.seek (h : σ.Faces blocks base s) (target : t = '}' ∨ t = '{' ∧ blocks = false)
    (plain : '\\' ∉ s) (apart : Apart s rest) :
    seek t stop σ pos (s ++ rest) = seek t stop ⟨.code, 0, base⟩ (pos + s.length) rest := by
  -- a step takes one character or two, so the induction is on the length of the text
  induction length : s.length using Nat.strong_induction_on generalizing s σ pos with
  | _ n ih =>
    subst length
    cases s with
    | nil =>
      rw [h.eq_of_nil]
      rfl
    | cons c s =>
      obtain ⟨u, v, τ, whole, some, faces, passes⟩ := h.onward target plain apart
      rw [whole] at plain apart
      have shorter : v.length < (c :: s).length := by
        rw [whole, List.length_append]
        have := List.length_pos_iff.2 some
        omega
      rw [passes, ih v.length shorter faces (fun mem => plain (List.mem_append_right u mem))
        apart.right_of_append rfl, whole, add_length_append]

end

/-- A search passes over a comment. -/
theorem seek_comment {inner : List Char} {star : Bool} {brackets : Int} {depth stop pos : Nat}
    (no : ¬ ['*', '/'] <:+: inner) (before : star = true → inner.head? ≠ some '/') :
    seek t stop ⟨.comment star, brackets, depth⟩ pos (inner ++ '*' :: '/' :: rest) =
      seek t stop ⟨.code, brackets, depth⟩ (pos + inner.length + 1 + 1) rest := by
  induction inner generalizing star pos with
  | nil => exact seek_closer
  | cons c inner ih =>
    rw [List.cons_append, add_length_cons, seek_commented fun star => by simpa using before star]
    refine ih (fun within => no (List.infix_cons within)) (head?_ne_slash ?_)
    rintro r rfl rfl
    exact no ⟨[], r, rfl⟩

/-- A comment is its delimiters and what is between them. -/
theorem comment_append (inner rest : List Char) :
    '/' :: '*' :: (inner ++ '*' :: '/' :: rest) = '/' :: '*' :: (inner ++ ['*', '/']) ++ rest := by
  simp

theorem seek_whole_comment {inner : List Char} {brackets : Int} {depth stop pos : Nat}
    (no : ¬ ['*', '/'] <:+: inner) :
    seek t stop ⟨.code, brackets, depth⟩ pos ('/' :: '*' :: (inner ++ ['*', '/']) ++ rest) =
      seek t stop ⟨.code, brackets, depth⟩
        (pos + ('/' :: '*' :: (inner ++ ['*', '/'])).length) rest := by
  rw [← comment_append, seek_opener, seek_comment no (by simp), add_length_cons, add_length_cons,
    add_length_append]
  rfl

/-! ## Texts that are passed over whatever follows -/

/-- A search for `t` passes over the text and finds `depth` open braces before it and `depth'` open
braces after it. -/
def Moves (t : Char) (depth depth' : Nat) (w : List Char) : Prop :=
  ∀ ⦃stop pos : Nat⦄ ⦃rest : List Char⦄, Apart w rest → pos + w.length ≤ stop →
    seek t stop ⟨.code, 0, depth⟩ pos (w ++ rest) =
      seek t stop ⟨.code, 0, depth'⟩ (pos + w.length) rest

/-- A search for `t` passes over the text at any depth. -/
def Skips (t : Char) (w : List Char) : Prop :=
  ∀ depth, Moves t depth depth w

/-- Of the text, `w'` is left when comments are taken out. -/
def Strips (keep : Bool) (w w' : List Char) : Prop :=
  ∀ ⦃rest : List Char⦄, Apart w rest →
    stripComments keep (w ++ rest) = w' ++ stripComments keep rest

theorem Moves.append {a b d : Nat} (hu : Moves t a b u) (hv : Moves t b d v)
    (between : Apart u v) : Moves t a d (u ++ v) := by
  intro stop pos rest after room
  rw [List.length_append] at room ⊢
  rw [List.append_assoc, hu (between.left_of_append after) (by omega),
    hv after.right_of_append (by omega), Nat.add_assoc]

theorem moves_opening (depth : Nat) : Moves '}' depth (depth + 1) ['{'] := by
  intro stop pos rest _ _
  exact seek_next (by simp)

theorem moves_closing (depth : Nat) : Moves '}' (depth + 1) depth ['}'] := by
  intro stop pos rest _ _
  exact seek_next (by simp)

namespace Skips

theorem append (hu : Skips t u) (hv : Skips t v) (between : Apart u v) : Skips t (u ++ v) :=
  fun depth => (hu depth).append (hv depth) between

theorem of_isBalanced {blocks : Bool} (target : t = '}' ∨ t = '{' ∧ blocks = false)
    (h : isBalanced blocks .text 0 0 w = true) (plain : '\\' ∉ w) : Skips t w :=
  fun base _ _ _ after _ =>
    have faces : Scan.Faces blocks base ⟨.code, (0 : Nat), base + 0⟩ w := .intro h rfl
    faces.seek target plain after

theorem comment {inner : List Char} (no : ¬ ['*', '/'] <:+: inner) :
    Skips t ('/' :: '*' :: (inner ++ ['*', '/'])) := by
  intro depth stop pos rest _ _
  exact seek_whole_comment no

/-- A block with its header is passed over by a search for the brace that closes the block it
stands in. -/
theorem block (header : Skips '}' u) (body : Skips '}' v) :
    Skips '}' (u ++ '{' :: (v ++ ['}'])) := by
  intro depth
  have inside : Moves '}' (depth + 1) depth (v ++ ['}']) :=
    (body (depth + 1)).append (moves_closing depth) (.of_head (by simp))
  have opened : Moves '}' depth depth (['{'] ++ (v ++ ['}'])) :=
    (moves_opening depth).append inside (.of_last (by simp))
  exact (header depth).append opened (.of_head (by simp))

end Skips

theorem splitComment_cons (h : opensComment c s.head? = false) : splitComment (c :: s) = none := by
  unfold splitComment
  split
  · simp_all [opensComment]
  · rfl

theorem stripComments_cons (keep : Bool) (h : opensComment c s.head? = false) :
    stripComments keep (c :: s) = c :: stripComments keep s := by
  rw [stripComments]
  split
  next e => cases (splitComment_cons h).symm.trans e
  next => rfl

theorem indexOf?_closer {inner : List Char} (no : ¬ ['*', '/'] <:+: inner) :
    indexOf? ['*', '/'] (inner ++ '*' :: '/' :: rest) = some inner.length := by
  induction inner with
  | nil => simp [indexOf?]
  | cons c inner ih =>
    have here : List.isPrefixOf ['*', '/'] (c :: (inner ++ '*' :: '/' :: rest)) = false := by
      cases inner with
      | nil => simp [List.isPrefixOf]
      | cons d inner =>
        have other : ¬ ('*' = c ∧ '/' = d) := by
          rintro ⟨rfl, rfl⟩
          exact no ⟨[], inner, rfl⟩
        simpa [List.isPrefixOf] using other
    rw [List.cons_append, indexOf?, here, ih fun within => no (List.infix_cons within)]
    rfl

theorem splitComment_comment {inner : List Char} (no : ¬ ['*', '/'] <:+: inner) :
    splitComment ('/' :: '*' :: (inner ++ ['*', '/']) ++ rest) =
      some ('/' :: '*' :: (inner ++ ['*', '/']), rest) := by
  have closed : indexOf? ['*', '/'] (inner ++ ['*', '/'] ++ rest) = some inner.length := by
    rw [List.append_assoc]
    exact indexOf?_closer no
  rw [List.cons_append, List.cons_append, splitComment, closed]
  simp [List.take_append, List.drop_append, List.take_of_length_le]

theorem stripComments_comment (keep : Bool) {inner : List Char} (no : ¬ ['*', '/'] <:+: inner) :
    stripComments keep ('/' :: '*' :: (inner ++ '*' :: '/' :: rest)) =
      (if keep then inner.filter (· == '\n') else []) ++ stripComments keep rest := by
  have found : splitComment ('/' :: '*' :: (inner ++ '*' :: '/' :: rest)) =
      some ('/' :: '*' :: (inner ++ ['*', '/']), rest) := by
    rw [comment_append inner rest, splitComment_comment no]
  rw [stripComments]
  split
  next comment rest' e =>
    obtain ⟨rfl, rfl⟩ : comment = _ ∧ rest' = _ := by
      simpa using e.symm.trans found
    simp
  next e => cases found.symm.trans e

namespace Strips

variable {keep : Bool} {u' v' : List Char}

theorem append (hu : Strips keep u u') (hv : Strips keep v v') (between : Apart u v) :
    Strips keep (u ++ v) (u' ++ v') := by
  intro rest after
  rw [List.append_assoc, hu (between.left_of_append after), hv after.right_of_append,
    List.append_assoc]

theorem eq (h : Strips keep w u') : stripComments keep w = u' := by
  have none : stripComments keep [] = [] := by
    rw [stripComments]
    rfl
  have apart : Apart w [] := .of_head (by simp)
  have whole := h apart
  rwa [none, List.append_nil, List.append_nil] at whole

theorem of_noOpener (no : ¬ ['/', '*'] <:+: w) : Strips keep w w := by
  intro rest after
  induction w with
  | nil => rfl
  | cons c w ih =>
    rw [List.cons_append, stripComments_cons keep (opensComment_of_noOpener no after),
      ih (fun within => no (List.infix_cons within)) after.tail, List.cons_append]

theorem comment {inner : List Char} (no : ¬ ['*', '/'] <:+: inner) :
    Strips keep ('/' :: '*' :: (inner ++ ['*', '/']))
      (if keep then inner.filter (· == '\n') else []) := by
  intro rest _
  rw [← stripComments_comment keep no, comment_append inner rest]

end Strips

/-! ## Texts of one line -/

/-- The text of part of a line: searches for braces pass over it and it holds no comment. -/
structure Inert (s : List Char) : Prop where
  skips {t : Char} (brace : t = '}' ∨ t = '{') : Skips t s
  strips (keep : Bool) : Strips keep s s
  inline : '\n' ∉ s

/-- The character is none of those that open or close something. -/
def isPlain (c : Char) : Bool :=
  c ∉ ['"', '\'', '[', ']', '{', '}', '/', '\\']

theorem isPlain_of_holds {p : Char → Bool} (h : p c = true)
    (others : ∀ d ∈ ['"', '\'', '[', ']', '{', '}', '/', '\\'], p d = false) :
    isPlain c = true := by
  by_contra special
  have other : p c = false :=
    others c (by simpa only [isPlain, decide_eq_true_eq, not_not] using special)
  exact ne_of_holds h other rfl

theorem isPlain_of_isBlank (h : isBlank c = true) : isPlain c = true :=
  isPlain_of_holds h (by decide)

theorem isPlain_of_isNameChar (h : isNameChar c = true) : isPlain c = true :=
  isPlain_of_holds h (by decide +kernel)

theorem isBalanced_of_plain (h : ∀ c ∈ s, isPlain c = true) :
    isBalanced false .text 0 0 s = true := by
  induction s with
  | nil => rfl
  | cons c s ih =>
    obtain ⟨plain, rest⟩ := List.forall_mem_cons.1 h
    simp only [isPlain, List.mem_cons, List.not_mem_nil, or_false, not_or, decide_eq_true_eq]
      at plain
    rw [isBalanced]
    · simp [plain, ih rest]
    · exact fun _ slash _ => plain.2.2.2.2.2.2.1 slash

theorem noOpener_of_plain (h : ∀ c ∈ s, isPlain c = true) : ¬ ['/', '*'] <:+: s :=
  fun opener => notMem_of_holds h (by decide) (opener.subset List.mem_cons_self)

theorem Skips.of_plain (brace : t = '}' ∨ t = '{') (h : ∀ c ∈ s, isPlain c = true) :
    Skips t s :=
  .of_isBalanced (brace.imp_right fun same => ⟨same, rfl⟩) (isBalanced_of_plain h)
    (notMem_of_holds h (by decide))

namespace Inert

theorem append (hu : Inert u) (hv : Inert v) (between : Apart u v) : Inert (u ++ v) where
  skips brace := (hu.skips brace).append (hv.skips brace) between
  strips keep := (hu.strips keep).append (hv.strips keep) between
  inline := by simpa using ⟨hu.inline, hv.inline⟩

theorem of_closed (h : Closed s) : Inert s where
  skips brace := .of_isBalanced (brace.imp_right fun same => ⟨same, rfl⟩) h.balanced h.noBackslash
  strips _ := .of_noOpener h.noOpener
  inline := h.inline

theorem of_plain (h : ∀ c ∈ s, isPlain c = true) (inline : '\n' ∉ s) : Inert s where
  skips brace := .of_plain brace h
  strips _ := .of_noOpener (noOpener_of_plain h)
  inline := inline

theorem of_blank (h : AllBlank s) (inline : '\n' ∉ s) : Inert s :=
  .of_plain (fun c hc => isPlain_of_isBlank (h c hc)) inline

theorem of_name (h : ∀ c ∈ s, isNameChar c = true) : Inert s :=
  .of_plain (fun c hc => isPlain_of_isNameChar (h c hc)) (notMem_of_holds h (by decide))

theorem isBalanced_quoted {quote : Char} (h : quote ∉ s) :
    isBalanced false (.quoted quote) 0 0 (s ++ [quote]) = true := by
  induction s with
  | nil => simp [isBalanced]
  | cons c s ih =>
    have other : (c == quote) = false := beq_false_of_ne (List.ne_of_not_mem_cons h).symm
    rw [List.cons_append, isBalanced, other]
    exact ih (List.not_mem_of_not_mem_cons h)

theorem quoted {quote : Char} (kind : isQuote quote = true) (unquoted : quote ∉ s)
    (noBackslash : '\\' ∉ s) (inline : '\n' ∉ s) (noOpener : ¬ ['/', '*'] <:+: s) :
    Inert (quote :: (s ++ [quote])) := by
  have other : ∀ d, isQuote d = false → d ≠ quote := fun d h => (ne_of_holds kind h).symm
  have noOpener' : ¬ ['/', '*'] <:+: [quote] := fun opener => by simpa using opener.length_le
  constructor
  · intro t brace
    apply Skips.of_isBalanced (brace.imp_right fun same => ⟨same, rfl⟩)
    · obtain rfl | rfl : quote = '\'' ∨ quote = '"' := by simpa [isQuote] using kind
      · simpa [isBalanced] using isBalanced_quoted unquoted
      · simpa [isBalanced] using isBalanced_quoted unquoted
    · simp [noBackslash, other '\\' (by decide)]
  · intro keep
    have closing : Strips keep (s ++ [quote]) (s ++ [quote]) :=
      Strips.append (.of_noOpener noOpener) (.of_noOpener noOpener')
        (.of_head (by simp [(other '*' (by decide)).symm]))
    exact Strips.append (.of_noOpener noOpener') closing
      (.of_last (by simp [(other '/' (by decide)).symm]))
  · simp [inline, other '\n' (by decide)]

end Inert

end NestedStyles.Block
