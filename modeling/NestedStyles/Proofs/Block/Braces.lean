import NestedStyles.Proofs.Block.Spans

/-!
# The braces of a text

Of a text that is cut into spans, the structural braces are those outside of strings, comments and
pairs of brackets. `FindsBraces` says that a search finds these: the brace that closes a block is
the one that balances the brace that opens it, and the next block is the next one that is not
inside of another.

A search does so in every text that starts like this one just if no string of it ends behind a
backslash (`findsBraces_iff`).
-/

namespace NestedStyles.Block

open Text

/-! ## Structural braces -/

/-- Every brace in it has its counterpart. -/
inductive Balanced : List Char → Prop
  | nil : Balanced []
  | other {c : Char} {s : List Char} (notOpen : c ≠ '{') (notClose : c ≠ '}')
      (more : Balanced s) : Balanced (c :: s)
  | block {s u : List Char} (inside : Balanced s) (more : Balanced u) :
      Balanced ('{' :: (s ++ '}' :: u))

/-- Position `i` is between two spans and outside of brackets. -/
def Outside (ps : List Span) (i : Nat) : Prop :=
  ∃ front back, ps = front ++ back ∧ bracketsBehind? 0 front = some 0 ∧
    i = (written front).length

/-- The character `c` stands at position `i` outside of strings, comments and brackets. -/
def Structural (ps : List Span) (c : Char) (i : Nat) : Prop :=
  ∃ front back, ps = front ++ .plain c :: back ∧ bracketsBehind? 0 front = some 0 ∧
    i = (written front).length

/-- The brace at position `j` closes the block that the one at `i` opens. -/
def Balances (ps : List Span) (i j : Nat) : Prop :=
  ∃ front inside back, ps = front ++ .plain '{' :: (inside ++ .plain '}' :: back) ∧
    bracketsBehind? 0 front = some 0 ∧ bracketsBehind? 0 inside = some 0 ∧
      Balanced (visible 0 inside) ∧
        i = (written front).length ∧ j = (written front).length + 1 + (written inside).length

/-- A block is opened at `i` inside of no block that is opened from `start` on. -/
structure Outermost (ps : List Span) (start i : Nat) : Prop where
  le : start ≤ i
  opens : Structural ps '{' i
  apart : ∀ k, start ≤ k → k < i → Structural ps '{' k → ∃ j < i, Balances ps k j

/-- The searches for braces find the structural ones. -/
structure FindsBraces (ps : List Span) : Prop where
  closes : ∀ i, Structural ps '{' i → ∀ j, Balances ps i j → closing (written ps) i = j
  open' : ∀ i, Structural ps '{' i → (∀ j, ¬ Balances ps i j) →
    closing (written ps) i = (written ps).length
  next : ∀ start stop, Outside ps start → ∀ i,
    find? '{' (written ps) start stop = some i ↔
      i < stop ∧ Outermost ps start i ∧ ∀ k, Outermost ps start k → i ≤ k

variable {ps qs front front' back back' : List Span} {p : Span} {c t : Char} {s u w : List Char}
  {d i j k start stop : Nat}

/-! ## Words of braces -/

theorem Balanced.passes (h : Balanced w) (d : Nat) : passes? '}' d w = some d := by
  induction h generalizing d with
  | nil => rfl
  | other notOpen notClose _ ih => simp [passes?, notOpen, notClose, ih]
  | block _ _ ihInside ihMore => simp [passes?, passes?_append, ihInside, ihMore]

/-- Blocks that are open are closed one after the other. -/
theorem exists_balanced (n : Nat) : ∀ w : List Char, w.length ≤ n →
    (passes? '}' 0 w = some 0 → Balanced w) ∧
      ∀ d, passes? '}' (d + 1) w = some 0 →
        ∃ u v, w = u ++ '}' :: v ∧ Balanced u ∧ passes? '}' d v = some 0 := by
  induction n with
  | zero =>
    intro w short
    obtain rfl := List.length_eq_zero_iff.1 (Nat.le_zero.1 short)
    exact ⟨fun _ => .nil, fun d none => by cases none⟩
  | succ n ih =>
    intro w short
    cases w with
    | nil => exact ⟨fun _ => .nil, fun d none => by cases none⟩
    | cons c w =>
      have shorter : w.length ≤ n := by simpa using short
      obtain ⟨ground, above⟩ := ih w shorter
      by_cases opens : c = '{'
      · subst opens
        have behind (d : Nat) (h : passes? '}' d ('{' :: w) = some 0) :
            ∃ u v, w = u ++ '}' :: v ∧ Balanced u ∧ passes? '}' d v = some 0 ∧ v.length ≤ n := by
          obtain ⟨u, v, rfl, balanced, passes⟩ := above d (by simpa [passes?] using h)
          refine ⟨u, v, rfl, balanced, passes, ?_⟩
          simp only [List.length_append, List.length_cons] at shorter
          omega
        refine ⟨fun h => ?_, fun d h => ?_⟩
        · obtain ⟨u, v, rfl, balanced, passes, room⟩ := behind 0 h
          exact .block balanced ((ih v room).1 passes)
        · obtain ⟨u, v, rfl, balanced, passes, room⟩ := behind (d + 1) h
          obtain ⟨u', v', rfl, balanced', passes'⟩ := (ih v room).2 d passes
          exact ⟨'{' :: (u ++ '}' :: u'), v', by simp, .block balanced balanced', passes'⟩
      · by_cases closes : c = '}'
        · subst closes
          refine ⟨fun h => by simp [passes?] at h, fun d h => ?_⟩
          exact ⟨[], w, rfl, .nil, by simpa [passes?] using h⟩
        · refine ⟨fun h => ?_, fun d h => ?_⟩
          · exact .other opens closes (ground (by simpa [passes?, opens, closes] using h))
          · obtain ⟨u, v, rfl, balanced, passes⟩ :=
              above d (by simpa [passes?, opens, closes] using h)
            exact ⟨c :: u, v, rfl, .other opens closes balanced, passes⟩

theorem balanced_iff : Balanced w ↔ passes? '}' 0 w = some 0 :=
  ⟨fun h => h.passes 0, (exists_balanced w.length w le_rfl).1⟩

theorem passes_opener_iff : passes? '{' 0 w = some 0 ↔ '{' ∉ w := by
  induction w with
  | nil => simp [passes?]
  | cons c w ih =>
    by_cases opens : c = '{'
    · simp [passes?, opens]
    · simp [passes?, opens, ih, Ne.symm opens]

/-! ## Positions -/

theorem written_eq_nil (h : written ps = []) : ps = [] := by
  cases ps with
  | nil => rfl
  | cons p ps =>
    rw [written_cons] at h
    exact absurd (List.append_eq_nil_iff.1 h).1 p.chars_ne_nil

/-- A part of a text is told by its length. -/
theorem exists_append_of_le (same : front ++ back = front' ++ back')
    (le : (written front).length ≤ (written front').length) :
    ∃ between, front' = front ++ between ∧ back = between ++ back' := by
  obtain ⟨between, rfl, rfl⟩ | ⟨between, rfl, rfl⟩ := List.append_eq_append_iff.1 same
  · exact ⟨between, rfl, rfl⟩
  · rw [written_append, List.length_append] at le
    obtain rfl :=
      written_eq_nil (List.length_eq_zero_iff.1 (by omega : (written between).length = 0))
    exact ⟨[], by simp, by simp⟩

theorem eq_of_length_eq (same : front ++ back = front' ++ back')
    (length : (written front).length = (written front').length) :
    front = front' ∧ back = back' := by
  obtain ⟨between, rfl, rfl⟩ := exists_append_of_le same length.le
  rw [written_append, List.length_append] at length
  obtain rfl := written_eq_nil (List.length_eq_zero_iff.1 (by omega : (written between).length = 0))
  simp

/-- A visible character has a first occurrence. -/
theorem exists_first_visible (nested : (bracketsBehind? k ps).isSome) (mem : c ∈ visible k ps) :
    ∃ front back, ps = front ++ .plain c :: back ∧ bracketsBehind? k front = some 0 ∧
      c ∉ visible k front := by
  induction ps generalizing k with
  | nil => cases mem
  | cons p ps ih =>
    -- Where the first span does not show the character, it is found behind it.
    have later {k' : Nat} (nested : (bracketsBehind? k' ps).isSome) (mem : c ∈ visible k' ps)
        (brackets : ∀ front, bracketsBehind? k (p :: front) = bracketsBehind? k' front)
        (shows : ∀ front, c ∈ visible k (p :: front) → c ∈ visible k' front) :
        ∃ front back, p :: ps = front ++ .plain c :: back ∧ bracketsBehind? k front = some 0 ∧
          c ∉ visible k front := by
      obtain ⟨front, back, rfl, ground, first⟩ := ih nested mem
      exact ⟨p :: front, back, rfl, (brackets front).trans ground, mt (shows front) first⟩
    cases p with
    | plain d =>
      by_cases here : k = 0 ∧ d = c
      · obtain ⟨rfl, rfl⟩ := here
        exact ⟨[], ps, rfl, rfl, List.not_mem_nil⟩
      · have shows : ∀ front, c ∈ visible k (.plain d :: front) → c ∈ visible k front := by
          intro front mem
          rw [visible] at mem
          split at mem
          next ground =>
            obtain rfl | later := List.mem_cons.1 mem
            · exact absurd ⟨ground, rfl⟩ here
            · exact later
          next => exact mem
        exact later nested (shows ps mem) (fun _ => rfl) shows
    | opener | quoted | comment | unended =>
      exact later nested mem (fun _ => rfl) fun _ => id
    | closer =>
      rw [bracketsBehind?] at nested
      split at nested
      next => cases nested
      next within =>
        refine later nested mem (fun front => ?_) fun _ => id
        rw [bracketsBehind?, if_neg within]

theorem mem_visible (brackets : bracketsBehind? k front = some 0) :
    c ∈ visible k (front ++ .plain c :: back) := by
  rw [visible_append brackets, visible, if_pos rfl]
  exact List.mem_append_right _ List.mem_cons_self

theorem bracketsBehind?_right (front' : bracketsBehind? 0 front = some 0) :
    bracketsBehind? 0 (front ++ back) = bracketsBehind? 0 back := by
  rw [bracketsBehind?_append, front']
  rfl

theorem drop_written (front back : List Span) :
    (written (front ++ back)).drop (written front).length = written back := by
  rw [written_append, List.drop_left]

/-! ## What searches find -/

section

variable (legible : Legible [] ps) (nested : (bracketsBehind? 0 ps).isSome)
  (plain : ∀ p ∈ ps, p.EndsPlainly)
include legible nested plain

/-- From a position outside of brackets on, what is found is the first visible character outside of
all blocks. -/
theorem find?_written_iff (brace : t = '}' ∨ t = '{') (same : ps = front ++ back)
    (ground : bracketsBehind? 0 front = some 0) (stop : Nat) :
    find? t (written ps) (written front).length stop = some i ↔
      i < stop ∧ ∃ between, Ahead t 0 0 back between ∧
        i = (written front).length + (written between).length := by
  subst same
  rw [find?, drop_written]
  apply seek_spans_iff brace (legible_append.1 legible).2
  · exact fun p mem => plain p (List.mem_append_right _ mem)
  · rwa [bracketsBehind?_right ground] at nested

/-- A block is closed by the brace that balances the one that opens it. -/
theorem find?_closer_iff (opens : Structural ps '{' i) :
    find? '}' (written ps) (i + 1) (written ps).length = some j ↔ Balances ps i j := by
  obtain ⟨front, back, same, ground, rfl⟩ := opens
  have ground' : bracketsBehind? 0 (front ++ [.plain '{']) = some 0 := by
    rw [bracketsBehind?_right ground]
    rfl
  have length : (written (front ++ [.plain '{'])).length = (written front).length + 1 := by
    simp [Span.chars]
  have found := find?_written_iff (i := j) legible nested plain (.inl rfl)
    (same.trans (List.append_cons ..)) ground' (written ps).length
  rw [length] at found
  rw [found]
  constructor
  · rintro ⟨-, inside, ⟨⟨behind, rfl⟩, brackets, passes⟩, rfl⟩
    exact ⟨front, inside, behind, same, ground, brackets, balanced_iff.2 passes, rfl, rfl⟩
  · rintro ⟨front', inside, behind, same', -, brackets, balanced, length', rfl⟩
    obtain ⟨rfl, tail⟩ := eq_of_length_eq (same.symm.trans same') length'
    obtain ⟨-, rfl⟩ := List.cons_eq_cons.1 tail
    refine ⟨?_, inside, ⟨⟨behind, rfl⟩, brackets, balanced_iff.1 balanced⟩, rfl⟩
    simp [same, Span.chars]
    omega

theorem closing_of_balances (opens : Structural ps '{' i) (balances : Balances ps i j) :
    closing (written ps) i = j := by
  rw [closing, (find?_closer_iff legible nested plain opens).2 balances, Option.getD_some]

theorem closing_of_open (opens : Structural ps '{' i) (unbalanced : ∀ j, ¬ Balances ps i j) :
    closing (written ps) i = (written ps).length := by
  rw [closing]
  cases found : find? '}' (written ps) (i + 1) (written ps).length with
  | none => rfl
  | some j =>
    exact absurd ((find?_closer_iff legible nested plain opens).1 found) (unbalanced j)

end

/-- No structural character of a kind stands in front of the first one. -/
theorem Ahead.le {between : List Span} (h : Ahead '{' 0 0 back between)
    (same : ps = front ++ back) (ground : bracketsBehind? 0 front = some 0)
    (opens : Structural ps '{' k) (le : (written front).length ≤ k) :
    (written front).length + (written between).length ≤ k := by
  obtain ⟨front', back', same', ground', rfl⟩ := opens
  obtain ⟨first, rfl, rfl⟩ := exists_append_of_le (same.symm.trans same') le
  rw [bracketsBehind?_right ground] at ground'
  obtain ⟨⟨behind, split⟩, -, passes⟩ := h
  rw [written_append, List.length_append]
  by_contra before
  obtain ⟨more, rfl, tail⟩ := exists_append_of_le split (by omega)
  cases more with
  | nil => simp at before
  | cons p more =>
    obtain ⟨rfl, -⟩ := List.cons_eq_cons.1 tail
    exact passes_opener_iff.1 passes (mem_visible ground')

theorem Ahead.outermost {between : List Span} (h : Ahead '{' 0 0 back between)
    (same : ps = front ++ back) (ground : bracketsBehind? 0 front = some 0) :
    Outermost ps (written front).length ((written front).length + (written between).length) where
  le := Nat.le_add_right _ _
  opens := by
    obtain ⟨⟨behind, rfl⟩, brackets, -⟩ := h
    refine ⟨front ++ between, behind, by rw [same, List.append_assoc], ?_, ?_⟩
    · rwa [bracketsBehind?_right ground]
    · rw [written_append, List.length_append]
  apart k le lt opens := absurd (h.le same ground opens le) (by omega)

/-- The next block is opened by the first structural brace. -/
theorem next_iff (same : ps = front ++ back)
    (ground : bracketsBehind? 0 front = some 0) :
    (Outermost ps (written front).length i ∧ ∀ k, Outermost ps (written front).length k → i ≤ k) ↔
      ∃ between, Ahead '{' 0 0 back between ∧
        i = (written front).length + (written between).length := by
  constructor
  · rintro ⟨⟨le, opens, -⟩, least⟩
    obtain ⟨front', behind, same', ground', rfl⟩ := opens
    obtain ⟨between, rfl, rfl⟩ := exists_append_of_le (same.symm.trans same') le
    rw [bracketsBehind?_right ground] at ground'
    have length : (written (front ++ between)).length =
        (written front).length + (written between).length := by
      rw [written_append, List.length_append]
    refine ⟨between, ⟨⟨behind, rfl⟩, ground', passes_opener_iff.2 fun mem => ?_⟩, length⟩
    obtain ⟨first, more, rfl, brackets, none⟩ :=
      exists_first_visible (by rw [ground']; rfl) mem
    have ahead : Ahead '{' 0 0 (first ++ .plain '{' :: more ++ .plain '{' :: behind) first :=
      ⟨⟨more ++ .plain '{' :: behind, by simp⟩, brackets, passes_opener_iff.2 none⟩
    have earlier := least _ (ahead.outermost same ground)
    simp only [written_append, written_cons, Span.chars, List.length_append, List.length_cons,
      List.length_nil] at earlier
    omega
  · rintro ⟨between, ahead, rfl⟩
    exact ⟨ahead.outermost same ground, fun k outer => ahead.le same ground outer.opens outer.le⟩

/-- Where no string ends behind a backslash, the searches for braces find the structural ones. -/
theorem findsBraces (legible : Legible [] ps) (nested : (bracketsBehind? 0 ps).isSome)
    (plain : ∀ p ∈ ps, p.EndsPlainly) : FindsBraces ps where
  closes _ opens _ balances := closing_of_balances legible nested plain opens balances
  open' _ opens unbalanced := closing_of_open legible nested plain opens unbalanced
  next start stop outside i := by
    obtain ⟨front, back, same, ground, rfl⟩ := outside
    rw [next_iff same ground]
    exact find?_written_iff legible nested plain (.inr rfl) same ground stop

/-! ## Strings that end behind a backslash -/

/-- The end of a text is in the brackets that were opened last, or outside of all. -/
theorem exists_hidden_end (nested : (bracketsBehind? 0 ps).isSome) :
    ∃ front back, ps = front ++ back ∧ bracketsBehind? 0 front = some 0 ∧
      visible 0 back = [] := by
  induction ps using List.reverseRecOn with
  | nil => exact ⟨[], [], rfl, rfl, rfl⟩
  | append_singleton ps p ih =>
    obtain ⟨k', whole⟩ := Option.isSome_iff_exists.1 nested
    rw [bracketsBehind?_append] at whole
    obtain ⟨k, before, last⟩ := Option.bind_eq_some_iff.1 whole
    by_cases ground : k' = 0
    · refine ⟨ps ++ [p], [], by simp, ?_, rfl⟩
      rw [bracketsBehind?_append, before, Option.bind_some, last, ground]
    · obtain ⟨front, back, rfl, outside, hidden⟩ := ih (before ▸ rfl)
      refine ⟨front, back ++ [p], List.append_assoc .., outside, ?_⟩
      rw [bracketsBehind?_right outside] at before
      rw [visible_append before, hidden, List.nil_append]
      cases p with
      | plain c =>
        obtain rfl : k = k' := Option.some.inj last
        rw [visible, if_neg ground, visible]
      | opener | closer | quoted | comment | unended => rfl

/-- The first string that ends behind a backslash. -/
theorem exists_first_escape (mem : p ∈ ps) (bad : ¬ p.EndsPlainly) :
    ∃ front quote inner back, ps = front ++ .quoted quote inner :: back ∧
      (∀ p ∈ front, p.EndsPlainly) ∧ inner.getLast? = some '\\' := by
  have found : (ps.find? fun p => !decide p.EndsPlainly).isSome := by
    rw [List.find?_isSome]
    exact ⟨p, mem, by simpa using bad⟩
  obtain ⟨q, found⟩ := Option.isSome_iff_exists.1 found
  obtain ⟨escaped, front, back, rfl, plain⟩ := List.find?_eq_some_iff_append.1 found
  replace escaped : ¬ q.EndsPlainly := by simpa using escaped
  cases q with
  | quoted quote inner =>
    exact ⟨front, quote, inner, back, rfl, fun p mem => by simpa using plain p mem,
      not_not.1 escaped⟩
  | plain | opener | closer | comment | unended => exact absurd trivial escaped

/-- Only the first character of what follows matters to how a text is read. -/
theorem Legible.congr {rest rest' : List Char} (h : Legible rest ps)
    (head : rest.head? = rest'.head?) : Legible rest' ps := by
  have next (ps : List Span) : (written ps ++ rest).head? = (written ps ++ rest').head? := by
    rw [List.head?_append, List.head?_append, head]
  induction h with
  | nil => exact .nil
  | plain single code _ ih => exact .plain single (next _ ▸ code) ih
  | opener _ ih => exact .opener ih
  | closer _ ih => exact .closer ih
  | quoted kind escaped _ ih => exact .quoted kind escaped ih
  | comment closed _ ih => exact .comment closed ih
  | @unended _ _ ps kind escaped last _ ih =>
    refine .unended kind escaped ?_ ih
    rw [← List.head?_eq_none_iff, ← next ps, last, List.head?_nil]

/-- Closing brackets and a brace that opens a block. -/
def reopening (k : Nat) : List Span :=
  List.replicate k .closer ++ [.plain '{']

theorem written_reopening (k : Nat) : written (reopening k) = List.replicate k ']' ++ ['{'] := by
  have closers : ∀ k, written (List.replicate k .closer) = List.replicate k ']' := by
    intro k
    induction k with
    | zero => rfl
    | succ k ih => rw [List.replicate_succ, written_cons, ih, List.replicate_succ]; rfl
  rw [reopening, written_append, closers]
  rfl

theorem legible_reopening (k : Nat) : Legible [] (reopening k) := by
  induction k with
  | zero => exact .plain rfl rfl .nil
  | succ k ih => exact .closer ih

theorem bracketsBehind?_closers (k : Nat) :
    bracketsBehind? k (List.replicate k .closer) = some 0 ∧
      visible k (List.replicate k .closer) = [] := by
  induction k with
  | zero => exact ⟨rfl, rfl⟩
  | succ k ih => simpa [List.replicate_succ, bracketsBehind?, visible] using ih

/-- In quotes these characters are text. -/
theorem escaped_reopening {quote : Char} (kind : isQuote quote = true) (k : Nat) :
    Escaped quote (written (reopening k)) := by
  rw [written_reopening]
  induction k with
  | zero => exact .char (ne_of_holds kind rfl).symm (by decide) .nil
  | succ k ih => exact .char (ne_of_holds kind rfl).symm (by decide) ih

/-- Behind a string that ends behind a backslash a search for the next block finds none. -/
theorem find?_behind_escape {quote : Char} {inner : List Char} (kind : isQuote quote = true)
    (escaped : Escaped quote inner) (last : inner.getLast? = some '\\')
    (legible : Legible [] (front ++ back ++ .quoted quote inner :: reopening k))
    (plain : ∀ p ∈ back, p.EndsPlainly) (brackets : bracketsBehind? 0 back = some k)
    (hidden : visible 0 back = []) (stop : Nat) :
    find? '{' (written (front ++ back ++ .quoted quote inner :: reopening k))
      (written front).length stop = none := by
  rw [List.append_assoc] at legible
  have legibleBack : Legible (quote :: (inner ++ quote :: written (reopening k))) back :=
    (legible_append.1 (legible_append.1 legible).2).1.congr rfl
  have text : written (back ++ .quoted quote inner :: reopening k) =
      written back ++ quote :: (inner ++ quote :: written (reopening k)) := by
    simp [Span.chars]
  rw [List.append_assoc, find?, drop_written, text]
  refine (seek_spans (.inr rfl) legibleBack plain brackets
    (show passes? '{' 0 (visible 0 back) = some 0 by rw [hidden]; rfl)).trans ?_
  rw [seek_quoted kind (.inr rfl) escaped, if_pos last]
  rw [← List.append_nil (written (reopening k)), seek_escaped kind (escaped_reopening kind k)]
  rfl

/-- There is a text behind such a string in which no search finds a block. -/
theorem not_findsBraces {quote : Char} {inner : List Char} (legible : Legible [] ps)
    (nested : (bracketsBehind? 0 ps).isSome) (same : ps = front ++ .quoted quote inner :: back)
    (plain : ∀ p ∈ front, p.EndsPlainly) (last : inner.getLast? = some '\\') :
    ∃ behind, Legible [] (front ++ .quoted quote inner :: behind) ∧
      (bracketsBehind? 0 (front ++ .quoted quote inner :: behind)).isSome ∧
      '\\' ∉ written behind ∧ ¬ FindsBraces (front ++ .quoted quote inner :: behind) := by
  subst same
  obtain ⟨legibleFront, legibleString⟩ := legible_append.1 legible
  cases legibleString with
  | quoted kind escaped _ =>
    obtain ⟨k', whole⟩ := Option.isSome_iff_exists.1 nested
    rw [bracketsBehind?_append] at whole
    obtain ⟨k, open', -⟩ := Option.bind_eq_some_iff.1 whole
    have readable : Legible [] (front ++ .quoted quote inner :: reopening k) :=
      legible_append.2 ⟨legibleFront.congr rfl, .quoted kind escaped (legible_reopening k)⟩
    have brackets : bracketsBehind? 0 (front ++ .quoted quote inner :: reopening k) = some 0 := by
      rw [bracketsBehind?_append, open', Option.bind_some, bracketsBehind?, reopening,
        bracketsBehind?_append, (bracketsBehind?_closers k).1]
      rfl
    refine ⟨reopening k, readable, brackets ▸ rfl, by simp [written_reopening], fun finds => ?_⟩
    have behindFront : (bracketsBehind? 0 front).isSome := by
      rw [open']
      rfl
    obtain ⟨outer, inside, rfl, ground, hidden⟩ := exists_hidden_end behindFront
    rw [bracketsBehind?_right ground] at open'
    have ahead : Ahead '{' 0 0 (inside ++ .quoted quote inner :: reopening k)
        (inside ++ .quoted quote inner :: List.replicate k .closer) := by
      refine ⟨⟨[], by simp [reopening]⟩, ?_, ?_⟩
      · rw [bracketsBehind?_append, open']
        exact (bracketsBehind?_closers k).1
      · rw [visible_append open', hidden, List.nil_append, visible, (bracketsBehind?_closers k).2]
        rfl
    have next := (next_iff (List.append_assoc ..) ground).2 ⟨_, ahead, rfl⟩
    have found := (finds.next _ _ ⟨_, _, List.append_assoc .., ground, rfl⟩ _).2
      ⟨Nat.lt_succ_self _, next⟩
    rw [find?_behind_escape kind escaped last readable
      (fun p mem => plain p (List.mem_append_right _ mem)) open' hidden] at found
    cases found

/-- A search finds the structural braces in each text that starts like this one and has no
backslash behind that just if no string of this text ends behind a backslash. -/
theorem findsBraces_iff (legible : Legible [] ps) (nested : (bracketsBehind? 0 ps).isSome) :
    (∀ front behind, front <+: ps → Legible [] (front ++ behind) →
        (bracketsBehind? 0 (front ++ behind)).isSome → '\\' ∉ written behind →
          FindsBraces (front ++ behind)) ↔
      ∀ p ∈ ps, p.EndsPlainly := by
  constructor
  · intro finds p mem
    by_contra bad
    obtain ⟨front, quote, inner, back, rfl, plain, escape⟩ := exists_first_escape mem bad
    obtain ⟨behind, legible', nested', none, misses⟩ :=
      not_findsBraces legible nested rfl plain escape
    rw [List.append_cons] at legible' nested' misses
    exact misses (finds _ behind ⟨back, by simp⟩ legible' nested' none)
  · rintro plain front behind ⟨rest, rfl⟩ legible nested none
    refine findsBraces legible nested fun p mem => ?_
    obtain mem | mem := List.mem_append.1 mem
    · exact plain p (List.mem_append_left _ mem)
    · exact endsPlainly_of_noBackslash none mem

/-- In `{"\"}"}` all braces are found, whatever follows, and behind `"\\"` they are not. -/
theorem findsBraces_iff_escapes :
    (∀ front behind,
      front <+: [.plain '{', .quoted '"' ['\\', '"', '}'], .plain '}'] →
        Legible [] (front ++ behind) → (bracketsBehind? 0 (front ++ behind)).isSome →
          '\\' ∉ written behind → FindsBraces (front ++ behind)) ∧
      ¬ ∀ front behind, front <+: [.quoted '"' ['\\', '\\']] →
        Legible [] (front ++ behind) → (bracketsBehind? 0 (front ++ behind)).isSome →
          '\\' ∉ written behind → FindsBraces (front ++ behind) := by
  have string : Escaped '"' ['\\', '"', '}'] :=
    .escape (.char (by decide) (by decide) .nil)
  constructor
  · rw [findsBraces_iff (.plain rfl rfl (.quoted rfl string (.plain rfl rfl .nil))) rfl]
    decide
  · rw [findsBraces_iff (.quoted rfl (.escape .nil) .nil) rfl]
    decide

end NestedStyles.Block
