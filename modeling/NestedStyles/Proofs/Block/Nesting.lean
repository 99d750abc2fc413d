import NestedStyles.Proofs.Block.Joined

/-!
# Blocks inside of blocks

The brace that closes a block and the one that closes a block nested in it are found by scans of
their own. Each counts the square brackets from where it starts, and the count goes below zero where
more are closed than opened. So the scan of the block around may see braces that the scan of the
nested one takes to be in brackets.

A nested block ends inside of the block around it, whatever follows its brace, just if there is no
such surplus in front of it (`closing_le_closing_iff`). Where no nested block has one, every
character is read once and no block is reported as left open (`nested_iff`).
-/

namespace NestedStyles.Block

open Text

variable {cfg : Config} {t c : Char} {σ τ : Scan} {i k start stop pos outer inner : Nat}
  {s u v rest text : List Char} {next : Option Char}

/-! ## The state behind a text -/

/-- The state after a text that `next` follows. -/
def Scan.advance (σ : Scan) : List Char → Option Char → Scan
  | [], _ => σ
  | c :: s, next => (σ.step c (s.head?.or next)).advance s next

theorem Scan.advance_append :
    σ.advance (u ++ v) next = (σ.advance u (v.head?.or next)).advance v next := by
  induction u generalizing σ with
  | nil => rfl
  | cons c u ih => rw [List.cons_append, advance, advance, ih, List.head?_append, Option.or_assoc]

/-- A search goes on behind a text in which it finds nothing. -/
theorem seek_passed (brace : t = '}' ∨ t = '{') (none : seek t (pos + u.length) σ pos u = none) :
    seek t stop σ pos (u ++ rest) =
      seek t stop (σ.advance u rest.head?) (pos + u.length) rest := by
  induction u generalizing σ pos with
  | nil => rfl
  | cons c u ih =>
    have here : pos < pos + (c :: u).length := by simp
    rw [seek, if_neg (Nat.not_le.2 here), add_length_cons] at none
    split at none
    · cases none
    · rename_i other
      have other' : (c == t && σ.depth == 0 && σ.sees c (u ++ rest).head?) = false := by
        by_cases same : c = t
        · subst same
          rw [Scan.sees_brace brace]
          exact eq_false_of_ne_true other
        · rw [beq_false_of_ne same]
          rfl
      rw [List.cons_append, seek_next other', List.head?_append, add_length_cons]
      apply ih
      cases u with
      | nil => rfl
      | cons d u => exact none

/-- The state in front of the character that a search finds. -/
theorem exists_advance_of_seek (h : seek t stop σ pos s = some i) :
    ∃ u v, s = u ++ t :: v ∧ pos + u.length = i ∧ (σ.advance u (some t)).depth = 0 ∧
      (σ.advance u (some t)).sees t v.head? = true := by
  fun_induction seek t stop σ pos s with
  | case1 | case2 => cases h
  | case3 σ pos c s room here =>
    obtain rfl : pos = i := Option.some.inj h
    obtain ⟨⟨rfl, ground⟩, seen⟩ : (c = t ∧ σ.depth = 0) ∧ σ.sees c s.head? = true := by
      simpa using here
    exact ⟨[], s, rfl, rfl, ground, seen⟩
  | case4 σ pos c s room other ih =>
    obtain ⟨u, v, rfl, rfl, ground, seen⟩ := ih h
    have first : (u ++ t :: v).head? = u.head?.or (some t) := by
      rw [List.head?_append, List.head?_cons]
    rw [first] at ground seen
    exact ⟨c :: u, v, rfl, by rw [List.length_cons]; omega, ground, seen⟩

/-! ## Two scans of one text -/

/-- Both scans are in the same region, and the first one has counted no more brackets. -/
structure Scan.Beneath (σ τ : Scan) : Prop where
  region : σ.region = τ.region
  brackets : σ.brackets ≤ τ.brackets

/-- Whether a character is counted as a bracket does not depend on the brackets counted. -/
theorem Scan.exists_step (region : Region) (c : Char) (next : Option Char) :
    ∃ region' more, ∀ brackets depth,
      ((Scan.mk region brackets depth).step c next).region = region' ∧
        ((Scan.mk region brackets depth).step c next).brackets = brackets + more := by
  cases region with
  | quoted | opening | comment => exact ⟨_, 0, fun _ _ => ⟨rfl, (Int.add_zero _).symm⟩⟩
  | code =>
    cases opens : opensComment c next with
    | true => exact ⟨.opening, 0, by simp [step, opens]⟩
    | false =>
    cases quote : c == '"' || c == '\'' with
    | true => exact ⟨.quoted c false, 0, by simp only [step, opens, quote]; simp⟩
    | false =>
    cases opener : c == '[' with
    | true => exact ⟨.code, 1, by simp only [step, opens, quote, opener]; simp⟩
    | false =>
    cases closer : c == ']' with
    | true =>
      refine ⟨.code, -1, fun brackets depth => ?_⟩
      simp only [step, opens, quote, opener, closer]
      simp [Int.sub_eq_add_neg]
    | false =>
      refine ⟨.code, 0, fun brackets depth => ?_⟩
      simp only [step, opens, quote, opener, closer, Bool.false_eq_true, if_false]
      split_ifs <;> simp

namespace Scan.Beneath

theorem refl (σ : Scan) : σ.Beneath σ :=
  ⟨rfl, Int.le_refl _⟩

theorem trans {υ : Scan} (h : σ.Beneath τ) (h' : τ.Beneath υ) : σ.Beneath υ :=
  ⟨h.region.trans h'.region, Int.le_trans h.brackets h'.brackets⟩

theorem step (h : σ.Beneath τ) (c : Char) (next : Option Char) :
    (σ.step c next).Beneath (τ.step c next) := by
  obtain ⟨region, brackets, depth⟩ := σ
  obtain ⟨region', brackets', depth'⟩ := τ
  obtain ⟨rfl, le⟩ := h
  obtain ⟨_, more, moves⟩ := exists_step region c next
  obtain ⟨here, count⟩ := moves brackets depth
  obtain ⟨here', count'⟩ := moves brackets' depth'
  refine ⟨here.trans here'.symm, ?_⟩
  rw [count, count']
  exact Int.add_le_add_right le more

theorem advance (h : σ.Beneath τ) (s : List Char) (next : Option Char) :
    (σ.advance s next).Beneath (τ.advance s next) := by
  induction s generalizing σ τ with
  | nil => exact h
  | cons c s ih => exact ih (h.step c _)

/-- A scan that has counted no brackets sees the braces. -/
theorem step_opener (h : σ.Beneath .initial) (next : Option Char) :
    σ.step '{' next = { σ with depth := σ.depth + 1 } := by
  obtain ⟨region, brackets, depth⟩ := σ
  obtain ⟨rfl, le⟩ := h
  have visible : ¬ 0 < brackets := Int.not_lt.2 le
  simp [Scan.step, Scan.initial, opensComment, visible]

theorem step_closer (h : σ.Beneath .initial) (next : Option Char) :
    σ.step '}' next = { σ with depth := σ.depth - 1 } := by
  obtain ⟨region, brackets, depth⟩ := σ
  obtain ⟨rfl, le⟩ := h
  have visible : ¬ 0 < brackets := Int.not_lt.2 le
  simp [Scan.step, Scan.initial, opensComment, visible]

theorem after_opener (h : σ.Beneath .initial) (next : Option Char) :
    (σ.step '{' next).Beneath .initial := by
  rw [h.step_opener]
  exact ⟨h.region, h.brackets⟩

theorem after_closer (h : σ.Beneath .initial) (next : Option Char) :
    (σ.step '}' next).Beneath .initial := by
  rw [h.step_closer]
  exact ⟨h.region, h.brackets⟩

end Scan.Beneath

/-- The state with so many braces more that are open. -/
def Scan.deeper (k : Nat) (σ : Scan) : Scan :=
  { σ with depth := σ.depth + k }

/-- Unless a brace closes what is open without them, it is nothing to the braces around. -/
theorem Scan.step_deeper (other : ¬ (c = '}' ∧ σ.depth = 0 ∧ σ.sees c next = true)) :
    (σ.deeper k).step c next = (σ.step c next).deeper k := by
  obtain ⟨region, brackets, depth⟩ := σ
  cases region with
  | quoted | opening | comment => rfl
  | code =>
    by_cases hidden : 0 < brackets
    · simp only [step, deeper, hidden, if_true]
      split_ifs <;> rfl
    by_cases closes : c = '}'
    · subst closes
      have inside : depth ≠ 0 := by
        intro ground
        exact other ⟨rfl, ground, by simpa [sees, opensComment, isDelimiter] using hidden⟩
      simp only [step, deeper, hidden]
      simp [opensComment]
      omega
    · have notCloser : (c == '}') = false := beq_false_of_ne closes
      simp only [step, deeper, hidden, notCloser, Bool.false_eq_true, if_false]
      split_ifs <;> simp [Nat.add_right_comm]

/-- A block around is closed behind the block that is nested in it. -/
theorem exists_seek_of_deeper (around : 0 < k) (h : seek '}' stop (σ.deeper k) pos s = some i) :
    ∃ j < i, seek '}' stop σ pos s = some j := by
  induction s generalizing σ pos with
  | nil => cases h
  | cons c s ih =>
    have above : ((σ.deeper k).depth == 0) = false := by
      simp [Scan.deeper]
      omega
    rw [seek] at h ⊢
    simp only [above, Bool.and_false, Bool.false_and, Bool.false_eq_true, if_false] at h
    split
    · rename_i ended
      rw [if_pos ended] at h
      cases h
    · rename_i room
      rw [if_neg room] at h
      split
      · have bounds := bounds_of_seek h
        exact ⟨pos, by omega, rfl⟩
      · rename_i other
        apply ih
        rwa [← Scan.step_deeper (by simpa [and_assoc] using other)]

/-! ## The state at a position -/

/-- The state of a scan that starts at `start`, in front of position `i`. -/
def stateAt (text : List Char) (start i : Nat) : Scan :=
  Scan.initial.advance (slice text start i) text[i]?

theorem slice_append_slice (text : List Char) (le : start ≤ i) (le' : i ≤ k) :
    slice text start i ++ slice text i k = slice text start k := by
  have apart : k - start = (i - start) + (k - i) := by omega
  rw [slice, slice, slice, apart, List.take_add, List.drop_drop, Nat.add_sub_cancel' le]

theorem head?_slice_or (text : List Char) (le : start ≤ i) :
    (slice text start i).head?.or text[i]? = text[start]? := by
  rw [← List.head?_drop, ← List.head?_drop, ← List.head?_append, ← drop_eq_slice_append text le]

theorem slice_of_getElem? (here : text[i]? = some c) (lt : i < k) :
    slice text i k = c :: slice text (i + 1) k := by
  obtain ⟨room, rfl⟩ := List.getElem?_eq_some_iff.1 here
  have apart : k - i = (k - (i + 1)) + 1 := by omega
  rw [slice, slice, List.drop_eq_getElem_cons room, apart, List.take_succ_cons]

theorem stateAt_self (text : List Char) (start : Nat) : stateAt text start start = .initial := by
  rw [stateAt, slice, Nat.sub_self, List.take_zero, Scan.advance]

/-- A scan goes on from any position as from where it starts. -/
theorem stateAt_trans (text : List Char) (le : start ≤ i) (le' : i ≤ k) :
    stateAt text start k = (stateAt text start i).advance (slice text i k) text[k]? := by
  rw [stateAt, stateAt, ← slice_append_slice text le le', Scan.advance_append,
    head?_slice_or text le']

theorem stateAt_succ (here : text[i]? = some c) (le : start ≤ i) :
    stateAt text start (i + 1) = (stateAt text start i).step c text[i + 1]? := by
  have single : slice text i (i + 1) = [c] := by
    rw [slice_of_getElem? here (Nat.lt_succ_self i), slice, Nat.sub_self, List.take_zero]
  rw [stateAt_trans text le (Nat.le_succ i), single]
  rfl

/-- What a search finds is a character outside of strings, comments, brackets and braces. -/
theorem stateAt_of_find? (h : find? t text start stop = some i) :
    text[i]? = some t ∧ (stateAt text start i).Beneath .initial ∧
      (stateAt text start i).depth = 0 := by
  obtain ⟨u, v, cut, length, ground, seen⟩ := exists_advance_of_seek h
  have le : start ≤ i := (bounds_of_find? h).1
  have here : text[i]? = some t := by
    rw [← List.head?_drop, ← length, ← List.drop_drop, cut, List.drop_left, List.head?_cons]
  have front : slice text start i = u := by
    rw [slice, cut, ← length, Nat.add_sub_cancel_left, List.take_left]
  have visible : ((Scan.initial.advance u (some t)).region = .code ∧
      (Scan.initial.advance u (some t)).brackets ≤ 0) := by
    simp only [Scan.sees, Bool.and_eq_true, beq_iff_eq, decide_eq_true_eq] at seen
    exact ⟨seen.1.1.1, seen.1.1.2⟩
  rw [stateAt, front, here]
  exact ⟨rfl, ⟨visible.1, visible.2⟩, ground⟩

/-! ## Blocks nested in a block -/

/-- Inside of the block opened at `outer`, the reader looks for a nested block from `start` on. -/
inductive Within (text : List Char) (outer : Nat) : Nat → Prop
  | first : Within text outer (outer + 1)
  | next {start inner : Nat} (before : Within text outer start)
      (found : find? '{' text start (closing text outer) = some inner) :
      Within text outer (closing text inner + 1)

/-- The square brackets closed between two braces less those opened there, as they are counted from
the first one on. -/
def surplus (text : List Char) (outer inner : Nat) : Int :=
  -(stateAt text (outer + 1) inner).brackets

/-- The scan of a block sees each brace that the scan of a part of it sees. -/
theorem Scan.Beneath.stateAt (le : k ≤ start) (beneath : (stateAt text k start).Beneath .initial)
    (h : find? t text start stop = some i) : (Block.stateAt text k i).Beneath .initial := by
  rw [stateAt_trans text le (bounds_of_find? h).1]
  exact (beneath.advance _ _).trans (stateAt_of_find? h).2.1

theorem find?_of_closing_lt (closed : closing text inner < text.length) :
    find? '}' text (inner + 1) text.length = some (closing text inner) := by
  rw [closing] at closed ⊢
  cases found : find? '}' text (inner + 1) text.length with
  | none =>
    rw [found, Option.getD_none] at closed
    exact absurd closed (Nat.lt_irrefl _)
  | some i => rfl

/-- Inside of a block its scan is in code and in no brackets wherever a nested one is looked for. -/
theorem Within.beneath (h : Within text outer start) :
    outer + 1 ≤ start ∧
      (start ≤ closing text outer → (stateAt text (outer + 1) start).Beneath .initial) := by
  induction h with
  | first => exact ⟨le_rfl, fun _ => stateAt_self text _ ▸ .refl _⟩
  | @next start inner _ found ih =>
    obtain ⟨from_start, lt, room⟩ := bounds_of_find? found
    have opened := lt_closing room
    refine ⟨by omega, fun within => ?_⟩
    have closed : closing text inner < text.length :=
      (Nat.lt_of_succ_le within).trans_le (closing_le outer)
    have here := (ih.2 (by omega)).stateAt ih.1 found
    have inside : (stateAt text (outer + 1) (inner + 1)).Beneath .initial := by
      rw [stateAt_succ (stateAt_of_find? found).1 (by omega)]
      exact here.after_opener _
    have found' := find?_of_closing_lt closed
    rw [stateAt_succ (stateAt_of_find? found').1 (by omega)]
    exact (inside.stateAt (by omega) found').after_closer _

theorem length_slice_of_le (le : start ≤ i) (within : i ≤ text.length) :
    start + (slice text start i).length = i := by
  rw [slice, List.length_take, List.length_drop]
  omega

/-- A block is not closed in front of the brace that closes it. -/
theorem seek_before_closing (le : outer + 1 ≤ i) (before : i ≤ closing text outer) :
    seek '}' i .initial (outer + 1) (slice text (outer + 1) i) = none := by
  have within : i ≤ text.length := before.trans (closing_le outer)
  have length := length_slice_of_le le within
  cases found : seek '}' i .initial (outer + 1) (slice text (outer + 1) i) with
  | none => rfl
  | some j =>
    rw [← seek_append (.inl rfl) length.ge, ← drop_eq_slice_append text le] at found
    have found' : find? '}' text (outer + 1) text.length = some j := seek_mono found within
    have bounds := bounds_of_seek found
    rw [closing, found', Option.getD_some] at before
    omega

/-- Behind the brace of a nested block the scan of the block around goes on one brace deeper,
whatever follows. -/
theorem closing_take (h : Within text outer start)
    (found : find? '{' text start (closing text outer) = some inner) (rest : List Char) :
    closing (text.take (inner + 1) ++ rest) outer =
      (seek '}' (text.take (inner + 1) ++ rest).length
        ⟨.code, -surplus text outer inner, (stateAt text (outer + 1) inner).depth + 1⟩
          (inner + 1) rest).getD (text.take (inner + 1) ++ rest).length := by
  obtain ⟨first, within⟩ := h.beneath
  obtain ⟨from_start, lt, room⟩ := bounds_of_find? found
  obtain ⟨here, -⟩ := stateAt_of_find? found
  have beneath := (within (by omega)).stateAt first found
  have length : (text.take (inner + 1)).length = inner + 1 := List.length_take_of_le room
  have length' : outer + 1 + (slice text (outer + 1) (inner + 1)).length = inner + 1 :=
    length_slice_of_le (by omega) (by omega)
  have behind : (text.take (inner + 1) ++ rest).drop (outer + 1) =
      slice text (outer + 1) (inner + 1) ++ rest := by
    rw [List.drop_append_of_le_length (by omega), List.drop_take, slice]
  have last : slice text inner (inner + 1) = ['{'] := by
    rw [slice_of_getElem? here (Nat.lt_succ_self inner), slice, Nat.sub_self, List.take_zero]
  have state : Scan.initial.advance (slice text (outer + 1) (inner + 1)) rest.head? =
      ⟨.code, -surplus text outer inner, (stateAt text (outer + 1) inner).depth + 1⟩ := by
    rw [← slice_append_slice text (by omega : outer + 1 ≤ inner) (Nat.le_succ inner), last,
      Scan.advance_append, List.head?_cons, Option.some_or, ← here]
    show (stateAt text (outer + 1) inner).step '{' _ = _
    rw [beneath.step_opener, surplus, Int.neg_neg, beneath.region]
    rfl
  have passed : seek '}' (text.take (inner + 1) ++ rest).length .initial (outer + 1)
      (slice text (outer + 1) (inner + 1) ++ rest) = _ :=
    seek_passed (.inl rfl) (by rw [length']; exact seek_before_closing (by omega) (by omega))
  rw [closing, find?, behind, passed, state, length']

theorem closing_take_self (room : inner < text.length) (rest : List Char) :
    closing (text.take (inner + 1) ++ rest) inner =
      (seek '}' (text.take (inner + 1) ++ rest).length .initial (inner + 1) rest).getD
        (text.take (inner + 1) ++ rest).length := by
  rw [closing, find?, List.drop_left' (List.length_take_of_le room)]

/-- A scan that is in no brackets goes out of one brace after the other. -/
theorem seek_closers {brackets : Int} {depth : Nat} (visible : brackets ≤ 0)
    (room : pos + depth < stop) :
    seek '}' stop ⟨.code, brackets, depth⟩ pos (List.replicate (depth + 1) '}') =
      some (pos + depth) := by
  induction depth generalizing pos with
  | zero =>
    rw [List.replicate_succ, seek, if_neg (by omega), if_pos]
    · rfl
    · simp [Scan.sees, opensComment, Scan.isDelimiter, visible]
  | succ depth ih =>
    have beneath : (Scan.mk .code brackets (depth + 1)).Beneath .initial := ⟨rfl, visible⟩
    have further : pos + (depth + 1) = pos + 1 + depth := by omega
    rw [List.replicate_succ, seek, if_neg (by omega), if_neg (by simp), beneath.step_closer,
      further]
    exact ih (by omega)

/-- A scan that is in brackets does not come out of a block. -/
theorem seek_closers_hidden {brackets : Int} {depth n : Nat} (hidden : 0 < brackets) :
    seek '}' stop ⟨.code, brackets, depth⟩ pos (List.replicate n '}') = none := by
  induction n generalizing pos with
  | zero => rfl
  | succ n ih =>
    have stays : ∀ next, (Scan.mk .code brackets depth).step '}' next =
        ⟨.code, brackets, depth⟩ := by
      simp [Scan.step, opensComment, hidden]
    rw [List.replicate_succ, seek, stays, ih]
    simp [Scan.sees, Int.not_le.2 hidden]

/-- Two scans that have counted the same brackets come out of the nested block first. -/
theorem closing_lt_of_even (h : Within text outer start)
    (found : find? '{' text start (closing text outer) = some inner)
    (even : surplus text outer inner = 0) (rest : List Char)
    (closed : closing (text.take (inner + 1) ++ rest) outer <
      (text.take (inner + 1) ++ rest).length) :
    closing (text.take (inner + 1) ++ rest) inner <
      closing (text.take (inner + 1) ++ rest) outer := by
  have deeper : (Scan.mk .code (-surplus text outer inner)
      ((stateAt text (outer + 1) inner).depth + 1)) =
        Scan.initial.deeper ((stateAt text (outer + 1) inner).depth + 1) := by
    rw [even, Scan.deeper, Scan.initial, Nat.zero_add]
    rfl
  rw [closing_take h found, deeper] at closed ⊢
  rw [closing_take_self (bounds_of_find? found).2.2]
  cases ends : seek '}' (text.take (inner + 1) ++ rest).length
      (Scan.initial.deeper ((stateAt text (outer + 1) inner).depth + 1)) (inner + 1) rest with
  | none =>
    rw [ends, Option.getD_none] at closed
    exact absurd closed (Nat.lt_irrefl _)
  | some i =>
    obtain ⟨j, lt, ends'⟩ := exists_seek_of_deeper (Nat.succ_pos _) ends
    rw [ends']
    exact lt

theorem closing_lt_closing (h : Within text outer start)
    (found : find? '{' text start (closing text outer) = some inner)
    (even : surplus text outer inner = 0) (closed : closing text outer < text.length) :
    closing text inner < closing text outer := by
  have lt := closing_lt_of_even h found even (text.drop (inner + 1))
  rw [List.take_append_drop] at lt
  exact lt closed

/-- Behind a surplus one bracket hides the braces that follow it from the scan of the nested block
only, which runs to the end of the text then. -/
theorem exists_closing_lt (h : Within text outer start)
    (found : find? '{' text start (closing text outer) = some inner)
    (uneven : 0 < surplus text outer inner) :
    ∃ rest, closing (text.take (inner + 1) ++ rest) outer <
      closing (text.take (inner + 1) ++ rest) inner := by
  have room := (bounds_of_find? found).2.2
  let depth := (stateAt text (outer + 1) inner).depth
  let rest := '[' :: List.replicate (depth + 2) '}'
  have total : (text.take (inner + 1) ++ rest).length = inner + depth + 4 := by
    rw [List.length_append, List.length_take_of_le room, List.length_cons, List.length_replicate]
    omega
  have hidden : closing (text.take (inner + 1) ++ rest) inner = inner + depth + 4 := by
    have passed : seek '}' (inner + depth + 4) .initial (inner + 1) rest = none := by
      rw [seek, if_neg (by omega), if_neg (by simp)]
      exact seek_closers_hidden (by decide)
    rw [closing_take_self room, total, passed, Option.getD_none]
  have closed : closing (text.take (inner + 1) ++ rest) outer = inner + depth + 3 := by
    have opened : (Scan.mk .code (-surplus text outer inner) (depth + 1)).step '['
        (List.replicate (depth + 2) '}').head? =
          ⟨.code, -surplus text outer inner + 1, depth + 1⟩ := by
      simp [Scan.step, opensComment]
    have passed : seek '}' (inner + depth + 4)
        ⟨.code, -surplus text outer inner, depth + 1⟩ (inner + 1) rest =
          some (inner + depth + 3) := by
      rw [seek, if_neg (by omega), if_neg (by simp), opened, seek_closers (by omega) (by omega)]
      congr 1
      omega
    rw [closing_take h found, total, passed, Option.getD_some]
  refine ⟨rest, ?_⟩
  rw [hidden, closed]
  omega

/-- A nested block is closed inside of the block around it, whatever follows its brace, just if no
square bracket is closed in front of it that was not opened in the block around. -/
theorem closing_le_closing_iff (h : Within text outer start)
    (found : find? '{' text start (closing text outer) = some inner) :
    (∀ rest, closing (text.take (inner + 1) ++ rest) inner ≤
        closing (text.take (inner + 1) ++ rest) outer) ↔
      surplus text outer inner = 0 := by
  obtain ⟨first, within⟩ := h.beneath
  obtain ⟨from_start, lt, -⟩ := bounds_of_find? found
  have beneath := (within (by omega)).stateAt first found
  have nonneg : 0 ≤ surplus text outer inner := Int.neg_nonneg.2 beneath.brackets
  constructor
  · intro nests
    by_contra uneven
    obtain ⟨rest, crosses⟩ := exists_closing_lt h found (by omega)
    exact absurd (nests rest) (Nat.not_le.2 crosses)
  · intro even rest
    obtain closed | ends := Nat.lt_or_ge (closing (text.take (inner + 1) ++ rest) outer)
      (text.take (inner + 1) ++ rest).length
    · exact (closing_lt_of_even h found even rest closed).le
    · exact (closing_le inner).trans ends

/-! ## Blocks that nest -/

/-- From `start` on inside of the block opened at `outer`, no nested block has a surplus in front of
it, nor has one nested in it. -/
inductive Level (text : List Char) : Nat → Nat → Prop
  | last {outer start : Nat} (none : find? '{' text start (closing text outer) = none) :
    Level text outer start
  | block {outer start inner : Nat}
      (found : find? '{' text start (closing text outer) = some inner)
      (even : surplus text outer inner = 0) (inside : Level text inner (inner + 1))
      (next : Level text outer (closing text inner + 1)) : Level text outer start

/-- The outline of the inside of a block, written out again. -/
def Blocks.chars : Blocks → List Char
  | .last s => s
  | .block front inside next => front ++ '{' :: (inside.chars ++ '}' :: next.chars)

/-- Where the blocks nest, each character is in one place of the outline. -/
theorem Level.chars_blocks (h : Level text outer start) (within : Within text outer start)
    (room : start ≤ closing text outer) (closed : closing text outer < text.length) :
    (blocks text start (closing text outer)).chars = slice text start (closing text outer) := by
  induction h with
  | last none => rw [blocks_of_none (closing_le _) none, Blocks.chars]
  | @block outer start inner found even _ _ ihInside ihNext =>
    obtain ⟨from_start, lt, inText⟩ := bounds_of_find? found
    have opened : inner < closing text inner := lt_closing inText
    have nests := closing_lt_closing within found even closed
    have closed' := nests.trans closed
    have open' := (stateAt_of_find? found).1
    have close' := (stateAt_of_find? (find?_of_closing_lt closed')).1
    rw [blocks_of_some (closing_le _) found, Blocks.chars, ihInside .first opened closed',
      ihNext (within.next found) nests closed, ← slice_of_getElem? close' nests,
      slice_append_slice text opened nests.le, ← slice_of_getElem? open' lt,
      slice_append_slice text from_start lt.le]

theorem noneOpen_readContent (number : Nat) (s : List Char) :
    NoneOpen (readContent number s).reports := by
  have own : ∀ ls number, NoneOpen (readLines number ls).reports := by
    intro ls
    induction ls with
    | nil => exact fun _ _ mem => absurd mem List.not_mem_nil
    | cons line ls ih =>
      intro number
      rw [readLines, Reported.reports_append, noneOpen_append]
      refine ⟨?_, ih (number + 1)⟩
      cases ContentLine.ofTrimmed (trim line) <;> simp [NoneOpen, ContentLine.contribution]
  exact own _ number

theorem NoneOpen.nested {line : Nat} {header : List Char} {r : Reported Body}
    (h : NoneOpen r.reports) : NoneOpen (Block.nested cfg line header r).reports := by
  unfold Block.nested
  split
  · simp [NoneOpen]
  · split
    · simp [NoneOpen]
    · exact h

/-- Where the blocks nest, none of them is reported as left open. -/
theorem Level.noneOpen (h : Level text outer start) (within : Within text outer start)
    (closed : closing text outer < text.length) :
    NoneOpen (readBody cfg text start (closing text outer)).reports := by
  induction h with
  | @last outer start none =>
    by_cases room : start < closing text outer
    · rw [readBody_of_none room (closing_le _) none]
      exact noneOpen_readContent _ _
    · rw [readBody_of_le (Nat.not_lt.1 room)]
      exact fun _ mem => absurd mem List.not_mem_nil
  | @block outer start inner found even _ _ ihInside ihNext =>
    obtain ⟨from_start, lt, inText⟩ := bounds_of_find? found
    have closed' := (closing_lt_closing within found even closed).trans closed
    rw [readBody_of_some (from_start.trans_lt lt) (closing_le _) found closed']
    simp only [Reported.reports_append, noneOpen_append]
    exact ⟨noneOpen_readContent _ _, (ihInside .first closed').nested,
      ihNext (within.next found) closed⟩

/-- A nested block is closed inside of the block around it, whatever follows its brace, just if it
has no surplus in front of it. Where none has, each character of the block is in one place of its
outline and no block is reported as left open. -/
theorem nested_iff (cfg : Config) (text : List Char) (outer : Nat) :
    (∀ start inner, Within text outer start →
      find? '{' text start (closing text outer) = some inner →
        ((∀ rest, closing (text.take (inner + 1) ++ rest) inner ≤
            closing (text.take (inner + 1) ++ rest) outer) ↔
          surplus text outer inner = 0)) ∧
      (Level text outer (outer + 1) → closing text outer < text.length →
        (blocks text (outer + 1) (closing text outer)).chars =
            slice text (outer + 1) (closing text outer) ∧
          NoneOpen (readBody cfg text (outer + 1) (closing text outer)).reports) := by
  refine ⟨fun start inner => closing_le_closing_iff, fun level closed => ?_⟩
  have room := (bounds_of_find? (find?_of_closing_lt closed)).1
  exact ⟨level.chars_blocks .first room closed, level.noneOpen .first closed⟩

/-- A bracket is closed in front of a nested block and one is opened in it. -/
def crossed : List Char :=
  ".a \x7b ] .b \x7b [ \x7d \x7d".toList

/-- Brackets and quotes are in disorder, and each that is closed in front of a nested block was
opened there. -/
def uncrossed : List Char :=
  ".a \x7b [\x7b] .b \x7b ] ' \x7d ' \x7d [ .c \x7b \x7d \x7d".toList

theorem nested_iff_crossed :
    (∃ rest, closing (crossed.take 11 ++ rest) 3 < closing (crossed.take 11 ++ rest) 10) ∧
      (blocks uncrossed 4 (closing uncrossed 3)).chars =
        slice uncrossed 4 (closing uncrossed 3) := by
  have found : find? '{' crossed 4 (closing crossed 3) = some 10 := by decide +kernel
  have uneven : surplus crossed 3 10 = 1 := by decide +kernel
  have level : Level uncrossed 3 4 := by
    refine .block (by decide +kernel : find? '{' uncrossed 4 (closing uncrossed 3) = some 12)
      (by decide +kernel) (.last (by decide +kernel)) (.last (by decide +kernel))
  constructor
  · have nests := (nested_iff .standard crossed 3).1 4 10 .first found
    rw [uneven] at nests
    simpa using nests
  · exact ((nested_iff .standard uncrossed 3).2 level (by decide +kernel)).1

end NestedStyles.Block
