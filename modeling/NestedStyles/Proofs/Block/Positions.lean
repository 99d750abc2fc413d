import NestedStyles.Proofs.Block.CommentedLines

/-!
# Positions in a text without its comments

A `Cut` is a position of a text that is inside of no comment, and `kept` tells where it is when the
comments are taken out. Searches, gaps and lines that start at such a position end at such a
position, and at the same one without the comments.
-/

namespace NestedStyles.Block

open Text

variable {text u v : List Char} {p q : Place} {t : Char} {i k : Nat}

/-- Where position `i` of the text is when the comments are taken out. -/
def kept (text : List Char) (i : Nat) : Nat :=
  (stripComments true (text.take i)).length

theorem kept_length (text : List Char) :
    kept text text.length = (stripComments true text).length := by
  rw [kept, List.take_length]

theorem kept_zero (text : List Char) : kept text 0 = 0 := by
  rw [kept, List.take_zero, stripComments_nil, List.length_nil]

/-- Position `i` of a text is inside of no comment, and this place is in front of it. -/
structure Cut (text : List Char) (i : Nat) (p : Place) : Prop where
  room : i ≤ text.length
  before : Spaced (text.drop i) (.code true) (text.take i) p
  behind : ∃ q, Spaced [] p (text.drop i) q

theorem drop_eq_slice_append (text : List Char) {i k : Nat} (le : i ≤ k) :
    text.drop i = slice text i k ++ text.drop k := by
  obtain ⟨n, rfl⟩ := Nat.exists_eq_add_of_le le
  rw [slice, Nat.add_sub_cancel_left, ← List.drop_drop, List.take_append_drop]

namespace Cut

theorem zero (h : Spaced [] (.code true) text q) : Cut text 0 (.code true) :=
  ⟨Nat.zero_le _, .nil, q, h⟩

theorem length (h : Spaced [] (.code true) text q) : Cut text text.length q := by
  refine ⟨le_rfl, ?_, q, ?_⟩
  · rw [List.drop_length, List.take_length]
    exact h
  · rw [List.drop_length]
    exact .nil

theorem stripComments_eq (h : Cut text i p) :
    stripComments true text =
      stripComments true (text.take i) ++ stripComments true (text.drop i) := by
  rw [← h.before.stripComments_append, List.take_append_drop]

theorem drop_stripComments (h : Cut text i p) :
    (stripComments true text).drop (kept text i) = stripComments true (text.drop i) := by
  rw [h.stripComments_eq, kept, List.drop_left]

theorem kept_le (h : Cut text i p) : kept text i ≤ (stripComments true text).length := by
  rw [h.stripComments_eq, List.length_append, kept]
  omega

/-- The position behind a part of the text. -/
theorem move (h : Cut text i p) (rest : text.drop i = u ++ v) (hu : Spaced v p u q) :
    Cut text (i + u.length) q ∧
      kept text (i + u.length) = kept text i + (stripComments true u).length := by
  have whole : text = text.take i ++ u ++ v := by
    rw [List.append_assoc, ← rest, List.take_append_drop]
  have first : (text.take i).length = i := by
    rw [List.length_take, min_eq_left h.room]
  have length : (text.take i ++ u).length = i + u.length := by
    rw [List.length_append, first]
  have front : text.take (i + u.length) = text.take i ++ u := by
    conv_lhs => rw [whole, ← length, List.take_left]
  have back : text.drop (i + u.length) = v := by
    conv_lhs => rw [whole, ← length, List.drop_left]
  have before := h.before
  rw [rest] at before
  obtain ⟨r, behind⟩ := h.behind
  rw [rest] at behind
  have room : i + u.length ≤ text.length := by
    have total := congrArg List.length whole
    rw [List.length_append, length] at total
    omega
  refine ⟨⟨room, ?_, r, ?_⟩, ?_⟩
  · rw [front, back]
    exact before.append hu
  · rw [back]
    exact Spaced.of_append (by rwa [List.append_nil]) behind
  · rw [kept, kept, front, ← List.length_append, before.shorten.stripComments_append]

/-- The position that a way through the text leads to. -/
theorem led {rest : List Char} {m m' : Nat} (h : Cut text i p)
    (leads : Leads rest i (kept text i) p (text.drop i) m m') :
    ∃ free, Cut text m (.code free) ∧ m' = kept text m ∧ text.drop m = rest := by
  obtain ⟨front, free, cut, spaced, rfl, rfl⟩ := leads
  obtain ⟨there, kept_there⟩ := h.move cut spaced
  refine ⟨free, there, kept_there.symm, ?_⟩
  rw [← List.drop_drop, cut, List.drop_left]

/-- The text between two positions. -/
theorem between (hi : Cut text i p) (hk : Cut text k q) (le : i ≤ k) :
    Spaced (text.drop k) p (slice text i k) q := by
  have front : text.take k = text.take i ++ slice text i k := by
    rw [slice, ← List.take_add, Nat.add_sub_cancel' le]
  apply Spaced.of_append (drop_eq_slice_append text le ▸ hi.before)
  rw [← front]
  exact hk.before

theorem length_slice (h : Cut text k q) (le : i ≤ k) : i + (slice text i k).length = k := by
  rw [slice, List.length_take, List.length_drop, min_eq_left (Nat.sub_le_sub_right h.room i)]
  omega

theorem kept_eq (hi : Cut text i p) (hk : Cut text k q) (le : i ≤ k) :
    kept text k = kept text i + (stripComments true (slice text i k)).length := by
  have moved := (hi.move (drop_eq_slice_append text le) (hi.between hk le)).2
  rwa [hk.length_slice le] at moved

theorem drop_stripComments_eq (hi : Cut text i p) (hk : Cut text k q) (le : i ≤ k) :
    (stripComments true text).drop (kept text i) =
      stripComments true (slice text i k) ++ stripComments true (text.drop k) := by
  rw [hi.drop_stripComments, drop_eq_slice_append text le, (hi.between hk le).stripComments_append]

theorem slice_stripComments (hi : Cut text i p) (hk : Cut text k q) (le : i ≤ k) :
    slice (stripComments true text) (kept text i) (kept text k) =
      stripComments true (slice text i k) := by
  rw [slice, hi.drop_stripComments_eq hk le, hi.kept_eq hk le, Nat.add_sub_cancel_left,
    List.take_left]

/-- A search between two positions finds the same character without the comments, or none. -/
theorem find? {free : Bool} (brace : t = '}' ∨ t = '{') (hi : Cut text i (.code free))
    (hk : Cut text k q) (le : i ≤ k) :
    Block.find? t text i k = none ∧
        Block.find? t (stripComments true text) (kept text i) (kept text k) = none ∨
      ∃ m free', Block.find? t text i k = some m ∧
        Block.find? t (stripComments true text) (kept text i) (kept text k) =
          some (kept text m) ∧
        Cut text m (.code free') ∧ Cut text (m + 1) (.code false) ∧
        kept text (m + 1) = kept text m + 1 := by
  obtain ⟨r, behind⟩ := hk.behind
  have sought := seek_stripComments brace (hi.between hk le) behind
    (rfl : Scan.initial.region = (Place.code free).region) i (kept text i)
  rw [hk.length_slice le, ← hi.kept_eq hk le, ← hi.drop_stripComments_eq hk le,
    ← drop_eq_slice_append text le] at sought
  obtain none | ⟨behind, m, m', found, found', leads⟩ := sought
  · exact .inl none
  · right
    obtain ⟨free', here, rfl, rest⟩ := hi.led leads
    have passed : Spaced behind (.code free') [t] (.code false) := by
      have step : (Place.code free').after t = .code false := by
        obtain rfl | rfl := brace
        · rfl
        · rfl
      have code : opensComment t ([] ++ behind).head? = false := by
        obtain rfl | rfl := brace
        · rfl
        · rfl
      exact .keep code (step ▸ .nil)
    obtain ⟨there, kept_there⟩ := here.move (u := [t]) rest passed
    have single : (stripComments true [t]).length = 1 := by
      rw [stripComments_cons true (by simp [opensComment]), stripComments_nil]
      rfl
    rw [single] at kept_there
    exact ⟨m, free', found, found', here, there, kept_there⟩

/-- The gap at a position ends at the same character without the comments. -/
theorem skipGap {free : Bool} (h : Cut text i (.code free)) :
    ∃ m free', Block.skipGap text i text.length = m ∧
      Block.skipGap (stripComments true text) (kept text i) (stripComments true text).length =
        kept text m ∧
      Cut text m (.code free') ∧ ∃ q', Spaced [] (.code false) (text.drop m) q' := by
  obtain ⟨q, behind⟩ := h.behind
  obtain ⟨rest, solid, leads⟩ := gapEnd_stripComments behind i (kept text i)
  obtain ⟨free', there, kept_there, cut⟩ := h.led leads
  have length : i + (text.drop i).length = text.length := by
    have room := h.room
    rw [List.length_drop]
    omega
  have length' : kept text i + (stripComments true (text.drop i)).length =
      (stripComments true text).length := by
    rw [h.stripComments_eq, List.length_append, kept]
  rw [length] at there kept_there cut
  rw [length', ← h.drop_stripComments] at kept_there
  refine ⟨_, free', rfl, kept_there, there, ?_⟩
  rw [← cut] at solid
  exact solid

theorem whole (h : Cut text i p) : ∃ q, Cut text text.length q := by
  obtain ⟨q, behind⟩ := h.behind
  have before := h.before
  rw [← List.append_nil (text.drop i)] at before
  have all := before.append behind
  rw [List.take_append_drop] at all
  exact ⟨q, .length all⟩

/-- The brace that closes a block is the same without the comments. -/
theorem exists_closing {brace : Nat} {free : Bool} (h : Cut text (brace + 1) (.code free))
    (next : kept text (brace + 1) = kept text brace + 1) :
    ∃ q, Cut text (closing text brace) q ∧
      closing (stripComments true text) (kept text brace) = kept text (closing text brace) ∧
      (text.length ≤ closing text brace ∨
        Cut text (closing text brace + 1) (.code false) ∧
          kept text (closing text brace + 1) = kept text (closing text brace) + 1) := by
  obtain ⟨q, atEnd⟩ := h.whole
  rw [closing, closing, ← next, ← kept_length]
  obtain ⟨none, none'⟩ | ⟨m, free', found, found', here, there, kept_there⟩ :=
    h.find? (.inl rfl) atEnd h.room
  · rw [none, none']
    exact ⟨q, atEnd, rfl, .inl le_rfl⟩
  · rw [found, found']
    exact ⟨_, here, rfl, .inr ⟨there, kept_there⟩⟩

theorem kept_mono (hi : Cut text i p) (hk : Cut text k q) (le : i ≤ k) :
    kept text i ≤ kept text k := by
  rw [hi.kept_eq hk le]
  omega

/-- A character that no comment opens at is left. -/
theorem kept_lt (h : Cut text i p) (room : i < text.length)
    (solid : ∃ q, Spaced [] (.code false) (text.drop i) q) :
    kept text i < (stripComments true text).length := by
  obtain ⟨q, solid⟩ := solid
  have some : text.drop i ≠ [] := by
    simpa using room
  have first := solid.head?_stripComments true (by simp)
  have left : stripComments true (text.drop i) ≠ [] := by
    intro none
    rw [none, eq_comm, List.head?_nil, List.head?_eq_none_iff] at first
    exact some first
  rw [h.stripComments_eq, List.length_append, kept]
  have length := List.length_pos_iff.2 left
  omega

theorem startsImport_eq (h : Cut text i p) (solid : Spaced [] (.code false) (text.drop i) q) :
    startsImport ((stripComments true text).drop (kept text i)) = startsImport (text.drop i) := by
  rw [h.drop_stripComments, startsImport_stripComments true solid]

/-- An import takes up the same line without the comments. -/
theorem line {free : Bool} {line rest : List Char} (h : Cut text i (.code free))
    (closed : ClosedLine line) (inline : '\n' ∉ line) (cut : text.drop i = line ++ rest)
    (solid : Spaced [] (.code false) (text.drop i) q)
    (ended : rest = [] ∨ ∃ below, rest = '\n' :: below) :
    ((stripComments true text).drop (kept text i)).takeWhile (· != '\n') =
        stripComments true line ∧
      (text.length ≤ i + line.length ∧
          (stripComments true text).length ≤ kept text i + (stripComments true line).length ∨
        Cut text (i + line.length + 1) (.code true) ∧
          kept text (i + line.length + 1) =
            kept text i + (stripComments true line).length + 1) := by
  obtain ⟨last, behind⟩ := closed
  have own := spaced_of_behind? behind
  have whole : ∀ c ∈ stripComments true line, (c != '\n') = true := by
    intro c mem
    simpa using ne_of_mem_of_not_mem (mem_of_mem_stripComments own mem) inline
  have apart : Apart line rest := by
    obtain rfl | ⟨below, rfl⟩ := ended
    · exact .of_head (by simp)
    · exact .of_head (by simp)
  obtain ⟨free', spaced⟩ := (own.of_apart apart).of_solid free (cut ▸ solid)
  have stripped : (stripComments true text).drop (kept text i) =
      stripComments true line ++ stripComments true rest := by
    rw [h.drop_stripComments, cut, spaced.stripComments_append]
  rw [stripped, List.takeWhile_append_of_pos whole]
  obtain rfl | ⟨below, rfl⟩ := ended
  · have length := congrArg List.length cut
    have length' := congrArg List.length stripped
    rw [stripComments_nil, List.append_nil, List.length_drop] at length'
    rw [List.append_nil, List.length_drop] at length
    rw [stripComments_nil]
    exact ⟨by simp, .inl ⟨by omega, by omega⟩⟩
  · have newline : stripComments true ('\n' :: below) = '\n' :: stripComments true below :=
      stripComments_cons true (by simp [opensComment])
    have passed : Spaced below (.code free) (line ++ ['\n']) (.code true) :=
      spaced.append (.keep (by simp [opensComment]) .nil)
    obtain ⟨there, kept_there⟩ := h.move (by rw [cut]; simp) passed
    have length : (stripComments true (line ++ ['\n'])).length =
        (stripComments true line).length + 1 := by
      rw [spaced.shorten.stripComments_append]
      simp [stripComments_cons true, opensComment, stripComments_nil]
    rw [length] at kept_there
    rw [List.length_append, List.length_singleton] at there kept_there
    rw [newline]
    exact ⟨by simp, .inr ⟨there, kept_there⟩⟩

end Cut

end NestedStyles.Block
