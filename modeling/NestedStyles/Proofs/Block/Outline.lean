import NestedStyles.Proofs.Block.Positions

/-!
# Outlines

The outline of a source is the source cut at its blocks and its imports (`items`), and that of the
inside of a block is the inside cut at the nested blocks (`blocks`). What is read depends on the
outline only (`value_readBody`, `value_readSheet`).

A text whose comments stand apart and the text without them are cut at the same places
(`bared_blocks`, `bared_items`).
-/

namespace NestedStyles.Block

open Text

variable {cfg : Config} {text s : List Char} {q : Place} {start stop : Nat}

/-! ## Outlines -/

/-- The inside of a block, cut at its nested blocks. -/
inductive Blocks
  /-- The text behind the last nested block. -/
  | last (s : List Char)
  /-- The text in front of a nested block, the inside of that block, and what follows it. -/
  | block (front : List Char) (inside next : Blocks)
  deriving DecidableEq, Repr

/-- A source, cut at its imports and its blocks. -/
inductive Items
  | last
  /-- The line of an import and what follows it. -/
  | imports (line : List Char) (next : Items)
  /-- The text in front of a block, the inside of the block, and what follows it. -/
  | block (front : List Char) (inside : Blocks) (next : Items)
  deriving DecidableEq, Repr

/-- The outline of the inside of a block from position `start` up to `stop`. -/
def blocks (text : List Char) (start stop : Nat) : Blocks :=
  if start < min stop text.length then
    match h : find? '{' text start (min stop text.length) with
    | none => .last (slice text start (min stop text.length))
    | some brace =>
      have _hb := bounds_of_find? h
      have _hc := lt_closing _hb.2.2
      .block (slice text start brace) (blocks text (brace + 1) (closing text brace))
        (blocks text (closing text brace + 1) stop)
  else .last []
termination_by text.length - start

/-- The outline of a source from position `start` on. -/
def items (text : List Char) (start : Nat) : Items :=
  have _hs := le_skipGap text start text.length
  let pos := skipGap text start text.length
  if pos < text.length then
    let rest := text.drop pos
    if startsImport rest then
      let line := rest.takeWhile (· != '\n')
      .imports line (items text (pos + line.length + 1))
    else
      match h : find? '{' text pos text.length with
      | none => .last
      | some brace =>
        have _hb := bounds_of_find? h
        have _hc := lt_closing _hb.2.2
        .block (slice text pos brace) (blocks text (brace + 1) (closing text brace))
          (items text (closing text brace + 1))
  else .last
termination_by text.length - start

/-- The lines that are read as imports. -/
def Items.importLines : Items → List (List Char)
  | .last => []
  | .imports line next => line :: next.importLines
  | .block _ _ next => next.importLines

/-- What lines of content say. -/
def contentOf (s : List Char) : Body :=
  (readContent 0 s).value

/-- What a nested block with this header and content adds to the block around it. -/
def nestedValue (cfg : Config) (header : List Char) (b : Body) : Body :=
  (nested cfg 0 header ⟨b, []⟩).value

/-- What a block outside of all others with this header and content adds to a source. -/
def outermostValue (cfg : Config) (header : List Char) (b : Body) : Stylesheet :=
  (outermost cfg 0 header ⟨b, []⟩).value

/-- What the outline of the inside of a block says. -/
def Blocks.read (cfg : Config) : Blocks → Body
  | .last s => contentOf s
  | .block front inside next =>
    contentOf (splitHeader cfg front).content ++
      (nestedValue cfg (splitHeader cfg front).selector (inside.read cfg) ++ next.read cfg)

/-- What the outline of a source says. -/
def Items.read (cfg : Config) : Items → Stylesheet
  | .last => .empty
  | .imports line next => (readImportLine 0 line).value ++ next.read cfg
  | .block front inside next =>
    outermostValue cfg (bareLine front) (inside.read cfg) ++ next.read cfg

/-! ## Reading goes by the outline -/

theorem value_contribution (number : Nat) (line : ContentLine) :
    (line.contribution number).value = (line.contribution 0).value := by
  cases line <;> rfl

theorem value_readLines (number number' : Nat) (ls : List (List Char)) :
    (readLines number ls).value = (readLines number' ls).value := by
  induction ls generalizing number number' with
  | nil => rfl
  | cons line ls ih =>
    rw [readLines, readLines, Reported.value_append, Reported.value_append,
      value_contribution number, value_contribution number', ih]

theorem value_readContent (number : Nat) (s : List Char) :
    (readContent number s).value = contentOf s :=
  value_readLines number 0 _

theorem value_nested (line : Nat) (header : List Char) (r : Reported Body) :
    (nested cfg line header r).value = nestedValue cfg header r.value := by
  unfold nestedValue nested
  split
  · rfl
  · split <;> rfl

theorem value_outermost (line : Nat) (header : List Char) (r : Reported Body) :
    (outermost cfg line header r).value = outermostValue cfg header r.value := by
  unfold outermostValue outermost readItem
  split
  · rfl
  · split
    · split <;> rfl
    · rfl

theorem value_readImportLine (number : Nat) (line : List Char) :
    (readImportLine number line).value = (readImportLine 0 line).value := by
  unfold readImportLine
  split <;> rfl

theorem value_readStray (number : Nat) (s : List Char) :
    (readStray number s).value = .empty := by
  unfold readStray
  split <;> rfl

theorem value_readBody (text : List Char) (start stop : Nat) :
    (readBody cfg text start stop).value = (blocks text start stop).read cfg := by
  fun_induction blocks text start stop with
  | case1 start stop room none =>
    rw [readBody, if_pos room]
    split
    next => exact value_readContent _ _
    next found => cases none.symm.trans found
  | case2 start stop room brace found _ _ ihInside ihNext =>
    rw [readBody, if_pos room]
    split
    next none => cases found.symm.trans none
    next found' =>
      cases found.symm.trans found'
      rw [Blocks.read, ← ihInside, ← ihNext, ← value_nested (lineAt text start),
        ← value_readContent (lineAt text start)]
      simp only [Reported.value_append, Body.empty_append]
      rfl
  | case3 start stop out =>
    rw [readBody, if_neg out]
    exact (congrArg Reported.value (Content.nil.readContent 0)).symm

theorem value_readSheet (text : List Char) (start : Nat) :
    (readSheet cfg text start).value = (items text start).read cfg := by
  fun_induction items text start with
  | case1 start _ pos room rest starts line ih =>
    rw [readSheet, if_pos room, if_pos starts, Items.read, ← ih, ← value_readImportLine]
    rfl
  | case2 start _ pos room rest starts none =>
    rw [readSheet, if_pos room, if_neg starts]
    split
    next => exact value_readStray _ _
    next found => cases none.symm.trans found
  | case3 start _ pos room rest starts brace found _ _ ih =>
    rw [readSheet, if_pos room, if_neg starts]
    split
    next none => cases found.symm.trans none
    next found' =>
      cases found.symm.trans found'
      rw [Items.read, ← ih, ← value_readBody, ← value_outermost (lineAt text pos)]
      simp only [Reported.value_append, Stylesheet.empty_append]
      rfl
  | case4 start _ pos out =>
    rw [readSheet, if_neg out]
    rfl

/-! ## Outlines without the comments -/

/-- The second outline is the first without its comments. -/
inductive Blocks.Bared : Blocks → Blocks → Prop
  | last {s : List Char} (tidy : Tidy s) : Bared (.last s) (.last (stripComments true s))
  | block {front : List Char} {inside inside' next next' : Blocks} (tidy : Tidy front)
      (within : Bared inside inside') (behind : Bared next next') :
      Bared (.block front inside next) (.block (stripComments true front) inside' next')

/-- The second outline is the first without its comments. -/
inductive Items.Bared : Items → Items → Prop
  | last : Bared .last .last
  | imports {line : List Char} {next next' : Items} (tidy : Tidy line)
      (behind : Bared next next') :
      Bared (.imports line next) (.imports (stripComments true line) next')
  | block {front : List Char} {inside inside' : Blocks} {next next' : Items} (tidy : Tidy front)
      (within : inside.Bared inside') (behind : Bared next next') :
      Bared (.block front inside next) (.block (stripComments true front) inside' next')

theorem blocks_of_none (within : stop ≤ text.length) (h : find? '{' text start stop = none) :
    blocks text start stop = .last (slice text start stop) := by
  have least : min stop text.length = stop := min_eq_left within
  by_cases room : start < stop
  · rw [blocks, if_pos (by omega)]
    split
    next => rw [least]
    next found =>
      rw [least, h] at found
      cases found
  · rw [blocks, if_neg (by omega), slice, Nat.sub_eq_zero_of_le (by omega), List.take_zero]

theorem blocks_of_le (h : stop ≤ start) : blocks text start stop = .last [] := by
  rw [blocks, if_neg (by omega)]

theorem blocks_of_some {brace : Nat} (within : stop ≤ text.length)
    (h : find? '{' text start stop = some brace) :
    blocks text start stop =
      .block (slice text start brace) (blocks text (brace + 1) (closing text brace))
        (blocks text (closing text brace + 1) stop) := by
  have least : min stop text.length = stop := min_eq_left within
  have bounds := bounds_of_find? h
  conv_lhs => rw [blocks, if_pos (by omega)]
  split
  next none =>
    rw [least, h] at none
    cases none
  next found =>
    rw [least, h] at found
    cases found
    rfl

theorem bared_nil : (Blocks.last []).Bared (.last []) := by
  have bare := Blocks.Bared.last ⟨_, .nil⟩
  rwa [stripComments_nil] at bare

/-- The inside of a block is cut at the same places without the comments. -/
theorem bared_blocks {free : Bool} (hi : Cut text start (.code free)) (hk : Cut text stop q) :
    (blocks text start stop).Bared
      (blocks (stripComments true text) (kept text start) (kept text stop)) := by
  fun_induction blocks text start stop generalizing free q with
  | case1 start stop room none =>
    rw [min_eq_left hk.room] at room none ⊢
    obtain ⟨-, none'⟩ | ⟨m, _, found, -⟩ := hi.find? (.inr rfl) hk room.le
    · rw [blocks_of_none hk.kept_le none', hi.slice_stripComments hk room.le]
      exact .last (hi.between hk room.le).tidy
    · cases none.symm.trans found
  | case2 start stop room brace found _ _ ihInside ihNext =>
    rw [min_eq_left hk.room] at room found
    obtain ⟨none, -⟩ | ⟨m, _, found', found'', here, there, kept_there⟩ :=
      hi.find? (.inr rfl) hk room.le
    · cases found.symm.trans none
    · cases found.symm.trans found'
      have le := (bounds_of_find? found).1
      obtain ⟨r, close, close', later⟩ := there.exists_closing kept_there
      rw [blocks_of_some hk.kept_le found'', hi.slice_stripComments here le, close', ← kept_there]
      apply Blocks.Bared.block (hi.between here le).tidy (ihInside there close)
      obtain ended | ⟨next, kept_next⟩ := later
      · have out : stop ≤ closing text brace + 1 := by
          have room := hk.room
          omega
        have out' : kept text stop ≤ kept text (closing text brace) + 1 := by
          have mono := hk.kept_mono close (hk.room.trans ended)
          omega
        rw [blocks_of_le out, blocks_of_le out']
        exact bared_nil
      · rw [← kept_next]
        exact ihNext next hk
  | case3 start stop out =>
    rw [min_eq_left hk.room] at out
    rw [blocks_of_le (hk.kept_mono hi (by omega))]
    exact bared_nil

section

variable {pos : Nat} (here : skipGap text start text.length = pos)
include here

theorem items_of_end (ended : text.length ≤ pos) : items text start = .last := by
  subst here
  rw [items, if_neg (by omega)]

theorem items_of_import (room : pos < text.length) (h : startsImport (text.drop pos) = true) :
    items text start = .imports ((text.drop pos).takeWhile (· != '\n'))
      (items text (pos + ((text.drop pos).takeWhile (· != '\n')).length + 1)) := by
  subst here
  conv_lhs => rw [items, if_pos room, if_pos h]

theorem items_of_none (room : pos < text.length) (noImport : startsImport (text.drop pos) = false)
    (h : find? '{' text pos text.length = none) : items text start = .last := by
  subst here
  rw [items, if_pos room, if_neg (by simp [noImport])]
  split
  next => rfl
  next found => cases h.symm.trans found

theorem items_of_block {brace : Nat} (room : pos < text.length)
    (noImport : startsImport (text.drop pos) = false)
    (h : find? '{' text pos text.length = some brace) :
    items text start = .block (slice text pos brace)
      (blocks text (brace + 1) (closing text brace)) (items text (closing text brace + 1)) := by
  subst here
  conv_lhs => rw [items, if_pos room, if_neg (by simp [noImport])]
  split
  next none => cases h.symm.trans none
  next found =>
    cases h.symm.trans found
    rfl

end

/-- Behind the last character there is nothing. -/
theorem items_of_le (h : text.length ≤ start) : items text start = .last :=
  items_of_end rfl (h.trans (le_skipGap text start text.length))

/-- Where the source ends the one without comments does too. -/
theorem Cut.length_le_kept {p : Place} (h : Cut text start p) (ended : text.length ≤ start) :
    (stripComments true text).length ≤ kept text start := by
  obtain ⟨r, atEnd⟩ := h.whole
  rw [← kept_length]
  exact atEnd.kept_mono h ended

/-- The next block opens with the same brace without the comments. -/
theorem Cut.find?_opening {free : Bool} (h : Cut text start (.code free)) :
    Block.find? '{' text start text.length = none ∧
        Block.find? '{' (stripComments true text) (kept text start)
          (stripComments true text).length = none ∨
      ∃ m free', Block.find? '{' text start text.length = some m ∧
        Block.find? '{' (stripComments true text) (kept text start)
          (stripComments true text).length = some (kept text m) ∧
        Cut text m (.code free') ∧ Cut text (m + 1) (.code false) ∧
        kept text (m + 1) = kept text m + 1 := by
  obtain ⟨r, atEnd⟩ := h.whole
  have sought := h.find? (.inr rfl) atEnd h.room
  rwa [kept_length] at sought

/-- A source is cut at the same places without the comments. -/
theorem bared_items (h : ∃ free, Cut text start (.code free))
    (closed : ∀ line ∈ (items text start).importLines, ClosedLine line) :
    (items text start).Bared (items (stripComments true text) (kept text start)) := by
  fun_induction items text start with
  | case1 start _ pos room rest starts line ih =>
    obtain ⟨free, h⟩ := h
    obtain ⟨_, free', rfl, there, here, q, solid⟩ := h.skipGap
    have room' := here.kept_lt room ⟨q, solid⟩
    have starts' := (here.startsImport_eq solid).trans starts
    have cut : rest = line ++ rest.dropWhile (· != '\n') := List.takeWhile_append_dropWhile.symm
    obtain ⟨inline, ended⟩ := takeWhile_line rest
    have own := closed line List.mem_cons_self
    obtain ⟨same, next⟩ := here.line own inline cut solid ended
    rw [items_of_import there room' starts', same]
    apply Items.Bared.imports own.tidy
    obtain ⟨ended, ended'⟩ | ⟨next, kept_next⟩ := next
    · rw [items_of_le (by omega), items_of_le (by omega)]
      exact .last
    · rw [← kept_next]
      exact ih ⟨true, next⟩ fun line mem => closed line (List.mem_cons_of_mem _ mem)
  | case2 start _ pos room rest starts none =>
    obtain ⟨free, h⟩ := h
    obtain ⟨_, free', rfl, there, here, q, solid⟩ := h.skipGap
    have room' := here.kept_lt room ⟨q, solid⟩
    have starts' := (here.startsImport_eq solid).trans (eq_false_of_ne_true starts)
    obtain ⟨-, none'⟩ | ⟨m, _, found, -⟩ := here.find?_opening
    · rw [items_of_none there room' starts' none']
      exact .last
    · cases none.symm.trans found
  | case3 start _ pos room rest starts brace found _ _ ih =>
    obtain ⟨free, h⟩ := h
    obtain ⟨_, free', rfl, there, here, q, solid⟩ := h.skipGap
    have room' := here.kept_lt room ⟨q, solid⟩
    have starts' := (here.startsImport_eq solid).trans (eq_false_of_ne_true starts)
    obtain ⟨none, -⟩ | ⟨m, _, found', found'', front, inside, kept_inside⟩ := here.find?_opening
    · cases found.symm.trans none
    · cases found.symm.trans found'
      have le := (bounds_of_find? found).1
      obtain ⟨r, close, close', later⟩ := inside.exists_closing kept_inside
      rw [items_of_block there room' starts' found'', here.slice_stripComments front le, close',
        ← kept_inside]
      apply Items.Bared.block (here.between front le).tidy (bared_blocks inside close)
      obtain ended | ⟨next, kept_next⟩ := later
      · have ended' := close.length_le_kept ended
        rw [items_of_le (by omega), items_of_le (by omega)]
        exact .last
      · rw [← kept_next]
        exact ih ⟨false, next⟩ closed
  | case4 start _ pos out =>
    obtain ⟨free, h⟩ := h
    obtain ⟨_, free', rfl, there, here, -⟩ := h.skipGap
    rw [items_of_end there (here.length_le_kept (by omega))]
    exact .last

end NestedStyles.Block
