import NestedStyles.Proofs.Block.Outline

/-!
# Reading behind a text

The reader looks forward only: from the end of `pre` on, `pre ++ s` is read as `s` is, with every
report as many lines further down as `pre` has line ends (`readBody_behind`, `readSheet_behind`).
-/

namespace NestedStyles.Block

open Text

/-- The same fault so many lines further down. -/
def Report.lowered (lines : Nat) (r : Report) : Report :=
  { r with line := r.line + lines }

/-- The same value, with the faults so many lines further down. -/
def Reported.lowered {α : Type} (lines : Nat) (r : Reported α) : Reported α :=
  ⟨r.value, r.reports.map (Report.lowered lines)⟩

namespace Reported

variable {α : Type} (lines : Nat)

@[simp] theorem value_lowered (r : Reported α) : (r.lowered lines).value = r.value := rfl

@[simp] theorem reports_lowered (r : Reported α) :
    (r.lowered lines).reports = r.reports.map (Report.lowered lines) := rfl

theorem lowered_append [Append α] (r r' : Reported α) :
    (r ++ r').lowered lines = r.lowered lines ++ r'.lowered lines := by
  change Reported.mk _ _ = Reported.mk _ _
  simp

end Reported

variable {cfg : Config} {t : Char} {σ : Scan} {i start stop pos number : Nat}

/-! ## Positions -/

theorem drop_behind (pre s : List Char) (i : Nat) :
    (pre ++ s).drop (pre.length + i) = s.drop i := by
  rw [← List.drop_drop, List.drop_left]

theorem slice_behind (pre s : List Char) (start stop : Nat) :
    slice (pre ++ s) (pre.length + start) (pre.length + stop) = slice s start stop := by
  rw [slice, slice, drop_behind, Nat.add_sub_add_left]

theorem lineAt_behind (pre s : List Char) (i : Nat) :
    lineAt (pre ++ s) (pre.length + i) = lineAt s i + pre.count '\n' := by
  rw [lineAt, lineAt, List.take_length_add_append, List.count_append]
  omega

/-! ## Searches -/

theorem seek_add (k : Nat) (s : List Char) :
    seek t (k + stop) σ (k + pos) s = (seek t stop σ pos s).map (k + ·) := by
  fun_induction seek t stop σ pos s with
  | case1 => rfl
  | case2 σ pos c s out => rw [seek_of_le (by omega), Option.map_none]
  | case3 σ pos c s room here => rw [seek, if_neg (by omega), if_pos here, Option.map_some]
  | case4 σ pos c s room other ih => rw [seek, if_neg (by omega), if_neg other, Nat.add_assoc, ih]

theorem find?_behind (pre s : List Char) :
    find? t (pre ++ s) (pre.length + start) (pre.length + stop) =
      (find? t s start stop).map (pre.length + ·) := by
  rw [find?, find?, drop_behind, seek_add]

theorem closing_behind (pre s : List Char) (brace : Nat) :
    closing (pre ++ s) (pre.length + brace) = pre.length + closing s brace := by
  rw [closing, closing, List.length_append, Nat.add_assoc, find?_behind]
  cases find? '}' s (brace + 1) s.length <;> rfl

theorem closing_le {text : List Char} (brace : Nat) : closing text brace ≤ text.length := by
  rw [closing]
  cases found : find? '}' text (brace + 1) text.length with
  | none => exact le_rfl
  | some i => exact (bounds_of_find? found).2.2.le

theorem gapEnd_add (k : Nat) (s : List Char) :
    gapEnd (k + stop) (k + pos) s = k + gapEnd stop pos s := by
  fun_induction gapEnd stop pos s with
  | case1 pos s out => rw [gapEnd, if_pos (by omega)]
  | case2 pos s room comment rest found _ ih =>
    rw [gapEnd_of_split (by omega) found, Nat.add_assoc, ih]
  | case3 pos room none =>
    rw [gapEnd, if_neg (by omega)]
    rfl
  | case4 pos room c rest none opens =>
    rw [gapEnd, if_neg (by omega)]
    split
    next found => cases none.symm.trans found
    next => simp [opens]
  | case5 pos room c rest none code blank ih =>
    rw [gapEnd_cons (by omega) (eq_false_of_ne_true code), if_pos blank, Nat.add_assoc, ih]
  | case6 pos room c rest none code solid =>
    rw [gapEnd_cons (by omega) (eq_false_of_ne_true code), if_neg solid]

theorem skipGap_behind (pre s : List Char) :
    skipGap (pre ++ s) (pre.length + start) (pre.length + stop) =
      pre.length + skipGap s start stop := by
  rw [skipGap, skipGap, drop_behind, gapEnd_add]

/-! ## Blocks -/

theorem contribution_add (k : Nat) (line : ContentLine) :
    line.contribution (number + k) = (line.contribution number).lowered k := by
  cases line <;> rfl

theorem readLines_add (k : Nat) (ls : List (List Char)) :
    readLines (number + k) ls = (readLines number ls).lowered k := by
  induction ls generalizing number with
  | nil => rfl
  | cons line ls ih =>
    rw [readLines, readLines, Reported.lowered_append, contribution_add, Nat.add_right_comm, ih]

theorem readContent_add (k : Nat) (s : List Char) :
    readContent (number + k) s = (readContent number s).lowered k :=
  readLines_add k _

theorem nested_add (k : Nat) (header : List Char) (body : Reported Body) :
    nested cfg (number + k) header (body.lowered k) =
      (nested cfg number header body).lowered k := by
  unfold nested
  split
  · rfl
  · split <;> rfl

theorem unclosed_behind (pre s : List Char) (brace close : Nat) :
    unclosed (pre ++ s) (pre.length + brace) (pre.length + close) =
      (unclosed s brace close).map (Report.lowered (pre.count '\n')) := by
  rw [unclosed, unclosed, List.length_append, lineAt_behind]
  by_cases ends : s.length ≤ close
  · rw [if_pos ends, if_pos (by omega)]
    rfl
  · rw [if_neg ends, if_neg (by omega)]
    rfl

theorem readBody_behind (pre s : List Char) (within : stop ≤ s.length) :
    readBody cfg (pre ++ s) (pre.length + start) (pre.length + stop) =
      (readBody cfg s start stop).lowered (pre.count '\n') := by
  have within' : pre.length + stop ≤ (pre ++ s).length := by
    rw [List.length_append]
    omega
  fun_induction blocks s start stop with
  | case1 start stop room none =>
    rw [min_eq_left within] at room none
    rw [readBody_of_none room within none, readBody_of_none (by omega) within' (by
      rw [find?_behind, none, Option.map_none]), lineAt_behind, slice_behind, readContent_add]
  | case2 start stop room brace found _ _ ihInside ihNext =>
    rw [min_eq_left within] at room found
    have found' : find? '{' (pre ++ s) (pre.length + start) (pre.length + stop) =
        some (pre.length + brace) := by
      rw [find?_behind, found, Option.map_some]
    have inside := ihInside (closing_le brace) (by
      rw [List.length_append]
      exact Nat.add_le_add_left (closing_le brace) _)
    rw [readBody_of_brace room within found, readBody_of_brace (by omega) within' found',
      closing_behind, lineAt_behind, slice_behind, readContent_add, unclosed_behind,
      Nat.add_assoc, Nat.add_assoc, inside, nested_add, ihNext within within']
    simp only [Reported.lowered_append]
    rfl
  | case3 start stop out =>
    rw [min_eq_left within] at out
    rw [readBody_of_le (by omega), readBody_of_le (by omega)]
    rfl

/-! ## Sources -/

theorem readImportLine_add (k : Nat) (line : List Char) :
    readImportLine (number + k) line = (readImportLine number line).lowered k := by
  unfold readImportLine
  split <;> rfl

theorem readStray_add (k : Nat) (s : List Char) :
    readStray (number + k) s = (readStray number s).lowered k := by
  unfold readStray
  split <;> rfl

theorem outermost_add (k : Nat) (header : List Char) (body : Reported Body) :
    outermost cfg (number + k) header (body.lowered k) =
      (outermost cfg number header body).lowered k := by
  unfold outermost readItem
  split
  · rfl
  · split
    · split
      · rfl
      · simp [Reported.lowered, Report.lowered]
    · rfl

/-- From the end of the first text on, the second is read as it is by itself. -/
theorem readSheet_behind (pre s : List Char) :
    readSheet cfg (pre ++ s) (pre.length + start) =
      (readSheet cfg s start).lowered (pre.count '\n') := by
  have total : (pre ++ s).length = pre.length + s.length := List.length_append
  have gap : ∀ start, skipGap (pre ++ s) (pre.length + start) (pre ++ s).length =
      pre.length + skipGap s start s.length := by
    intro start
    rw [total, skipGap_behind]
  fun_induction items s start with
  | case1 start _ pos room rest starts line ih =>
    have starts' : startsImport ((pre ++ s).drop (pre.length + pos)) = true := by
      rwa [drop_behind]
    have next : pre.length + pos + line.length + 1 = pre.length + (pos + line.length + 1) := by
      omega
    rw [readSheet_of_import rfl room starts, readSheet_of_import (gap start) (by omega) starts',
      drop_behind, lineAt_behind, readImportLine_add, Reported.lowered_append, next, ih]
  | case2 start _ pos room rest starts none =>
    have starts := eq_false_of_ne_true starts
    have none' : find? '{' (pre ++ s) (pre.length + pos) (pre ++ s).length = .none := by
      rw [total, find?_behind, none, Option.map_none]
    rw [readSheet_of_none rfl room starts none, readSheet_of_none (gap start) (by omega)
      (by rwa [drop_behind]) none', drop_behind, lineAt_behind, readStray_add]
  | case3 start _ pos room rest starts brace found _ _ ih =>
    have starts := eq_false_of_ne_true starts
    have found' : find? '{' (pre ++ s) (pre.length + pos) (pre ++ s).length =
        some (pre.length + brace) := by
      rw [total, find?_behind, found, Option.map_some]
    rw [readSheet_of_brace rfl room starts found, readSheet_of_brace (gap start) (by omega)
      (by rwa [drop_behind]) found', closing_behind, lineAt_behind, slice_behind, unclosed_behind,
      Nat.add_assoc, Nat.add_assoc, readBody_behind pre s (closing_le brace), outermost_add, ih]
    simp only [Reported.lowered_append]
    rfl
  | case4 start _ pos out =>
    have ended : s.length ≤ pos := Nat.not_lt.1 out
    rw [readSheet_of_end rfl ended,
      readSheet_of_end (gap start) (total ▸ Nat.add_le_add_left ended _)]
    rfl

end NestedStyles.Block
