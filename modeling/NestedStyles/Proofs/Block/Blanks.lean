import Mathlib.Data.List.DropRight
import NestedStyles.Text.Blank
import NestedStyles.Text.Lines
import NestedStyles.Text.WordChar

/-!
# White space at the ends of texts and between words

What `trim`, `words` and `lines` make of a text that is put together from parts.
-/

namespace NestedStyles.Text

variable {s u v w : List Char} {c : Char}

/-! ## White space -/

section

variable {p : Char → Prop} [DecidablePred p]

-- Decided along the text. Without these, the characters would be run through, all of them.
instance (priority := high) decidableForallMem : Decidable (∀ c ∈ s, p c) :=
  List.decidableBAll p s

instance (priority := high) decidableForallMemOption {o : Option Char} :
    Decidable (∀ c ∈ o, p c) :=
  Option.decidableForallMem o

end

/-- The text is white space. -/
def AllBlank (s : List Char) : Prop :=
  ∀ c ∈ s, isBlank c = true

instance : Decidable (AllBlank s) :=
  inferInstanceAs (Decidable (∀ c ∈ s, isBlank c = true))

theorem allBlank_nil : AllBlank [] :=
  List.forall_mem_nil _

/-- All white space characters. -/
def blankChars : List Char :=
  blankRanges.flatMap fun r => (List.range' r.1 (r.2 + 1 - r.1)).map Char.ofNat

theorem mem_blankChars (h : isBlank c = true) : c ∈ blankChars := by
  obtain ⟨r, hr, above, below⟩ := inRanges_iff.1 h
  refine List.mem_flatMap.2 ⟨r, hr, List.mem_map.2 ⟨c.toNat, ?_, Char.ofNat_toNat c⟩⟩
  rw [List.mem_range'_1]
  omega

theorem isBlank_of_isNameChar (h : isNameChar c = true) : isBlank c = false := by
  have apart : ∀ d ∈ blankChars, isNameChar d = false := by
    decide +kernel
  by_contra blank
  have other := apart c (mem_blankChars (Bool.of_not_eq_false blank))
  rw [h] at other
  cases other

theorem AllBlank.append (hu : AllBlank u) (hv : AllBlank v) : AllBlank (u ++ v) :=
  List.forall_mem_append.2 ⟨hu, hv⟩

/-! ## Trimming -/

theorem trimLeft_append (h : AllBlank u) : trimLeft (u ++ s) = trimLeft s :=
  List.dropWhile_append_of_pos h

theorem trimRight_append (h : AllBlank v) : trimRight (s ++ v) = trimRight s := by
  have reversed : AllBlank v.reverse := fun c hc => h c (List.mem_reverse.1 hc)
  unfold trimRight
  rw [List.reverse_append, List.dropWhile_append_of_pos reversed]

theorem trim_blank_append (h : AllBlank u) : trim (u ++ s) = trim s := by
  rw [trim, trimLeft_append h, trim]

theorem trim_of_allBlank (h : AllBlank s) : trim s = [] := by
  rw [← List.append_nil s, trim_blank_append h, trim_nil]

theorem trim_append_blank (h : AllBlank v) : trim (s ++ v) = trim s := by
  unfold trim trimLeft
  rw [List.dropWhile_append]
  split
  next none =>
    rw [List.isEmpty_iff.1 none, List.dropWhile_eq_nil_iff.2 h]
  next => exact trimRight_append h

/-- The text does not start with white space. -/
def StartsSolid (s : List Char) : Prop :=
  ∀ c ∈ s.head?, isBlank c = false

/-- The text does not end with white space. -/
def EndsSolid (s : List Char) : Prop :=
  ∀ c ∈ s.getLast?, isBlank c = false

theorem trimLeft_eq_self_iff : trimLeft s = s ↔ StartsSolid s := by
  cases s <;> simp [trimLeft, StartsSolid, List.dropWhile_eq_self_iff]

theorem trimRight_eq_self_iff : trimRight s = s ↔ EndsSolid s := by
  refine (List.rdropWhile_eq_self_iff (p := isBlank)).trans ?_
  cases s using List.reverseRecOn <;> simp [EndsSolid]

theorem trim_eq_self_iff : trim s = s ↔ StartsSolid s ∧ EndsSolid s := by
  rw [← trimLeft_eq_self_iff, ← trimRight_eq_self_iff]
  constructor
  · intro h
    have shorter : (trimLeft s).length ≤ s.length := (List.dropWhile_suffix isBlank).length_le
    have longer : (trim s).length ≤ (trimLeft s).length :=
      (List.rdropWhile_prefix isBlank (trimLeft s)).length_le
    rw [h] at longer
    have same : trimLeft s = s :=
      (List.dropWhile_suffix isBlank).eq_of_length (le_antisymm shorter longer)
    exact ⟨same, by rwa [trim, same] at h⟩
  · rintro ⟨hl, hr⟩
    rw [trim, hl, hr]

theorem startsSolid_cons (h : isBlank c = false) : StartsSolid (c :: s) := by
  rintro d ⟨⟩
  exact h

theorem StartsSolid.append (hu : StartsSolid u) (hv : StartsSolid v) : StartsSolid (u ++ v) := by
  cases u with
  | nil => exact hv
  | cons c u => exact hu

theorem StartsSolid.of_append (nonempty : u ≠ []) (hu : StartsSolid u) : StartsSolid (u ++ v) := by
  cases u with
  | nil => exact absurd rfl nonempty
  | cons c u => exact hu

theorem forall_getLast?_append {p : Char → Prop} (hu : ∀ c ∈ u.getLast?, p c)
    (hv : ∀ c ∈ v.getLast?, p c) : ∀ c ∈ (u ++ v).getLast?, p c := by
  cases v using List.reverseRecOn with
  | nil => simpa using hu
  | append_singleton v c => simpa using hv

theorem EndsSolid.append (hu : EndsSolid u) (hv : EndsSolid v) : EndsSolid (u ++ v) :=
  forall_getLast?_append hu hv

theorem EndsSolid.of_append (nonempty : v ≠ []) (hv : EndsSolid v) : EndsSolid (u ++ v) := by
  unfold EndsSolid
  rwa [List.getLast?_append_of_ne_nil u nonempty]

theorem EndsSolid.flatMap {α : Type} {f : α → List Char} {l : List α}
    (h : ∀ a ∈ l, EndsSolid (f a)) : EndsSolid (l.flatMap f) := by
  induction l with
  | nil => simp [EndsSolid]
  | cons a l ih =>
    obtain ⟨first, more⟩ := List.forall_mem_cons.1 h
    exact first.append (ih more)

theorem startsSolid_of_forall (h : ∀ c ∈ s, isBlank c = false) : StartsSolid s :=
  fun c hc => h c (List.mem_of_mem_head? hc)

theorem endsSolid_of_forall (h : ∀ c ∈ s, isBlank c = false) : EndsSolid s :=
  fun c hc => h c (List.mem_of_mem_getLast? hc)

theorem getLast?_trim (h : isBlank c = false) : (trim (s ++ [c])).getLast? = some c := by
  have solid : ∀ u, EndsSolid (u ++ [c]) := fun u => by
    simpa [EndsSolid] using h
  have left : ∃ u, trimLeft (s ++ [c]) = u ++ [c] := by
    unfold trimLeft
    rw [List.dropWhile_append]
    split
    · exact ⟨[], by simp [h]⟩
    · exact ⟨_, rfl⟩
  obtain ⟨u, same⟩ := left
  rw [trim, same, trimRight_eq_self_iff.2 (solid u), List.getLast?_concat]

/-! ## Words -/

theorem words_append_cons (h : isBlank c = true) : words (u ++ c :: v) = words u ++ words v := by
  unfold words
  rw [List.splitOnP_append_cons u v h, List.filter_append]

theorem words_blank_append (h : AllBlank u) : words (u ++ s) = words s := by
  induction u with
  | nil => rfl
  | cons c u ih =>
    obtain ⟨first, rest⟩ := List.forall_mem_cons.1 h
    exact (words_append_cons (u := []) first).trans (ih rest)

theorem words_append_blank_append (nonempty : v ≠ []) (h : AllBlank v) :
    words (u ++ (v ++ s)) = words u ++ words s := by
  cases v with
  | nil => exact absurd rfl nonempty
  | cons c v =>
    obtain ⟨first, more⟩ := List.forall_mem_cons.1 h
    rw [List.cons_append, words_append_cons first, words_blank_append more]

theorem words_of_unspaced (nonempty : w ≠ []) (h : ∀ c ∈ w, isBlank c = false) :
    words w = [w] := by
  unfold words
  rw [List.splitOnP_eq_singleton h]
  simp [nonempty]

/-! ## Lines -/

theorem lines_append_newline : lines (u ++ '\n' :: v) = lines u ++ lines v :=
  List.splitOn_append_cons_self u v

theorem lines_of_inline (h : '\n' ∉ s) : lines s = [s] :=
  List.splitOn_eq_singleton h

theorem unlines_lines : unlines (lines s) = s :=
  List.intercalate_splitOn '\n'

end NestedStyles.Text
