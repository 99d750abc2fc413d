import Mathlib.Data.List.Basic
import NestedStyles.Path

/-!
# The one spelling of a path

`Path.absolute` gives back what it has given (`Path.absolute_absolute`), so that files that are
known by their absolute paths are found under them. The directory that a path is seen from may be
spelled in any way (`Path.absolute_of_base`).
-/

namespace NestedStyles.Path

/-- A segment that names a file or a directory. -/
structure IsName (segment : List Char) : Prop where
  nonempty : segment ≠ []
  here : segment ≠ ['.']
  above : segment ≠ ['.', '.']
  plain : '/' ∉ segment

theorem not_mem_of_mem_splitOn {p segment : List Char} (h : segment ∈ p.splitOn '/') :
    '/' ∉ segment := by
  induction p generalizing segment with
  | nil =>
    rw [List.splitOn_nil, List.mem_singleton] at h
    rw [h]
    exact List.not_mem_nil
  | cons c p ih =>
    rw [List.splitOn_cons_eq_if_modifyHead] at h
    split at h
    case isTrue =>
      rcases List.mem_cons.1 h with rfl | h
      · exact List.not_mem_nil
      · exact ih h
    case isFalse slash =>
      obtain ⟨first, rest, split⟩ := List.exists_cons_of_ne_nil (List.splitOn_ne_nil '/' p)
      rw [split, List.modifyHead_cons] at h
      rcases List.mem_cons.1 h with rfl | h
      · have inFirst : '/' ∉ first := ih (split ▸ List.mem_cons_self)
        have other : '/' ≠ c := fun same => slash (beq_iff_eq.2 same.symm)
        exact fun mem => (List.mem_cons.1 mem).elim other inFirst
      · exact ih (split ▸ List.mem_cons_of_mem first h)

theorem isName_of_mem_foldl {todo done : List (List Char)} (plain : ∀ s ∈ todo, '/' ∉ s)
    (names : ∀ s ∈ done, IsName s) : ∀ s ∈ todo.foldl descend done, IsName s := by
  induction todo generalizing done with
  | nil => exact names
  | cons segment todo ih =>
    refine ih (fun s hs => plain s (List.mem_cons_of_mem _ hs)) fun s hs => ?_
    unfold descend at hs
    split at hs
    · exact names s hs
    · next proper =>
      split at hs
      · exact names s (List.dropLast_subset done hs)
      · next below =>
        rcases List.mem_append.1 hs with hs | hs
        · exact names s hs
        · obtain rfl := List.mem_singleton.1 hs
          simp only [Bool.or_eq_true, beq_iff_eq, not_or] at proper below
          exact ⟨proper.1, proper.2, below, plain _ List.mem_cons_self⟩

theorem isName_of_mem_segments {p s : List Char} (h : s ∈ segments p) : IsName s :=
  isName_of_mem_foldl (fun _ hs => not_mem_of_mem_splitOn hs)
    (fun _ hs => absurd hs List.not_mem_nil) s h

/-- Names are passed one after the other. -/
theorem foldl_descend_names {names done : List (List Char)} (h : ∀ s ∈ names, IsName s) :
    names.foldl descend done = done ++ names := by
  induction names generalizing done with
  | nil => rw [List.foldl_nil, List.append_nil]
  | cons s names ih =>
    have name := h s List.mem_cons_self
    have step : descend done s = done ++ [s] := by
      simp [descend, name.nonempty, name.here, name.above]
    rw [List.foldl_cons, step, ih fun s hs => h s (List.mem_cons_of_mem _ hs), List.append_assoc,
      List.singleton_append]

/-- The segments of a path that is put together from names are these. -/
theorem segments_slash_intercalate {names : List (List Char)} (h : ∀ s ∈ names, IsName s) :
    segments ('/' :: ['/'].intercalate names) = names := by
  have first (p : List Char) : segments ('/' :: p) = segments p := by
    simp [segments, List.splitOn_cons_eq_if_modifyHead, descend]
  rw [first, segments]
  cases names with
  | nil => rfl
  | cons s names =>
    rw [List.splitOn_intercalate '/' (fun l hl => (h l hl).plain) (List.cons_ne_nil s names),
      foldl_descend_names h, List.nil_append]

theorem head?_intercalate_names {names : List (List Char)} (h : ∀ s ∈ names, IsName s) :
    (['/'].intercalate names).head? ≠ some '/' := by
  cases names with
  | nil => simp
  | cons s names =>
    obtain ⟨c, s, rfl⟩ := List.exists_cons_of_ne_nil (h s List.mem_cons_self).nonempty
    have other : c ≠ '/' := by
      rintro rfl
      exact (h _ List.mem_cons_self).plain List.mem_cons_self
    cases names with
    | nil => simpa using other
    | cons t names => simpa [List.intercalate_cons_cons] using other

theorem root_eq (p : List Char) : root p = ['/'] ∨ root p = ['/', '/'] := by
  unfold root
  split <;> simp

/-- The normal form is put together from the root and the names below it. -/
theorem normalize_eq (p : List Char) :
    ∃ names, segments (join ['/'] p) = names ∧ (∀ s ∈ names, IsName s) ∧
      (root (join ['/'] p) = ['/'] ∧ normalize p = '/' :: ['/'].intercalate names ∨
        root (join ['/'] p) = ['/', '/'] ∧ normalize p = '/' :: '/' :: ['/'].intercalate names) := by
  have parts : normalize p = root (join ['/'] p) ++ ['/'].intercalate (segments (join ['/'] p)) :=
    rfl
  refine ⟨_, rfl, fun s hs => isName_of_mem_segments hs, ?_⟩
  rcases root_eq (join ['/'] p) with h | h
  · exact .inl ⟨h, by rw [parts, h, List.singleton_append]⟩
  · exact .inr ⟨h, by rw [parts, h, List.cons_append, List.singleton_append]⟩

/-- The normal form has the same segments. -/
theorem segments_normalize (p : List Char) : segments (normalize p) = segments (join ['/'] p) := by
  have twice (q : List Char) : segments ('/' :: '/' :: q) = segments ('/' :: q) := by
    simp [segments, List.splitOn_cons_eq_if_modifyHead, descend]
  obtain ⟨names, segments, areNames, ⟨-, normal⟩ | ⟨-, normal⟩⟩ := normalize_eq p
  · rw [normal, segments, segments_slash_intercalate areNames]
  · rw [normal, segments, twice, segments_slash_intercalate areNames]

/-- The normal form has the same root. -/
theorem root_normalize (p : List Char) : root (normalize p) = root (join ['/'] p) := by
  obtain ⟨names, -, areNames, ⟨root, normal⟩ | ⟨root, normal⟩⟩ := normalize_eq p
  all_goals
    have start := head?_intercalate_names areNames
    rw [normal, root]
    unfold Path.root
    split <;> simp_all

theorem head?_normalize (p : List Char) : (normalize p).head? = some '/' := by
  obtain ⟨names, -, -, ⟨-, normal⟩ | ⟨-, normal⟩⟩ := normalize_eq p
  all_goals rw [normal, List.head?_cons]

/-- Paths with the same root and the same segments have one normal form. -/
theorem normalize_congr {p q : List Char} (roots : root (join ['/'] p) = root (join ['/'] q))
    (names : segments (join ['/'] p) = segments (join ['/'] q)) : normalize p = normalize q := by
  rw [normalize, normalize, roots, names]

/-- A path from the root stays as it is wherever it is seen from. -/
theorem join_of_rooted {p : List Char} (rooted : p.head? = some '/') (base : List Char) :
    join base p = p := by
  rw [join, if_pos (beq_iff_eq.2 rooted)]

/-- A normal path is its own normal form. -/
theorem normalize_normalize (p : List Char) : normalize (normalize p) = normalize p := by
  have same := join_of_rooted (head?_normalize p) ['/']
  refine normalize_congr ?_ ?_
  · rw [same, root_normalize]
  · rw [same, segments_normalize]

/-! ## Paths from a directory -/

/-- From the root the segments of a path follow those of its directory. -/
theorem segments_join {p : List Char} (relative : p.head? ≠ some '/') (base : List Char) :
    segments (join base p) = (p.splitOn '/').foldl descend (segments base) := by
  have behind (front : List Char) : segments (front ++ '/' :: p) =
      (p.splitOn '/').foldl descend (segments front) := by
    rw [segments, List.splitOn_append_cons_self, List.foldl_append, segments]
  rw [join, if_neg (by simpa using relative)]
  by_cases none : base = []
  · subst none
    rfl
  by_cases slash : base.getLast? = some '/'
  · -- the slash at the end of the directory stands in front of an empty segment
    obtain ⟨front, rfl⟩ := List.getLast?_eq_some_iff.1 slash
    have same : segments (front ++ ['/']) = segments front := by
      rw [segments, List.splitOn_append_cons_self, List.foldl_append]
      rfl
    rw [if_pos (by simp), List.append_assoc, List.singleton_append, behind, same]
  · rw [if_neg (by simp [none, slash]), behind]

/-- What stands behind three characters does not matter for the root. -/
theorem root_append {front : List Char} (long : 2 < front.length) (p : List Char) :
    root (front ++ p) = root front := by
  obtain _ | ⟨a, _ | ⟨b, _ | ⟨c, rest⟩⟩⟩ := front
  case cons.cons.cons =>
    by_cases first : a = '/' <;> by_cases second : b = '/' <;> by_cases third : c = '/' <;>
      simp_all [root]
  all_goals simp at long

/-- The root of a path is that of its directory. -/
theorem root_join {base p : List Char} (rooted : base.head? = some '/')
    (relative : p.head? ≠ some '/') : root (join base p) = root base := by
  rw [join, if_neg (by simpa using relative)]
  by_cases long : 2 < base.length
  · split <;> rw [root_append long]
  -- what is left are directories of one or two characters, with a slash in front
  obtain ⟨rest, rfl⟩ := List.head?_eq_some_iff.1 rooted
  obtain _ | ⟨c, _ | ⟨d, rest⟩⟩ := rest
  case cons.cons => simp at long
  · cases p <;> simp_all [root]
  · by_cases second : c = '/' <;> cases p <;> simp_all [root]

/-- A path that is seen from a directory that is seen from another one. -/
theorem join_join {p : List Char} (relative : p.head? ≠ some '/') (base : List Char) :
    join ['/'] (join base p) = join (join ['/'] base) p := by
  unfold join
  cases base with
  | nil => simp [relative]
  | cons c base =>
    by_cases rooted : c = '/'
    · simp [relative, rooted]
      split <;> simp
    · simp [relative, rooted, List.getLast?_cons]
      split <;> simp [rooted]

/-- The directory a path is seen from may be spelled in any way. -/
theorem normalize_join_normalize (base p : List Char) :
    normalize (join (normalize base) p) = normalize (join base p) := by
  by_cases rooted : p.head? = some '/'
  · rw [join_of_rooted rooted, join_of_rooted rooted]
  have normal := head?_normalize base
  have front := join_of_rooted normal ['/']
  have start : (join ['/'] base).head? = some '/' := by
    unfold join
    split
    case isTrue h => exact beq_iff_eq.1 h
    case isFalse h => rfl
  refine normalize_congr ?_ ?_
  · rw [join_join rooted, join_join rooted, front, root_join normal rooted,
      root_join start rooted, root_normalize]
  · rw [join_join rooted, join_join rooted, front, segments_join rooted, segments_join rooted,
      segments_normalize]

/-- An absolute path is its own absolute path. -/
theorem absolute_absolute (base : Option String) (p : String) :
    absolute none (absolute base p) = absolute base p := by
  simp only [absolute, Option.map_none, Option.getD_none, String.toList_ofList,
    normalize_normalize]

/-- The base of a path may be spelled in any way. -/
theorem absolute_of_base (base p : String) :
    absolute (some (absolute none base)) p = absolute (some base) p := by
  simp only [absolute, Option.map_some, Option.getD_some, Option.map_none, Option.getD_none,
    String.toList_ofList, normalize_join_normalize]

theorem head?_absolute (base : Option String) (p : String) :
    (absolute base p).toList.head? = some '/' := by
  rw [absolute, String.toList_ofList]
  exact head?_normalize _

theorem absolute_ne_empty (base : Option String) (p : String) : absolute base p ≠ "" := by
  intro empty
  have rooted := head?_absolute base p
  rw [empty] at rooted
  cases rooted

/-- An absolute path stays as it is from wherever it is seen. -/
theorem absolute_from (base base' : Option String) (p : String) :
    absolute base (absolute base' p) = absolute base' p := by
  cases base with
  | none => exact absolute_absolute base' p
  | some base =>
    rw [absolute, Option.map_some, Option.getD_some, join_of_rooted (head?_absolute base' p)]
    exact absolute_absolute base' p

end NestedStyles.Path
