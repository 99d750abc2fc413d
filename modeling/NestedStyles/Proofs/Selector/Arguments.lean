import NestedStyles.Css.Nth

/-!
# Arguments `an+b` that break off

An argument is read from left to right. One that is rejected stays so whatever follows it, and one
that breaks off can be completed by one token (`Extensible`). So an argument breaks off exactly if it
is neither blank nor complete and a complete one begins with it (`readNth_eq_error_iff`).
-/

namespace NestedStyles.Css

/-! ## White space in front -/

section

variable {t : Token} {ts rest : List Token}

theorem significant_cons (solid : t.isWhitespace = false) (rest : List Token) :
    significant (t :: rest) = t :: rest := by
  simp [significant, solid]

theorem solid_of_significant (h : significant ts = t :: rest) : t.isWhitespace = false := by
  have first := List.head?_dropWhile_not Token.isWhitespace ts
  unfold significant at h
  rwa [h] at first

@[simp] theorem significant_significant (ts : List Token) :
    significant (significant ts) = significant ts := by
  cases h : significant ts with
  | nil => rfl
  | cons t rest => exact significant_cons (solid_of_significant h) rest

theorem significant_append (ts more : List Token) : significant (ts ++ more) =
    if significant ts = [] then significant more else significant ts ++ more := by
  unfold significant
  rw [List.dropWhile_append]
  simp only [List.isEmpty_iff]

end

/-! ## Readers that go on -/

/-- A reader of the rest of an argument. -/
abbrev NthReader := List Token → Except CutOff (Option Coefficients)

/-- One of these tokens is missing where an argument breaks off. -/
def completing : List Token :=
  [.ident "n", .number ⟨"1", some 1⟩]

/-- What the reader rejects stays rejected when more follows, and what breaks off can be
completed. -/
structure Extensible (read : NthReader) : Prop where
  rejected : ∀ {ts} more, read ts = .ok none → read (ts ++ more) = .ok none
  cutOff : ∀ {ts missing}, read ts = .error missing →
    ∃ t ∈ completing, ∃ c, read (ts ++ [t]) = .ok (some c)

namespace Extensible

/-- A reader that rejects everything. -/
theorem none : Extensible fun _ => .ok Option.none where
  rejected _ _ := rfl
  cutOff h := by cases h

/-- A reader that looks for nothing but the end. -/
theorem last (a b : Int) : Extensible fun ts => .ok (nthEnd a b ts) where
  rejected {ts} more h := by
    have left : significant ts ≠ [] := by
      intro blank
      simp [nthEnd, blank] at h
    simp [nthEnd, significant_append, left]
  cutOff h := by cases h

theorem ite {cond : Prop} [Decidable cond] {yes no : NthReader} (h : Extensible yes)
    (h' : Extensible no) : Extensible fun ts => if cond then yes ts else no ts := by
  by_cases holds : cond
  · simpa only [if_pos holds] using h
  · simpa only [if_neg holds] using h'

/-- A reader that skips white space and goes on by the first token behind it. -/
theorem of_head {read : NthReader} (skips : ∀ ts, read ts = read (significant ts))
    (blank : read [] ≠ .ok Option.none)
    (complete : ∀ missing, read [] = .error missing →
      ∃ t ∈ completing, ∃ c, read [t] = .ok (some c))
    (head : ∀ t : Token, t.isWhitespace = false → Extensible fun rest => read (t :: rest)) :
    Extensible read where
  rejected {ts} more h := by
    rw [skips] at h
    rw [skips, significant_append]
    cases first : significant ts with
    | nil =>
      rw [first] at h
      exact absurd h blank
    | cons t rest =>
      rw [first] at h
      exact (head t (solid_of_significant first)).rejected more h
  cutOff {ts missing} h := by
    rw [skips] at h
    cases first : significant ts with
    | nil =>
      rw [first] at h
      obtain ⟨t, mem, c, read⟩ := complete missing h
      refine ⟨t, mem, c, ?_⟩
      rw [skips, significant_append, if_pos first, ← skips, read]
    | cons t rest =>
      rw [first] at h
      obtain ⟨t', mem, c, read⟩ := (head t (solid_of_significant first)).cutOff h
      refine ⟨t', mem, c, ?_⟩
      rw [skips, significant_append, if_neg (by simp [first]), first]
      exact read

end Extensible

/-! ## The readers of an argument -/

theorem extensible_nthNumber (a sign : Int) : Extensible (nthNumber a sign) := by
  refine .of_head (fun ts => ?_) (by simp [nthNumber, significant]) (fun missing _ => ?_) ?_
  · simp only [nthNumber, significant_significant]
  · exact ⟨.number ⟨"1", some 1⟩, by simp [completing], (a, sign * 1), rfl⟩
  · intro t solid
    cases t with
    | number n =>
      unfold nthNumber
      simp only [significant_cons solid]
      cases n.integer with
      | none => exact .none
      | some b =>
        simp only [Option.bind_some, apply_ite Except.ok]
        exact .ite .none (.last a (sign * b))
    | whitespace => cases solid
    | _ => exact .none

theorem extensible_nthRest (a : Int) : Extensible (nthRest a) := by
  refine .of_head (fun ts => ?_) (by simp [nthRest, significant]) (fun missing h => ?_) ?_
  · simp only [nthRest, significant_significant]
  · simp [nthRest, significant] at h
  · intro t solid
    cases t with
    | literal mark =>
      by_cases plus : mark = "+"
      · subst plus
        exact extensible_nthNumber a 1
      by_cases minus : mark = "-"
      · subst minus
        exact extensible_nthNumber a (-1)
      · have rejects (rest : List Token) : nthRest a (.literal mark :: rest) = .ok none := by
          simp [nthRest, significant_cons solid, plus, minus]
        simpa only [rejects] using Extensible.none
    | number n =>
      unfold nthRest
      simp only [significant_cons solid]
      cases n.integer with
      | none => exact .none
      | some b =>
        simp only [Option.bind_some, apply_ite Except.ok]
        exact .ite (.last a b) .none
    | whitespace => cases solid
    | _ => exact .none

theorem extensible_nthUnit (a : Int) (unit : List Char) : Extensible (nthUnit a unit) := by
  unfold nthUnit
  refine .ite (extensible_nthRest a) (.ite (extensible_nthNumber a (-1)) ?_)
  cases afterN? unit with
  | none => exact .none
  | some b => exact .last a b

/-- Behind its first token an argument goes on in a way that tokens can be added to. -/
theorem extensible_readNth_cons (t : Token) (solid : t.isWhitespace = false) :
    Extensible fun rest => readNth (t :: rest) := by
  unfold readNth
  simp only [significant_cons solid]
  cases t with
  | number n =>
    dsimp only
    cases n.integer with
    | none => exact .none
    | some b => exact .last 0 b
  | dimension n unit =>
    dsimp only
    cases n.integer with
    | none => exact .none
    | some a => exact extensible_nthUnit a _
  | ident value =>
    dsimp only
    split
    · exact .last 2 0
    · exact .last 2 1
    · exact extensible_nthUnit (-1) _
    · exact extensible_nthUnit 1 _
  | literal mark =>
    by_cases plus : mark = "+"
    · subst plus
      constructor
      · intro rest more h
        cases rest with
        | nil => cases h
        | cons t rest =>
          cases t with
          | ident value => exact (extensible_nthUnit 1 _).rejected more h
          | _ => rfl
      · intro rest missing h
        cases rest with
        | nil => exact ⟨.ident "n", by simp [completing], (1, 0), rfl⟩
        | cons t rest =>
          cases t with
          | ident value => exact (extensible_nthUnit 1 _).cutOff h
          | _ => cases h
    · simpa [plus] using Extensible.none
  | whitespace => cases solid
  | _ => exact .none

theorem readNth_significant (ts : List Token) : readNth (significant ts) = readNth ts := by
  simp only [readNth, significant_significant]

/-- One token completes an argument that breaks off. -/
theorem exists_completing {ts : List Token} {missing : CutOff}
    (breaks : readNth ts = .error missing) :
    ∃ t ∈ completing, ∃ c, readNth (ts ++ [t]) = .ok (some c) := by
  cases first : significant ts with
  | nil =>
    rw [← readNth_significant, first] at breaks
    cases breaks
  | cons t rest =>
    rw [← readNth_significant, first] at breaks
    obtain ⟨t', mem, c, read⟩ :=
      (extensible_readNth_cons t (solid_of_significant first)).cutOff breaks
    refine ⟨t', mem, c, ?_⟩
    rw [← readNth_significant, significant_append, if_neg (by simp [first]), first]
    exact read

/-- An argument breaks off exactly if it is not complete, there is something in it, and more tokens
can make it complete. -/
theorem readNth_eq_error_iff {ts : List Token} :
    (∃ missing, readNth ts = .error missing) ↔
      (∀ c, readNth ts ≠ .ok (some c)) ∧ significant ts ≠ [] ∧
        ∃ more c, readNth (ts ++ more) = .ok (some c) := by
  cases first : significant ts with
  | nil =>
    have blank : readNth ts = .ok none := by
      rw [← readNth_significant, first]
      rfl
    simp [blank]
  | cons t rest =>
    constructor
    · rintro ⟨missing, breaks⟩
      obtain ⟨t', -, c, complete⟩ := exists_completing breaks
      refine ⟨fun c' read => ?_, by simp, [t'], c, complete⟩
      rw [read] at breaks
      cases breaks
    · rintro ⟨incomplete, -, more, c, complete⟩
      rw [← readNth_significant, significant_append, if_neg (by simp [first]), first] at complete
      rw [← readNth_significant, first] at incomplete ⊢
      cases outcome : readNth (t :: rest) with
      | error missing => exact ⟨missing, rfl⟩
      | ok found =>
        cases found with
        | some c' => exact absurd outcome (incomplete c')
        | none =>
          have goes := extensible_readNth_cons t (solid_of_significant first)
          have stays := goes.rejected more outcome
          cases stays.symm.trans complete

end NestedStyles.Css
