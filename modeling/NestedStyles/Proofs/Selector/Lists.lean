import NestedStyles.Match.Selection
import NestedStyles.Proofs.Block.CommentedLines
import NestedStyles.Proofs.Css.Commas
import NestedStyles.Proofs.Match.Settled
import NestedStyles.Proofs.Selector.Arguments
import NestedStyles.Selector.Compile

/-!
# Selectors in a list

Two selectors with a comma between them are compiled to the branches of the first and those of the
second, and so are the texts of what is wrong with the others, unless the first one ends inside
something (`Selector.compile_append`). Each branch selects for itself, so the list selects what the
two do, in this order and each element once (`Selector.select_append`).

A selector that is `&` alone is not compiled: it stands for the elements of the enclosing rule. In a
list it is a branch that selects these very elements (`Selector.select_loneNesting`) — unless white
space is around it that CSS does not know (`Selector.Disguised`): there that is a name or a mark in
front of `&` or behind it.
-/

namespace NestedStyles

open Css Text

/-! ## Each element once -/

section

variable {α : Type} [BEq α]

theorem length_filter_ne (a : α) (l : List α) :
    (l.filter fun b => !b == a).length < (a :: l).length :=
  Nat.lt_succ_of_le (List.length_filter_le _ _)

variable [LawfulBEq α]

theorem filter_eraseDups (p : α → Bool) :
    ∀ l : List α, l.eraseDups.filter p = (l.filter p).eraseDups
  | [] => rfl
  | a :: l => by
    have inner := filter_eraseDups p (l.filter fun b => !b == a)
    rw [List.filter_filter] at inner
    rw [List.eraseDups_cons, List.filter_cons, List.filter_cons, inner]
    split
    · rw [List.eraseDups_cons, List.filter_filter]
      simp only [Bool.and_comm]
    · next out =>
      congr 1
      refine List.filter_congr fun b _ => ?_
      by_cases same : b = a
      · simp [same, out]
      · simp [same]
termination_by l => l.length
decreasing_by exact length_filter_ne a l

theorem eraseDups_eraseDups : ∀ l : List α, l.eraseDups.eraseDups = l.eraseDups
  | [] => rfl
  | a :: l => by
    rw [List.eraseDups_cons, List.eraseDups_cons, filter_eraseDups, List.filter_filter]
    simp only [Bool.and_self]
    rw [eraseDups_eraseDups]
termination_by l => l.length
decreasing_by exact length_filter_ne a l

/-- Each of the parts can be taken without its repetitions. -/
theorem eraseDups_append_eraseDups (l l' : List α) :
    (l.eraseDups ++ l'.eraseDups).eraseDups = (l ++ l').eraseDups := by
  have seen (b : α) : (!l.eraseDups.elem b) = !l.elem b := by
    rw [Bool.eq_iff_iff]
    simp [List.mem_eraseDups]
  rw [List.eraseDups_append, List.eraseDups_append, eraseDups_eraseDups, List.removeAll,
    List.removeAll, filter_eraseDups, eraseDups_eraseDups]
  simp only [seen]

end

namespace Selector

/-! ## Compiling a list -/

/-- The branches and the errors of one selector and then those of another. -/
instance : Append Selector :=
  ⟨fun a b => ⟨a.branches ++ b.branches, a.errors ++ b.errors⟩⟩

@[simp] theorem branches_append (a b : Selector) : (a ++ b).branches = a.branches ++ b.branches :=
  rfl

@[simp] theorem errors_append (a b : Selector) : (a ++ b).errors = a.errors ++ b.errors :=
  rfl

theorem ofBranches_append (bs cs : List (List Token)) :
    ofBranches (bs ++ cs) = do return (← ofBranches bs) ++ (← ofBranches cs) := by
  induction bs with
  | nil =>
    rw [List.nil_append]
    cases ofBranches cs <;> rfl
  | cons ts bs ih =>
    rw [List.cons_append, ofBranches, ofBranches, ih]
    cases Branch.ofTokens ts with
    | ok branch =>
      cases branch with
      | error missing => rfl
      | ok b =>
        cases ofBranches bs with
        | error missing => rfl
        | ok first => cases ofBranches cs <;> rfl
    | error failure =>
      cases failure with
      | cutOff missing => rfl
      | rejected why =>
        cases ofBranches bs with
        | error missing => rfl
        | ok first => cases ofBranches cs <;> rfl

/-! ### White space in front of a branch -/

theorem ofTokens_space {t : Token} (blank : IsSpaceToken t) (ts : List Token) :
    Branch.ofTokens (t :: ts) = Branch.ofTokens ts := by
  obtain ⟨text, rfl, -⟩ := blank
  rfl

theorem separator_whitespace (t : Token) : separator "whitespace" t = [] := by
  have apart : wouldMerge "whitespace" t.spacingClass = false := by
    simp [wouldMerge]
  simp [separator, apart]

/-- Nothing is put between white space and the token behind it. -/
theorem writeTokens_whitespace (text : String) (ts : List Token) :
    writeTokens (.whitespace text :: ts) = text.toList ++ writeTokens ts := by
  have behind : writeAll (some "whitespace") ts = writeAll none ts := by
    cases ts with
    | nil => rfl
    | cons u us =>
      change separator "whitespace" u ++ u.write ++ _ = [] ++ u.write ++ _
      rw [separator_whitespace]
  change [] ++ text.toList ++ writeAll (some "whitespace") ts = _
  rw [behind, List.nil_append, writeTokens]

theorem errorText_space {t : Token} (blank : IsSpaceToken t) (ts : List Token) (why : Rejection) :
    errorText (t :: ts) why = errorText ts why := by
  obtain ⟨text, rfl, spaces⟩ := blank
  rw [errorText, writeTokens_whitespace, trim_blank_append spaces, errorText]

theorem ofBranches_space {t : Token} (blank : IsSpaceToken t) (ts : List Token)
    (bs : List (List Token)) : ofBranches ((t :: ts) :: bs) = ofBranches (ts :: bs) := by
  rw [ofBranches, ofBranches, ofTokens_space blank]
  simp only [errorText_space blank]

theorem ofBranches_split_space {front : List Token} (blank : ∀ t ∈ front, IsSpaceToken t)
    (ts : List Token) :
    ofBranches (splitBranches (front ++ ts)) = ofBranches (splitBranches ts) := by
  induction front with
  | nil => rfl
  | cons t front ih =>
    obtain ⟨here, rest⟩ := List.forall_mem_cons.1 blank
    rw [← ih rest]
    obtain ⟨first, others, split⟩ :=
      List.exists_cons_of_ne_nil (List.splitOnP_ne_nil (Token.isLiteral ",") (front ++ ts))
    have noComma : t.isLiteral "," = false := by
      obtain ⟨text, rfl, -⟩ := here
      rfl
    have added : splitBranches (t :: (front ++ ts)) = (t :: first) :: others := by
      rw [splitBranches, List.splitOnP_cons_eq_if_modifyHead, noComma, split]
      rfl
    rw [List.cons_append, added, splitBranches, split, ofBranches_space here]

/-- Two selectors with a comma between them are compiled to the branches of the first and those of
the second, unless the first ends inside something. -/
theorem compile_append {s : String} (ended : endsInside s.toList = false) (t : String) :
    compile (s ++ ", " ++ t) = do return (← compile s) ++ (← compile t) := by
  have text : (s ++ ", " ++ t).toList = s.toList ++ ',' :: ' ' :: t.toList := by
    simp
  obtain ⟨front, front', rest, blank, blank', spaced, plain⟩ := tokenize_space t.toList
  have second : ofBranches (splitBranches (tokenize (' ' :: t.toList))) = compile t := by
    rw [compile, spaced, plain, ofBranches_split_space blank, ofBranches_split_space blank']
  rw [compile, text, tokenize_append_comma ended, splitBranches, List.splitOnP_append_cons _ _ rfl]
  exact (ofBranches_append _ _).trans (by rw [← splitBranches, ← splitBranches, second]; rfl)

/-! ## Selecting with a list -/

/-- A list selects what its parts select, in their order and each element once. -/
theorem select_append (f : Forest) (cfg : Config) (scope : Scope) (a b : Selector) :
    (a ++ b).select f cfg scope = do
      return ((← a.select f cfg scope) ++ (← b.select f cfg scope)).eraseDups := by
  simp only [select, branches_append, List.mapM_append]
  cases a.branches.mapM fun b => b.select ⟨f, cfg, scope.anchors⟩ scope with
  | error e => rfl
  | ok first =>
    cases b.branches.mapM fun b => b.select ⟨f, cfg, scope.anchors⟩ scope with
    | error e => rfl
    | ok second =>
      change Except.ok (first ++ second).flatten.eraseDups = Except.ok _
      rw [List.flatten_append, eraseDups_append_eraseDups]

theorem select_congr {a b : Selector} (same : a.branches = b.branches) (f : Forest) (cfg : Config)
    (scope : Scope) : a.select f cfg scope = b.select f cfg scope := by
  rw [select, same, select]

end Selector

/-! ## A selector that is `&` alone -/

namespace Css

/-- White space of CSS, as it may stand in a text. -/
def isCssBlank (c : Char) : Bool :=
  isSpace c || c == '\r' || c == '\x0c'

theorem isSpace_of_mem_preprocess {s : List Char} (blank : ∀ c ∈ s, isCssBlank c = true) :
    ∀ c ∈ preprocess s, isSpace c = true := by
  fun_induction preprocess s with
  | case1 => simp
  | case2 rest ih =>
    exact List.forall_mem_cons.2 ⟨rfl, ih fun c hc => blank c (by simp [hc])⟩
  | case3 c rest other ih =>
    obtain ⟨here, rest⟩ := List.forall_mem_cons.1 blank
    refine List.forall_mem_cons.2 ⟨?_, ih rest⟩
    split
    · rfl
    · next noEnd =>
      rw [Bool.not_eq_true, Bool.or_eq_false_iff] at noEnd
      have space : isSpace c = true := by simpa [isCssBlank, noEnd.1, noEnd.2] using here
      split
      · next null =>
        obtain rfl := eq_of_beq null
        cases space
      · exact space

end Css

/-- The text is `&` alone, and the white space around it is not all white space of CSS. -/
def Disguised (text : String) : Prop :=
  trim text.toList = ['&'] ∧ ∃ c ∈ text.toList, c ≠ '&' ∧ isCssBlank c = false

instance (text : String) : Decidable (Disguised text) :=
  -- decided along the text, or else the characters would be run through, all of them
  letI : Decidable (∃ c ∈ text.toList, c ≠ '&' ∧ isCssBlank c = false) := List.decidableBEx _ _
  inferInstanceAs (Decidable (_ ∧ _))

namespace Selector

theorem lex_nesting (m : List Char) : lex ('&' :: m) = .token (.literal "&") :: lex m := by
  have number : readNumeral? ('&' :: m) = none := by
    simp [readNumeral?, signOf, digitsOf, fractionOf]
  have mark : lexOne '&' m = ([.token (.literal "&")], m) := by
    simp [lexOne, isSpace, startsIdent, isNameStart, startsEscape, number, lexMark]
  rw [lex, mark]
  rfl

/-- White space behind a `*` is not read. -/
theorem ofTokens_star {back : List Token} (blank : ∀ t ∈ back, IsSpaceToken t) :
    Chain.ofTokens (.literal "*" :: back) = .ok (.ok (.start .descendant [])) := by
  have parts : Part.ofTokens back = back.map .plain := by
    induction back with
    | nil => rfl
    | cons t back ih =>
      obtain ⟨⟨text, rfl, -⟩, rest⟩ := List.forall_mem_cons.1 blank
      rw [Part.ofTokens, ih rest]
      rfl
  have skipped : skipSpace (back.map .plain) = [] := by
    refine List.dropWhile_eq_nil_iff.2 fun p hp => ?_
    obtain ⟨t, ht, rfl⟩ := List.mem_map.1 hp
    obtain ⟨text, rfl, -⟩ := blank t ht
    rfl
  have compound : readCompound (.plain (.literal "*") :: back.map .plain) =
      ⟨.ok (.ok [], false), back.map .plain⟩ := by
    cases back with
    | nil => rfl
    | cons t back =>
      obtain ⟨text, rfl, -⟩ := blank t List.mem_cons_self
      rfl
  have steps (found : Found) : readSteps found (back.map .plain) = ⟨.ok found, []⟩ := by
    have none : readCombinator (back.map .plain) = none := by
      rw [readCombinator, skipped]
    rw [readSteps, skipped]
    split
    · rfl
    · split
      · rfl
      · next some =>
        rw [none] at some
        cases some
  have start : skipSpace (.plain (.literal "*") :: back.map .plain) =
      .plain (.literal "*") :: back.map .plain := rfl
  have read : readChain false (.plain (.literal "*") :: back.map .plain) =
      ⟨.ok ⟨.ok (.start .descendant []), false⟩, []⟩ := by
    simp only [readChain, start, Bool.false_eq_true, if_false, compound, Reading.andThen, steps]
    rfl
  have whole : Part.ofTokens (.literal "*" :: back) =
      .plain (.literal "*") :: back.map .plain := by
    rw [Part.ofTokens, parts]
    rfl
  rw [Chain.ofTokens, whole, read]
  rfl

/-- The tokens of a text that is `&` alone, with white space of CSS around it. -/
theorem tokenize_loneNesting {s : List Char} (lone : trim s = ['&'])
    (plain : ∀ c ∈ s, c = '&' ∨ isCssBlank c = true) : ∃ front back,
      (∀ t ∈ front, IsSpaceToken t) ∧ (∀ t ∈ back, IsSpaceToken t) ∧
        tokenize s = front ++ .literal "&" :: back := by
  obtain ⟨u, v, around, before, behind⟩ := Block.exists_trim s
  rw [lone] at around
  have blank {w : List Char} (within : ∀ c ∈ w, c ∈ s) (blanks : AllBlank w) :
      ∀ c ∈ preprocess w, isSpace c = true := by
    refine isSpace_of_mem_preprocess fun c hc => ?_
    obtain rfl | space := plain c (within c hc)
    · cases blanks '&' hc
    · exact space
  have spaces := blank (w := u) (by simp +contextual [around]) before
  have spaces' := blank (w := v) (by simp +contextual [around]) behind
  have text : preprocess s = preprocess u ++ '&' :: preprocess v := by
    rw [around, List.append_assoc]
    exact preprocess_append (by decide) u v
  obtain ⟨front, isFront, tokens⟩ := tokenize_eq_front s
  obtain ⟨back, isBack, tokens'⟩ := tokenize_eq_front v
  refine ⟨front, back, isFront, isBack, ?_⟩
  have rest : tokenize v = back := by
    rw [tokens', List.dropWhile_eq_nil_iff.2 spaces']
    simp [lex, nest]
  rw [tokens, text, List.dropWhile_append_of_pos spaces, List.dropWhile_cons, if_neg (by decide),
    lex_nesting, nest, nest_level, ← rest]
  rfl

theorem compile_loneNesting {text : String} (lone : trim text.toList = ['&'])
    (plain : ¬ Disguised text) :
    compile text = .ok ⟨[⟨.start .descendant [], .anchored⟩], []⟩ := by
  have each : ∀ c ∈ text.toList, c = '&' ∨ isCssBlank c = true := by
    intro c hc
    by_contra other
    rw [not_or, Bool.not_eq_true] at other
    exact plain ⟨lone, c, hc, other⟩
  obtain ⟨front, back, isFront, isBack, tokens⟩ := tokenize_loneNesting lone each
  have noMark (mark : String) : ∀ t ∈ back, t.isLiteral mark = false := by
    intro t ht
    obtain ⟨text, rfl, -⟩ := isBack t ht
    rfl
  have alone : splitBranches (.literal "&" :: back) = [.literal "&" :: back] :=
    List.splitOnP_eq_singleton (List.forall_mem_cons.2 ⟨by decide, noMark ","⟩)
  have anchored : Branch.anchoringOf (.literal "&") back = .anchored := by
    have none : back.any Branch.isNesting = false := by
      simpa [Branch.isNesting] using noMark "&"
    rw [Branch.anchoringOf, none]
    rfl
  have branch : Branch.ofTokens (.literal "&" :: back) =
      .ok (.ok ⟨.start .descendant [], .anchored⟩) := by
    rw [Branch.ofTokens, significant_cons rfl]
    dsimp only
    rw [Branch.chainTokens, anchored, ofTokens_star isBack]
    rfl
  rw [compile, tokens, ofBranches_split_space isFront, alone, ofBranches, branch]
  rfl

theorem select_loneNesting (f : Forest) (cfg : Config) (scope : Scope) :
    select f cfg scope ⟨[⟨.start .descendant [], .anchored⟩], []⟩ = .ok scope.anchors.eraseDups := by
  have found : gather ([scope.anchors].map .ok)
      (fun j => Compound.holds ⟨f, cfg, scope.anchors⟩ j []) = .ok _ :=
    gather_eq fun _ _ j _ => ⟨true, rfl⟩
  have all : scope.anchors.filter (fun j =>
      (Compound.holds ⟨f, cfg, scope.anchors⟩ j []).isTrue) = scope.anchors :=
    List.filter_eq_self.2 fun _ _ => rfl
  rw [List.flatten_singleton, all] at found
  have branch : Branch.select ⟨f, cfg, scope.anchors⟩ scope ⟨.start .descendant [], .anchored⟩ =
      .ok scope.anchors.eraseDups := found
  rw [select, List.mapM_cons, branch, List.mapM_nil]
  change Except.ok ([scope.anchors.eraseDups].flatten).eraseDups = _
  rw [List.flatten_singleton, eraseDups_eraseDups]

/-- The text of a selector selects what the compiled selector does, up to repetitions, unless it is
disguised. -/
theorem selectText_eraseDups {text : String} {selector : Selector}
    (compiled : compile text = .ok selector) (some : trim text.toList ≠ [])
    (plain : ¬ Disguised text) (f : Forest) (cfg : Config) (scope : Scope) :
    (selectText f cfg scope text).map List.eraseDups =
      (selector.select f cfg scope).mapError .stray := by
  unfold selectText
  split
  · next parents =>
    have lone : trim text.toList = ['&'] := by simpa [isParentSelector, some] using parents
    rw [compile_loneNesting lone plain] at compiled
    cases compiled
    rw [select_loneNesting]
    rfl
  · rw [compiled]
    change ((selector.select f cfg scope).mapError _).map _ = _
    rw [select]
    cases selector.branches.mapM fun b => b.select ⟨f, cfg, scope.anchors⟩ scope with
    | error e => rfl
    | ok found =>
      change Except.ok found.flatten.eraseDups.eraseDups = Except.ok _
      rw [eraseDups_eraseDups]

/-- A selector with a comma in it does not stand for the elements of the enclosing rule as a
whole. -/
theorem selectText_of_comma {text : String} {selector : Selector} (comma : ',' ∈ text.toList)
    (compiled : compile text = .ok selector) (f : Forest) (cfg : Config) (scope : Scope) :
    selectText f cfg scope text = (selector.select f cfg scope).mapError .stray := by
  have kept : ',' ∈ trim text.toList := Block.mem_trim (by decide) comma
  have own : isParentSelector text = false := by
    rw [isParentSelector, Bool.or_eq_false_iff]
    refine ⟨?_, ?_⟩
    · rw [List.isEmpty_eq_false_iff]
      exact List.ne_nil_of_mem kept
    · rw [beq_eq_false_iff_ne]
      intro lone
      rw [lone] at kept
      exact absurd kept (by decide)
  rw [selectText, own, compiled]
  rfl

/-- The first result and then the second one, each element once. -/
def union {ε : Type} (x y : Except ε (List NodeId)) : Except ε (List NodeId) := do
  return ((← x) ++ (← y)).eraseDups

theorem union_map_eraseDups {ε : Type} (x y : Except ε (List NodeId)) :
    union (x.map List.eraseDups) (y.map List.eraseDups) = union x y := by
  cases x with
  | error e => rfl
  | ok l =>
    cases y with
    | error e => rfl
    | ok l' => exact congrArg Except.ok (eraseDups_append_eraseDups l l')

theorem union_mapError {ε ε' : Type} (g : ε → ε') (x y : Except ε (List NodeId)) :
    union (x.mapError g) (y.mapError g) = (union x y).mapError g := by
  cases x with
  | error e => rfl
  | ok l => cases y <;> rfl

/-- A list of two selectors, the first of which ends inside nothing, has the branches and the errors
of the first and then those of the second. It selects what the two select, in their order and each
element once; for a text that is disguised as `&` alone this is what its branches select, and not
the elements of the enclosing rule. A third one without a valid branch changes nothing of what the
list selects, wherever it stands. -/
theorem selectText_list {s t : String} {a b : Selector} (someS : trim s.toList ≠ [])
    (someT : trim t.toList ≠ []) (ended : endsInside s.toList = false) (first : compile s = .ok a)
    (second : compile t = .ok b) (f : Forest) (cfg : Config) (scope : Scope) :
    compile (s ++ ", " ++ t) = .ok ⟨a.branches ++ b.branches, a.errors ++ b.errors⟩ ∧
      selectText f cfg scope (s ++ ", " ++ t) =
        (union (a.select f cfg scope) (b.select f cfg scope)).mapError .stray ∧
      (¬ Disguised s → ¬ Disguised t → selectText f cfg scope (s ++ ", " ++ t) =
        union (selectText f cfg scope s) (selectText f cfg scope t)) ∧
      ∀ u c, endsInside u.toList = false → compile u = .ok c → c.branches = [] →
        selectText f cfg scope (u ++ ", " ++ (s ++ ", " ++ t)) =
            selectText f cfg scope (s ++ ", " ++ t) ∧
          selectText f cfg scope (s ++ ", " ++ (u ++ ", " ++ t)) =
            selectText f cfg scope (s ++ ", " ++ t) ∧
          (endsInside t.toList = false → selectText f cfg scope (s ++ ", " ++ (t ++ ", " ++ u)) =
            selectText f cfg scope (s ++ ", " ++ t)) := by
  have joined {s t : String} {a b : Selector} (ended : endsInside s.toList = false)
      (first : compile s = .ok a) (second : compile t = .ok b) :
      compile (s ++ ", " ++ t) = .ok (a ++ b) := by
    rw [compile_append ended, first, second]
    rfl
  have selects {s t : String} {c : Selector} (compiled : compile (s ++ ", " ++ t) = .ok c) :
      selectText f cfg scope (s ++ ", " ++ t) = (c.select f cfg scope).mapError .stray :=
    selectText_of_comma (by simp) compiled f cfg scope
  have both := joined ended first second
  have list := selects both
  have parts : (a ++ b).select f cfg scope = union (a.select f cfg scope) (b.select f cfg scope) :=
    select_append f cfg scope a b
  refine ⟨both, by rw [list, parts], fun plainS plainT => ?_, fun u c endedU third none => ?_⟩
  · rw [list, parts, ← union_mapError, ← selectText_eraseDups first someS plainS f cfg scope,
      ← selectText_eraseDups second someT plainT f cfg scope, union_map_eraseDups]
  · rw [list]
    refine ⟨?_, ?_, fun endedT => ?_⟩
    · rw [selects (joined endedU third both)]
      exact congrArg _ (select_congr (by simp [none]) f cfg scope)
    · rw [selects (joined ended first (joined endedU third second))]
      exact congrArg _ (select_congr (by simp [none]) f cfg scope)
    · rw [selects (joined ended first (joined endedT second third))]
      exact congrArg _ (select_congr (by simp [none]) f cfg scope)

/-- An element `a` with an element `b` in it, and one more element `b`. -/
def twoTrees : Template :=
  .ofTrees [.node { Label.blank with tag := "a" } [.node { Label.blank with tag := "b" } []],
    .node { Label.blank with tag := "b" } []]

/-- The elements in the first `a`, inside of a rule for the `a` and the last `b`. -/
def insideFirst : Scope :=
  ⟨[1], some [0, 2]⟩

theorem selectText_list_aroundNesting :
    (endsInside "b:not(a, p)".toList = false ∧ endsInside "1%".toList = false) ∧
      (¬ Disguised "b:not(a, p)" ∧ ¬ Disguised " &\t") ∧
      selectText twoTrees.forest .standard insideFirst ("b:not(a, p)" ++ ", " ++ " &\t") =
        .ok [1, 0, 2] ∧
      selectText twoTrees.forest .standard insideFirst
        ("b:not(a, p)" ++ ", " ++ ("1%" ++ ", " ++ " &\t")) = .ok [1, 0, 2] := by
  have returns (text : String) (n : Nat)
      (h : (compile text).map (fun c => c.branches.length) = .ok n) :
      ∃ c, compile text = .ok c ∧ c.branches.length = n := by
    generalize compile text = compiled at h
    cases compiled with
    | ok c => exact ⟨c, rfl, Except.ok.inj h⟩
    | error missing => cases h
  obtain ⟨a, first, -⟩ := returns "b:not(a, p)" 1 (by decide +kernel)
  obtain ⟨b, second, -⟩ := returns " &\t" 1 (by decide +kernel)
  obtain ⟨c, third, none⟩ := returns "1%" 0 (by decide +kernel)
  have ends : endsInside "b:not(a, p)".toList = false ∧ endsInside "1%".toList = false := by
    decide +kernel
  have plain : ¬ Disguised "b:not(a, p)" ∧ ¬ Disguised " &\t" := by
    decide +kernel
  obtain ⟨-, -, united, unchanged⟩ := selectText_list (by decide +kernel) (by decide +kernel) ends.1
    first second twoTrees.forest .standard insideFirst
  have found : selectText twoTrees.forest .standard insideFirst ("b:not(a, p)" ++ ", " ++ " &\t") =
      .ok [1, 0, 2] := by
    rw [united plain.1 plain.2]
    decide +kernel
  obtain ⟨-, between, -⟩ := unchanged "1%" c ends.2 third (List.length_eq_zero_iff.1 none)
  exact ⟨ends, plain, found, between.trans found⟩

/-- The white space in front of `&` is a name in CSS: alone the text stands for the elements of the
enclosing rule, in a list it does not. -/
theorem selectText_list_ne_disguised :
    Disguised "\u00A0&" ∧ endsInside "\u00A0&".toList = false ∧
      selectText twoTrees.forest .standard insideFirst "\u00A0&" = .ok [0, 2] ∧
      selectText twoTrees.forest .standard insideFirst "b" = .ok [1] ∧
      selectText twoTrees.forest .standard insideFirst ("\u00A0&" ++ ", " ++ "b") = .ok [1] := by
  decide +kernel

end Selector

end NestedStyles
