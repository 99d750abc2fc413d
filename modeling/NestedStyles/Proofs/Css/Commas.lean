import NestedStyles.Proofs.Block.Blanks
import NestedStyles.Proofs.Css.Endings

/-!
# Tokens around a comma

A text that ends inside nothing, neither inside a lexeme nor inside brackets, keeps its tokens when
a comma and more text follow: the comma is a token that is in no brackets, and behind it the tokens
of the rest stand as they do alone (`tokenize_append_comma`). A space in front of a text is white
space and joins the white space the text starts with (`tokenize_space`).
-/

namespace NestedStyles.Css

open Text

/-! ## Open brackets -/

/-- The brackets and functions that are open behind the lexemes, the innermost first, where
`opened` are open in front of them. A bracket closes the innermost one if it is of its kind. -/
def openFrames (opened : List Frame) : List Lexeme → List Frame
  | [] => opened
  | .token _ :: rest => openFrames opened rest
  | .opens frame :: rest => openFrames (frame :: opened) rest
  | .closes b :: rest =>
    match opened with
    | [] => openFrames [] rest
    | frame :: outer => openFrames (if frame.bracket == b then outer else frame :: outer) rest

/-- The text ends inside an escape, a string, a comment, an address, brackets or a function. -/
def endsInside (s : List Char) : Bool :=
  endsOpen (preprocess s) || !(openFrames [] (lex (preprocess s))).isEmpty

/-- Lexemes that leave no bracket open are nested by themselves. -/
theorem nest_append {ls : List Lexeme} {outer : List (Frame × List Token)} {done : List Token}
    (closed : openFrames (outer.map Prod.fst) ls = []) (more : List Lexeme) :
    nest outer done (ls ++ more) = nest [] (nest outer done ls) more := by
  induction ls generalizing outer done with
  | nil =>
    obtain rfl : outer = [] := by simpa [openFrames] using closed
    rfl
  | cons l ls ih =>
    cases l with
    | token t => exact ih closed
    | opens frame =>
      have inside : openFrames (((frame, done) :: outer).map Prod.fst) ls = [] := closed
      exact ih inside
    | closes b =>
      cases outer with
      | nil =>
        have level : openFrames (([] : List (Frame × List Token)).map Prod.fst) ls = [] := closed
        exact ih level
      | cons o outer =>
        obtain ⟨frame, before⟩ := o
        simp only [List.cons_append, nest]
        simp only [List.map_cons, openFrames] at closed
        split
        · next same =>
          rw [if_pos same] at closed
          exact ih closed
        · next other =>
          rw [if_neg other] at closed
          have inside : openFrames (((frame, before) :: outer).map Prod.fst) ls = [] := closed
          exact ih inside

/-- Tokens in front of the outermost brackets stay in front. -/
theorem nest_prepend (ls : List Lexeme) (front : List Token) :
    (∀ done, nest [] (front ++ done) ls = front ++ nest [] done ls) ∧
      ∀ outer frame before done, nest (outer ++ [(frame, front ++ before)]) done ls =
        front ++ nest (outer ++ [(frame, before)]) done ls := by
  induction ls with
  | nil => simp [nest]
  | cons l ls ih =>
    obtain ⟨level, within⟩ := ih
    cases l with
    | token t => exact ⟨fun done => by simpa [nest] using level (done ++ [t]),
        fun outer frame before done => within outer frame before (done ++ [t])⟩
    | opens f => exact ⟨fun done => within [] f done [],
        fun outer frame before done => within ((f, done) :: outer) frame before []⟩
    | closes b =>
      refine ⟨fun done => by simpa [nest] using level (done ++ [.malformed (.unmatched b)]),
        fun outer frame before done => ?_⟩
      cases outer with
      | nil =>
        simp only [List.nil_append, nest]
        split
        · rw [List.append_assoc]
          exact level _
        · exact within [] frame before _
      | cons o outer =>
        simp only [List.cons_append, nest]
        split
        · exact within outer frame before _
        · exact within (o :: outer) frame before _

/-- Outside of brackets the tokens in front have no influence on what follows. -/
theorem nest_level (done : List Token) (ls : List Lexeme) :
    nest [] done ls = done ++ nest [] [] ls := by
  simpa using (nest_prepend ls done).1 []

/-! ## Tokens -/

variable {s m : List Char}

/-- A character that is kept as it is parts a text. -/
theorem preprocess_append {c : Char} (kept : c ∉ ['\n', '\r', '\x0c', '\x00']) (s m : List Char) :
    preprocess (s ++ c :: m) = preprocess s ++ c :: preprocess m := by
  simp only [List.mem_cons, List.not_mem_nil, or_false, not_or] at kept
  obtain ⟨noNewline, noReturn, noFeed, noNull⟩ := kept
  fun_induction preprocess s with
  | case1 => simp [preprocess, noReturn, noFeed, noNull]
  | case2 rest ih => simp [preprocess, ih]
  | case3 d rest other ih =>
    rw [List.cons_append, preprocess.eq_3, ih]
    · rfl
    · intro more hd hm
      cases rest with
      | nil =>
        cases hm
        exact noNewline rfl
      | cons e rest =>
        cases hm
        exact other rest hd rfl

/-- With a comma behind it a text that ends inside nothing keeps its tokens, and so does what
follows the comma. -/
theorem tokenize_append_comma (ended : endsInside s = false) (m : List Char) :
    tokenize (s ++ ',' :: m) = tokenize s ++ .literal "," :: tokenize m := by
  simp only [endsInside, Bool.or_eq_false_iff, Bool.not_eq_eq_eq_not, Bool.not_false,
    List.isEmpty_iff] at ended
  have closed : openFrames (([] : List (Frame × List Token)).map Prod.fst)
      (lex (preprocess s)) = [] := ended.2
  unfold tokenize
  rw [preprocess_append (by decide), lex_append_comma ended.1, nest_append closed, nest, nest_level,
    List.append_assoc, List.singleton_append]

/-! ## White space in front -/

theorem isBlank_of_isSpace {c : Char} (h : isSpace c = true) : isBlank c = true := by
  simp only [isSpace, Bool.or_eq_true, beq_iff_eq] at h
  rcases h with (rfl | rfl) | rfl <;> decide

/-- White space of CSS. -/
def IsSpaceToken (t : Token) : Prop :=
  ∃ text : String, t = .whitespace text ∧ AllBlank text.toList

/-- The tokens of a text are white space and the tokens from its first other character on. -/
theorem tokenize_eq_front (s : List Char) : ∃ front, (∀ t ∈ front, IsSpaceToken t) ∧
    tokenize s = front ++ nest [] [] (lex ((preprocess s).dropWhile isSpace)) := by
  unfold tokenize
  generalize preprocess s = s
  cases s with
  | nil => exact ⟨[], by simp, rfl⟩
  | cons c rest =>
    by_cases space : isSpace c = true
    · have one : lexOne c rest = ([.token (.whitespace (.ofList (c :: rest.takeWhile isSpace)))],
          rest.dropWhile isSpace) := by
        rw [lexOne, if_pos space]
      refine ⟨[.whitespace (.ofList (c :: rest.takeWhile isSpace))], ?_, ?_⟩
      · rintro t mem
        obtain rfl := List.mem_singleton.1 mem
        refine ⟨_, rfl, ?_⟩
        rw [String.toList_ofList]
        exact List.forall_mem_cons.2 ⟨isBlank_of_isSpace space,
          fun d hd => isBlank_of_isSpace (List.mem_takeWhile_imp hd)⟩
      · rw [lex, one, List.dropWhile_cons, if_pos space, List.singleton_append, nest, nest_level,
          List.nil_append]
    · exact ⟨[], by simp, by rw [List.dropWhile_cons, if_neg space]; rfl⟩

/-- A space in front of a text changes nothing but the white space in front. -/
theorem tokenize_space (s : List Char) : ∃ front front' rest,
    (∀ t ∈ front, IsSpaceToken t) ∧ (∀ t ∈ front', IsSpaceToken t) ∧
      tokenize (' ' :: s) = front ++ rest ∧ tokenize s = front' ++ rest := by
  obtain ⟨front, spaces, tokens⟩ := tokenize_eq_front (' ' :: s)
  obtain ⟨front', spaces', tokens'⟩ := tokenize_eq_front s
  have same : (preprocess (' ' :: s)).dropWhile isSpace = (preprocess s).dropWhile isSpace := by
    simp [preprocess, isSpace]
  rw [same] at tokens
  exact ⟨front, front', _, spaces, spaces', tokens, tokens'⟩

end NestedStyles.Css
