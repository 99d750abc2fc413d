import NestedStyles.Css.Lexer

/-!
# Where a text ends

A text may end in the middle of something: in an escape, a string, a comment or an address without
quotes. What is put behind it then belongs to that. `endsOpen` says whether it does, reading lexeme
by lexeme. Everywhere else a comma behind the text is a lexeme of its own: every reader reads the
same in front of it and leaves it (`StopsAtComma`), so that the lexemes are those of the text, the
comma, and those of what follows (`lex_append_comma`).
-/

namespace NestedStyles.Css

/-! ## Open ends -/

/-- The name at the start of a text goes on to its end, and its last character is a backslash. -/
def nameEndsInEscape (s : List Char) : Bool :=
  match s with
  | [] => false
  | c :: rest =>
    if isNameChar c then nameEndsInEscape rest
    else if startsEscape (c :: rest) then
      have := length_readEscape rest
      rest.isEmpty || nameEndsInEscape (readEscape rest).2
    else false
termination_by s.length

/-- The rest of a bad address has no `)` without a backslash. -/
def badUrlEndsOpen : List Char → Bool
  | [] => true
  | '\\' :: ')' :: rest => badUrlEndsOpen rest
  | c :: rest => c != ')' && badUrlEndsOpen rest

/-- The text after `url(` ends inside the address. -/
def urlEndsOpen (s : List Char) : Bool :=
  let (_, stop, after) := readUrlChars (s.dropWhile isSpace)
  match stop with
  | .bracket => false
  | .textEnd => true
  | .forbidden => badUrlEndsOpen after
  | .space =>
    match after.dropWhile isSpace with
    | [] => true
    | c :: rest => c != ')' && badUrlEndsOpen (c :: rest)

/-- The name at the start of a text, or the address whose function it names, ends open. -/
def namedEndsOpen (s : List Char) : Bool :=
  nameEndsInEscape s ||
    match readName s with
    | (name, '(' :: rest) =>
      name.map Char.toLower == ['u', 'r', 'l'] && isBareUrl rest && urlEndsOpen rest
    | _ => false

/-- The string that the quote starts has no end. -/
def stringEndsOpen (quote : Char) (s : List Char) : Bool :=
  match (readQuoted quote s).1 with
  | some (_, closed) => !closed
  | none => false

/-- The text ends inside the lexeme that `c` starts. -/
def lexemeEndsOpen (c : Char) (rest : List Char) : Bool :=
  if isSpace c then false
  else if (c == 'U' || c == 'u') && rest.head? == some '+' &&
      (rest.tail.head?.map fun d => isHexDigit d || d == '?').getD false then false
  else if c == '-' && ['-', '>'].isPrefixOf rest then false
  else if startsIdent (c :: rest) then namedEndsOpen (c :: rest)
  else
    match readNumeral? (c :: rest) with
    | some (_, after) => startsIdent after && nameEndsInEscape after
    | none =>
      if c == '@' && startsIdent rest then nameEndsInEscape rest
      else if c == '#' && ((rest.head?.map isNameChar).getD false || startsEscape rest) then
        nameEndsInEscape rest
      else if c == '"' || c == '\'' then stringEndsOpen c rest
      else if c == '/' && rest.head? == some '*' then
        (Text.indexOf? ['*', '/'] rest.tail).isNone
      else false

/-- The text ends inside one of its lexemes. -/
def endsOpen (s : List Char) : Bool :=
  match s with
  | [] => false
  | c :: rest =>
    have := length_lexOne c rest
    lexemeEndsOpen c rest || endsOpen (lexOne c rest).2
termination_by s.length

/-! ## A comma behind a text -/

section

variable {m s : List Char} {p : Char → Bool}

theorem takeWhile_append_comma (no : p ',' = false) (s : List Char) :
    (s ++ ',' :: m).takeWhile p = s.takeWhile p := by
  induction s with
  | nil => simp [no]
  | cons c s ih => simp only [List.cons_append, List.takeWhile_cons, ih]

theorem dropWhile_append_comma (no : p ',' = false) (s : List Char) :
    (s ++ ',' :: m).dropWhile p = s.dropWhile p ++ ',' :: m := by
  induction s with
  | nil => simp [no]
  | cons c s ih =>
    simp only [List.cons_append, List.dropWhile_cons, ih]
    split <;> rfl

theorem takeWhile_take_append_comma (no : p ',' = false) (k : Nat) (s : List Char) :
    ((s ++ ',' :: m).take k).takeWhile p = (s.take k).takeWhile p := by
  rw [List.take_append]
  cases k - s.length with
  | zero => simp
  | succ n => exact takeWhile_append_comma no _

theorem drop_takeWhile_append_comma (k : Nat) (s : List Char) :
    (s ++ ',' :: m).drop ((s.take k).takeWhile p).length =
      s.drop ((s.take k).takeWhile p).length ++ ',' :: m := by
  refine List.drop_append_of_le_length ?_
  have h := (List.takeWhile_prefix p (l := s.take k)).length_le
  have h' := List.length_take_le' k s
  omega

theorem head?_append_comma {c : Char} (other : c ≠ ',') (s : List Char) :
    ((s ++ ',' :: m).head? == some c) = (s.head? == some c) := by
  cases s with
  | nil => simpa using other.symm
  | cons => rfl

theorem head?_map_append_comma (no : p ',' = false) (s : List Char) :
    ((s ++ ',' :: m).head?.map p).getD false = (s.head?.map p).getD false := by
  cases s with
  | nil => simpa using no
  | cons => rfl

theorem isPrefixOf_append_comma {part : List Char} (no : ',' ∉ part) (s : List Char) :
    part.isPrefixOf (s ++ ',' :: m) = part.isPrefixOf s := by
  induction part generalizing s with
  | nil => simp
  | cons d part ih =>
    rw [List.mem_cons, not_or] at no
    cases s with
    | nil => simp [List.isPrefixOf, Ne.symm no.1]
    | cons c s => simp only [List.cons_append, List.isPrefixOf, ih no.2]

theorem drop_append_comma_of_isPrefixOf {part : List Char} (h : part.isPrefixOf s = true) :
    (s ++ ',' :: m).drop part.length = s.drop part.length ++ ',' :: m :=
  List.drop_append_of_le_length (List.isPrefixOf_iff_prefix.1 h).length_le

theorem indexOf?_append_comma {part : List Char} {i : Nat} (no : ',' ∉ part)
    (h : Text.indexOf? part s = some i) :
    Text.indexOf? part (s ++ ',' :: m) = some i ∧ i + part.length ≤ s.length := by
  induction s generalizing i with
  | nil =>
    simp only [Text.indexOf?, Option.ite_none_right_eq_some, List.isEmpty_iff] at h
    obtain ⟨rfl, h⟩ := h
    cases h
    simp [Text.indexOf?]
  | cons c s ih =>
    have same := isPrefixOf_append_comma (m := m) no (c :: s)
    rw [List.cons_append] at same ⊢
    rw [Text.indexOf?] at h ⊢
    rw [same]
    split at h
    · next here =>
      cases h
      exact ⟨if_pos here, by simpa using (List.isPrefixOf_iff_prefix.1 here).length_le⟩
    · next later =>
      obtain ⟨j, found, rfl⟩ := Option.map_eq_some_iff.1 h
      obtain ⟨again, fits⟩ := ih found
      refine ⟨by rw [if_neg later, again]; rfl, ?_⟩
      simp only [List.length_cons]
      omega

end

/-! ## Readers that leave a comma -/

/-- With a comma behind the text the reader reads the same and leaves the comma. -/
def StopsAtComma {α : Type} (read : List Char → α × List Char) (s : List Char) : Prop :=
  ∀ m, read (s ++ ',' :: m) = ((read s).1, (read s).2 ++ ',' :: m)

section

variable {c : Char} {s rest : List Char}

theorem startsEscape_append_comma (s m : List Char) :
    startsEscape (s ++ ',' :: m) = startsEscape s := by
  cases s with
  | nil => rfl
  | cons c rest =>
    by_cases backslash : c = '\\'
    · subst backslash
      cases rest <;> rfl
    · simp [startsEscape, backslash]

theorem startsIdent_append_comma (s m : List Char) :
    startsIdent (s ++ ',' :: m) = startsIdent s := by
  cases s with
  | nil => rfl
  | cons c rest =>
    have escape := startsEscape_append_comma (c :: rest) m
    have inner := startsEscape_append_comma rest m
    rw [List.cons_append] at escape ⊢
    simp only [startsIdent, escape]
    cases rest with
    | nil => simp [isNameStart, startsEscape]
    | cons d rest =>
      rw [List.cons_append] at inner ⊢
      simp only [inner]

theorem stops_readEscape (some : s ≠ []) : StopsAtComma readEscape s := by
  intro m
  have taken := takeWhile_take_append_comma (m := m) (show isHexDigit ',' = false by decide) 6 s
  have left := drop_takeWhile_append_comma (m := m) (p := isHexDigit) 6 s
  unfold readEscape
  rw [taken]
  cases digits : (s.take 6).takeWhile isHexDigit with
  | nil =>
    cases s with
    | nil => exact absurd rfl some
    | cons c rest => rfl
  | cons d ds =>
    rw [digits] at left
    simp only [left]
    rw [head?_map_append_comma (show isSpace ',' = false by decide)]
    split
    · next space =>
      cases after : s.drop (d :: ds).length with
      | nil =>
        rw [after] at space
        cases space
      | cons => rfl
    · rfl

theorem stops_readName (ended : nameEndsInEscape s = false) : StopsAtComma readName s := by
  intro m
  fun_induction nameEndsInEscape s with
  | case1 => simp [readName, isNameChar, isNameStart, startsEscape]
  | case2 c rest nameChar ih =>
    rw [List.cons_append, readName, if_pos nameChar, ih ended, readName, if_pos nameChar]
  | case3 c rest other escape _ ih =>
    simp only [Bool.or_eq_false_iff, List.isEmpty_eq_false_iff] at ended
    have again := startsEscape_append_comma (c :: rest) m
    rw [List.cons_append, escape] at again
    rw [List.cons_append, readName, if_neg other, if_pos again, stops_readEscape ended.1 m]
    rw [ih ended.2, readName.eq_2 c rest, if_neg other, if_pos escape]
  | case4 c rest other plain =>
    have again := startsEscape_append_comma (c :: rest) m
    rw [List.cons_append] at again
    rw [List.cons_append, readName, if_neg other, if_neg (by rwa [again]), readName, if_neg other,
      if_neg plain]
    rfl

theorem stops_readUnicodeRange (s : List Char) : StopsAtComma readUnicodeRange s := by
  intro m
  unfold readUnicodeRange
  dsimp only
  rw [takeWhile_take_append_comma (by decide), drop_takeWhile_append_comma]
  generalize s.drop ((s.take 6).takeWhile isHexDigit).length = rest
  generalize (s.take 6).takeWhile isHexDigit = digits
  rw [takeWhile_take_append_comma (by decide), drop_takeWhile_append_comma,
    head?_append_comma (by decide)]
  cases rest with
  | nil => simp
  | cons c rest =>
    simp only [List.cons_append, List.drop_succ_cons, List.drop_zero]
    rw [takeWhile_take_append_comma (by decide)]
    split
    · rfl
    · split
      · rw [Nat.add_comm 1, List.drop_succ_cons, drop_takeWhile_append_comma, List.drop_succ_cons]
      · rfl

/-! ### Numbers -/

theorem signOf_append_comma (s m : List Char) : signOf (s ++ ',' :: m) = signOf s := by
  cases s <;> simp [signOf]

theorem digitsOf_append_comma (s m : List Char) : digitsOf (s ++ ',' :: m) = digitsOf s :=
  takeWhile_append_comma (by decide) s

theorem fractionOf_append_comma (s m : List Char) : fractionOf (s ++ ',' :: m) = fractionOf s := by
  cases s with
  | nil => simp [fractionOf]
  | cons c rest => simp only [List.cons_append, fractionOf, digitsOf_append_comma]

theorem length_signOf (s : List Char) : (signOf s).length ≤ s.length :=
  Nat.le_trans (List.length_filter_le _ _) (List.length_take_le' 1 s)

theorem length_digitsOf (s : List Char) : (digitsOf s).length ≤ s.length :=
  (List.takeWhile_prefix _).length_le

theorem length_fractionOf (s : List Char) : (fractionOf s).length ≤ s.length := by
  cases s with
  | nil => simp [fractionOf]
  | cons c rest =>
    have h := length_digitsOf rest
    simp only [fractionOf]
    split <;> simp only [List.length_cons, List.length_nil] <;> omega

theorem exponentOf_append_comma (s m : List Char) : exponentOf (s ++ ',' :: m) = exponentOf s := by
  cases s with
  | nil => simp [exponentOf]
  | cons c rest =>
    simp only [List.cons_append, exponentOf, signOf_append_comma]
    rw [List.drop_append_of_le_length (length_signOf rest), digitsOf_append_comma]

theorem length_exponentOf (s : List Char) : (exponentOf s).length ≤ s.length := by
  cases s with
  | nil => simp [exponentOf]
  | cons c rest =>
    have h := length_signOf rest
    have h' := length_digitsOf (rest.drop (signOf rest).length)
    rw [List.length_drop] at h'
    simp only [exponentOf]
    split <;> simp only [List.length_cons, List.length_append, List.length_nil] <;> omega

theorem readNumeral?_append_comma (s m : List Char) : readNumeral? (s ++ ',' :: m) =
    (readNumeral? s).map fun (n, after) => (n, after ++ ',' :: m) := by
  have h1 := length_signOf s
  have h2 := length_digitsOf (s.drop (signOf s).length)
  have h3 := length_fractionOf
    (s.drop (signOf s ++ digitsOf (s.drop (signOf s).length)).length)
  have h4 := length_exponentOf (s.drop (signOf s ++ digitsOf (s.drop (signOf s).length) ++
    fractionOf (s.drop (signOf s ++ digitsOf (s.drop (signOf s).length)).length)).length)
  simp only [List.length_drop, List.length_append] at h1 h2 h3 h4
  unfold readNumeral?
  dsimp only
  rw [signOf_append_comma, List.drop_append_of_le_length h1, digitsOf_append_comma]
  rw [List.drop_append_of_le_length (by rw [List.length_append]; omega), fractionOf_append_comma]
  rw [List.drop_append_of_le_length (by simp only [List.length_append]; omega),
    exponentOf_append_comma]
  split
  · rfl
  · rw [List.drop_append_of_le_length (by simp only [List.length_append]; omega)]
    rfl

theorem stops_lexNumeral (n : Numeral)
    (ended : (startsIdent s && nameEndsInEscape s) = false) : StopsAtComma (lexNumeral n) s := by
  intro m
  unfold lexNumeral
  rw [startsIdent_append_comma, head?_append_comma (by decide)]
  split
  · next ident =>
    rw [ident, Bool.true_and] at ended
    rw [stops_readName ended m]
  · cases s with
    | nil => rfl
    | cons c rest => split <;> rfl

/-! ### Addresses and strings -/

theorem skipBadUrl_append_comma (ended : badUrlEndsOpen s = false) (m : List Char) :
    skipBadUrl (s ++ ',' :: m) = skipBadUrl s ++ ',' :: m := by
  fun_induction badUrlEndsOpen s with
  | case1 => cases ended
  | case2 rest ih => simpa [skipBadUrl] using ih ended
  | case3 c rest other ih =>
    have other' : ∀ after, c = '\\' → rest ++ ',' :: m = ')' :: after → False := by
      intro after backslash bracket
      cases rest with
      | nil => cases bracket
      | cons d rest =>
        cases bracket
        exact other rest backslash rfl
    rw [List.cons_append, skipBadUrl.eq_3 c _ other', skipBadUrl.eq_3 c _ other]
    split
    · rfl
    · next inside =>
      exact ih (by simpa [show c ≠ ')' by simpa using inside] using ended)

theorem readUrlChars_append_comma {stop : UrlStop} {value after : List Char}
    (read : readUrlChars s = (value, stop, after)) (ended : stop ≠ .textEnd) (m : List Char) :
    readUrlChars (s ++ ',' :: m) = (value, stop, after ++ ',' :: m) := by
  fun_induction readUrlChars s generalizing value with
  | case1 =>
    cases read
    exact absurd rfl ended
  | case2 c rest bracket =>
    cases read
    rw [List.cons_append, readUrlChars, if_pos bracket]
  | case3 c rest other space =>
    cases read
    rw [List.cons_append, readUrlChars, if_neg other, if_pos space]
  | case4 c rest other solid escape _ inner stop' after' found ih =>
    cases read
    have again := startsEscape_append_comma (c :: rest) m
    rw [List.cons_append, escape] at again
    have more : rest ≠ [] := by
      rintro rfl
      simp [readEscape, readUrlChars] at found
      exact ended found.2.1.symm
    rw [List.cons_append, readUrlChars, if_neg other, if_neg solid, if_pos again,
      stops_readEscape more m, ih found]
  | case5 c rest other solid plain forbidden =>
    have again := startsEscape_append_comma (c :: rest) m
    cases read
    rw [List.cons_append] at again
    rw [List.cons_append, readUrlChars, if_neg other, if_neg solid, if_neg (by rwa [again]),
      if_pos forbidden]
  | case6 c rest other solid plain allowed inner stop' after' found ih =>
    cases read
    have again := startsEscape_append_comma (c :: rest) m
    rw [List.cons_append] at again
    rw [List.cons_append, readUrlChars, if_neg other, if_neg solid, if_neg (by rwa [again]),
      if_neg allowed, ih found]

theorem stops_readUrl (ended : urlEndsOpen s = false) : StopsAtComma readUrl s := by
  intro m
  unfold urlEndsOpen at ended
  unfold readUrl
  rw [dropWhile_append_comma (by decide)]
  cases chars : readUrlChars (s.dropWhile isSpace) with
  | mk value found =>
    obtain ⟨stop, after⟩ := found
    rw [chars] at ended
    cases stop with
    | textEnd => cases ended
    | bracket => rw [readUrlChars_append_comma chars (by decide)]
    | forbidden =>
      rw [readUrlChars_append_comma chars (by decide)]
      simp only [skipBadUrl_append_comma ended]
    | space =>
      rw [readUrlChars_append_comma chars (by decide)]
      dsimp only at ended ⊢
      rw [dropWhile_append_comma (by decide)]
      cases left : after.dropWhile isSpace with
      | nil =>
        rw [left] at ended
        cases ended
      | cons c rest =>
        rw [left] at ended
        dsimp only [List.cons_append] at ended ⊢
        split
        · rfl
        · next other =>
          have notClosing : c ≠ ')' := by simpa using other
          have bad : badUrlEndsOpen (c :: rest) = false := by simpa [notClosing] using ended
          rw [← List.cons_append, skipBadUrl_append_comma bad]

theorem readQuoted_append_comma {quote : Char} {found : Option (List Char × Bool)}
    {after : List Char} (read : readQuoted quote s = (found, after))
    (ended : ∀ value, found ≠ some (value, false)) (m : List Char) :
    readQuoted quote (s ++ ',' :: m) = (found, after ++ ',' :: m) := by
  fun_induction readQuoted quote s generalizing found with
  | case1 =>
    cases read
    exact absurd rfl (ended [])
  | case2 c rest quoted =>
    cases read
    rw [List.cons_append, readQuoted, if_pos quoted]
  | case3 c rest other backslash last =>
    cases read
    exact absurd rfl (ended [])
  | case4 c rest other backslash more newline ih =>
    obtain ⟨d, rest, rfl⟩ := List.exists_cons_of_ne_nil (by simpa using more)
    rw [List.cons_append, readQuoted, if_neg other, if_pos backslash, if_neg (by simp),
      if_pos (by exact newline)]
    exact ih read ended
  | case5 c rest other backslash more shown _ inner after' eq ih =>
    have more' : rest ≠ [] := by simpa using more
    cases read
    have again := head?_append_comma (m := m) (show '\n' ≠ ',' by decide) rest
    rw [List.cons_append, readQuoted, if_neg other, if_pos backslash, if_neg (by simp),
      if_neg (by rwa [again]), stops_readEscape more' m, ih eq]
    intro value open'
    exact ended _ (by rw [open']; rfl)
  | case6 c rest other plain newline =>
    cases read
    rw [List.cons_append, readQuoted, if_neg other, if_neg plain, if_pos newline]
  | case7 c rest other plain inside inner after' eq ih =>
    cases read
    rw [List.cons_append, readQuoted, if_neg other, if_neg plain, if_neg inside, ih eq]
    intro value open'
    exact ended _ (by rw [open']; rfl)

theorem stops_lexString {quote : Char} (ended : stringEndsOpen quote s = false) :
    StopsAtComma (lexString quote) s := by
  intro m
  unfold stringEndsOpen at ended
  unfold lexString
  cases read : readQuoted quote s with
  | mk found after =>
    rw [read] at ended
    have closed : ∀ value, found ≠ some (value, false) := by
      rintro value rfl
      cases ended
    rw [readQuoted_append_comma read closed]
    dsimp only
    split <;> rfl

/-! ### Lexemes -/

theorem isBareUrl_append_comma (s m : List Char) : isBareUrl (s ++ ',' :: m) = isBareUrl s := by
  unfold isBareUrl
  rw [dropWhile_append_comma (by decide)]
  cases s.dropWhile isSpace <;> rfl

theorem stops_lexName (ended : namedEndsOpen s = false) : StopsAtComma lexName s := by
  intro m
  rw [namedEndsOpen, Bool.or_eq_false_iff] at ended
  obtain ⟨noEscape, address⟩ := ended
  unfold lexName
  rw [stops_readName noEscape m]
  generalize readName s = read at address ⊢
  obtain ⟨name, after⟩ := read
  cases after with
  | nil => rfl
  | cons c rest =>
    dsimp only [List.cons_append]
    rw [isBareUrl_append_comma]
    split
    · next bracket =>
      obtain rfl : c = '(' := by simpa using bracket
      split
      · next bare =>
        rw [stops_readUrl (by simpa [bare] using address) m]
      · rfl
    · rfl

theorem drop_one_append_comma {d : Char} (first : (s.head? == some d) = true) (m : List Char) :
    (s ++ ',' :: m).drop 1 = s.drop 1 ++ ',' :: m := by
  cases s with
  | nil => cases first
  | cons => rfl

theorem stops_lexMark (c : Char) (rest : List Char) : StopsAtComma (lexMark c) rest := by
  intro m
  unfold lexMark
  rw [isPrefixOf_append_comma (by decide), head?_append_comma (by decide),
    head?_append_comma (by decide)]
  iterate 6 (split; · rfl)
  split
  · next comment =>
    rw [Bool.and_eq_true] at comment
    exact congrArg (Prod.mk _) (drop_append_comma_of_isPrefixOf comment.2)
  · split
    · next bar =>
      rw [Bool.and_eq_true] at bar
      rw [drop_one_append_comma bar.2]
    · split
      · next compares =>
        rw [Bool.and_eq_true] at compares
        rw [drop_one_append_comma compares.2]
      · rfl

/-- The text behind `U` goes on as a range of code points. -/
theorem range_append_comma (s m : List Char) :
    ((s ++ ',' :: m).head? == some '+' && ((s ++ ',' :: m).tail.head?.map fun d =>
      isHexDigit d || d == '?').getD false) =
    (s.head? == some '+' && (s.tail.head?.map fun d => isHexDigit d || d == '?').getD false) := by
  cases s with
  | nil => rfl
  | cons c s =>
    have next := head?_map_append_comma (m := m) (p := fun d => isHexDigit d || d == '?')
      (by decide) s
    simp only [List.cons_append, List.head?_cons, List.tail_cons, next]

theorem stops_lexOne (ended : lexemeEndsOpen c rest = false) : StopsAtComma (lexOne c) rest := by
  intro m
  unfold lexemeEndsOpen at ended
  unfold lexOne
  have range := range_append_comma rest m
  have nameHere := startsIdent_append_comma (c :: rest) m
  have number := readNumeral?_append_comma (c :: rest) m
  rw [List.cons_append] at nameHere number
  rw [takeWhile_append_comma (by decide), dropWhile_append_comma (by decide), Bool.and_assoc, range,
    ← Bool.and_assoc, isPrefixOf_append_comma (by decide), nameHere, number,
    startsIdent_append_comma, head?_map_append_comma (by decide), startsEscape_append_comma,
    head?_append_comma (by decide)]
  by_cases space : isSpace c
  · simp only [if_pos space]
  simp only [if_neg space] at ended ⊢
  by_cases points : ((c == 'U' || c == 'u') && rest.head? == some '+' &&
      (rest.tail.head?.map fun d => isHexDigit d || d == '?').getD false) = true
  · simp only [if_pos points]
    cases rest with
    | nil => simp at points
    | cons d rest =>
      dsimp only [List.cons_append, List.tail_cons]
      rw [stops_readUnicodeRange rest m]
  simp only [if_neg points] at ended ⊢
  by_cases arrow : (c == '-' && ['-', '>'].isPrefixOf rest) = true
  · simp only [if_pos arrow]
    rw [Bool.and_eq_true] at arrow
    exact congrArg (Prod.mk _) (drop_append_comma_of_isPrefixOf arrow.2)
  simp only [if_neg arrow] at ended ⊢
  by_cases ident : startsIdent (c :: rest) = true
  · simp only [if_pos ident] at ended ⊢
    exact stops_lexName ended m
  simp only [if_neg ident] at ended ⊢
  cases found : readNumeral? (c :: rest) with
  | some read =>
    rw [found] at ended
    exact stops_lexNumeral read.1 ended m
  | none =>
    rw [found] at ended
    dsimp only [Option.map_none] at ended ⊢
    by_cases keyword : (c == '@' && startsIdent rest) = true
    · simp only [if_pos keyword] at ended ⊢
      rw [stops_readName ended m]
    simp only [if_neg keyword] at ended ⊢
    by_cases hash : (c == '#' && ((rest.head?.map isNameChar).getD false || startsEscape rest)) = true
    · simp only [if_pos hash] at ended ⊢
      rw [stops_readName ended m]
    simp only [if_neg hash] at ended ⊢
    by_cases quote : (c == '"' || c == '\'') = true
    · simp only [if_pos quote] at ended ⊢
      exact stops_lexString ended m
    simp only [if_neg quote] at ended ⊢
    by_cases comment : (c == '/' && rest.head? == some '*') = true
    · simp only [if_pos comment] at ended ⊢
      cases rest with
      | nil => simp at comment
      | cons d rest =>
        dsimp only [List.cons_append, List.tail_cons] at ended ⊢
        obtain ⟨i, closed⟩ := Option.isSome_iff_exists.1 (by simpa using ended)
        obtain ⟨again, fits⟩ := indexOf?_append_comma (m := m) (by decide) closed
        rw [closed, again]
        exact congrArg (Prod.mk _) (List.drop_append_of_le_length fits)
    simp only [if_neg comment] at ended ⊢
    exact stops_lexMark c rest m

/-! ## The lexemes around a comma -/

theorem lex_comma (m : List Char) : lex (',' :: m) = .token (.literal ",") :: lex m := by
  have number : readNumeral? (',' :: m) = none := readNumeral?_append_comma [] m
  have ident : startsIdent (',' :: m) = false := startsIdent_append_comma [] m
  have mark : lexOne ',' m = ([.token (.literal ",")], m) := by
    simp [lexOne, isSpace, ident, number, lexMark]
  rw [lex, mark]
  rfl

/-- A comma behind a text that does not end inside a lexeme is a lexeme of its own. -/
theorem lex_append_comma (ended : endsOpen s = false) (m : List Char) :
    lex (s ++ ',' :: m) = lex s ++ .token (.literal ",") :: lex m := by
  fun_induction endsOpen s with
  | case1 => rw [List.nil_append, lex_comma, lex]; rfl
  | case2 c rest _ ih =>
    rw [Bool.or_eq_false_iff] at ended
    rw [List.cons_append, lex, stops_lexOne ended.1 m, lex, ih ended.2, List.append_assoc]

end

end NestedStyles.Css
