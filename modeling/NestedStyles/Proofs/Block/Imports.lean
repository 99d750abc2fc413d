import NestedStyles.Proofs.Block.CommentedLines

/-!
# The form of an import

`readImport` looks for the path first, and for the last `from` in front of it. A text it reads is
nevertheless no other than one of the plain form: the keyword, names with commas between them,
`from`, a path in quotes and a `;` if there is one, with white space over any number of lines
(`readImport_iff`). In particular `from` may be one of the names.
-/

namespace NestedStyles.Layout

open Text

/-- White space that parts two words, over any number of lines. -/
structure Parting extends Blanks where
  nonempty : chars ≠ []

/-- A path in quotes. The quotes need not be of one kind. -/
structure QuotedPath where
  opening : Char
  path : List Char
  closing : Char
  opens : Block.isQuote opening = true
  closes : Block.isQuote closing = true
  nonempty : path ≠ []
  unquoted : ∀ c ∈ path, Block.isQuote c = false

/-- The path as written. -/
def QuotedPath.text (p : QuotedPath) : List Char :=
  p.opening :: (p.path ++ [p.closing])

/-- White space, with a `;` in it or none. -/
structure Ending where
  gap : Blanks
  semicolon : Option Blanks

/-- The end of a line as written. -/
def Ending.text (e : Ending) : List Char :=
  e.gap.chars ++ (e.semicolon.map fun more => ';' :: more.chars).getD []

/-- What stands between the commas of a list, without white space around it. Empty places are
passed over. -/
def places (list : List Char) : List (List Char) :=
  ((list.splitOn ',').map trim).filter (· ≠ [])

/-- A list that starts with a word and has names at its places. -/
structure NameList where
  chars : List Char
  starts : ∃ c ∈ chars.head?, isWordChar c = true
  named : ∀ place ∈ places chars, isName place = true

/-- An import, with its names in any list. -/
structure ImportText where
  space : Parting
  list : NameList
  before : Parting
  after : Parting
  path : QuotedPath
  ending : Ending

namespace ImportText

/-- The import as written. -/
def text (i : ImportText) : List Char :=
  ['@', 'i', 'm', 'p', 'o', 'r', 't'] ++ i.space.chars ++ i.list.chars ++ i.before.chars ++
    ['f', 'r', 'o', 'm'] ++ i.after.chars ++ i.path.text ++ i.ending.text

/-- What is imported. -/
def meaning (i : ImportText) : ImportDirective :=
  ⟨(places i.list.chars).map .ofList, .ofList i.path.path⟩

end ImportText

/-- Names with a comma between any two of them. -/
structure Names where
  first : Name
  more : List (Blanks × Blanks × Name)

namespace Names

/-- A name but the first with the comma in front of it. -/
def further : Blanks × Blanks × Name → List Char
  | (before, after, name) => before.chars ++ ',' :: (after.chars ++ name.chars)

/-- The names as written. -/
def text (ns : Names) : List Char :=
  ns.first.chars ++ ns.more.flatMap further

/-- The names by themselves. -/
def names (ns : Names) : List Name :=
  ns.first :: ns.more.map fun (_, _, name) => name

end Names

end NestedStyles.Layout

namespace NestedStyles.Block

open Text Layout

variable {s u part rest path : List Char}

/-! ## What the readers of the parts accept -/

theorem after?_eq_some_iff : after? part s = some rest ↔ s = part ++ rest := by
  constructor
  · exact fun found => (append_of_after? found).symm
  · rintro rfl
    exact after?_append part rest

theorem startsSolid_trimLeft (s : List Char) : StartsSolid (trimLeft s) :=
  trimLeft_eq_self_iff.1 (List.dropWhile_idempotent isBlank s)

theorem exists_trimLeft (s : List Char) : ∃ u, AllBlank u ∧ s = u ++ trimLeft s :=
  ⟨s.takeWhile isBlank, fun _ mem => List.mem_takeWhile_imp mem,
    List.takeWhile_append_dropWhile.symm⟩

theorem afterBlanks?_eq_some_iff : afterBlanks? s = some rest ↔
    StartsSolid rest ∧ ∃ u, u ≠ [] ∧ AllBlank u ∧ s = u ++ rest := by
  constructor
  · intro found
    cases s with
    | nil => cases found
    | cons c s =>
      rw [afterBlanks?] at found
      split at found
      next blank =>
        obtain rfl := Option.some.inj found
        obtain ⟨u, blank', whole⟩ := exists_trimLeft s
        exact ⟨startsSolid_trimLeft s, c :: u, List.cons_ne_nil c u,
          List.forall_mem_cons.2 ⟨blank, blank'⟩, congrArg (c :: ·) whole⟩
      next => cases found
  · rintro ⟨solid, u, nonempty, blank, rfl⟩
    exact afterBlanks?_append nonempty blank solid

theorem allBlank_reverse : AllBlank u.reverse ↔ AllBlank u :=
  forall_congr' fun _ => imp_congr_left List.mem_reverse

theorem startsSolid_reverse : StartsSolid u.reverse ↔ EndsSolid u := by
  rw [StartsSolid, EndsSolid, List.head?_reverse]

theorem beforeFrom?_eq_some_iff : beforeFrom? s = some rest ↔
    EndsSolid rest ∧ ∃ before after, before ≠ [] ∧ AllBlank before ∧ after ≠ [] ∧ AllBlank after ∧
      s = rest ++ (before ++ (['f', 'r', 'o', 'm'] ++ after)) := by
  constructor
  · intro found
    simp only [beforeFrom?, Option.bind_eq_bind, Option.pure_def, Option.bind_eq_some_iff,
      Option.some.injEq] at found
    obtain ⟨behind, ended, keyword, word, before, reversed, rfl⟩ := found
    obtain ⟨-, after, some, blank, whole⟩ := afterBlanks?_eq_some_iff.1 ended
    obtain ⟨solid, gap, some', blank', rfl⟩ := afterBlanks?_eq_some_iff.1 reversed
    refine ⟨startsSolid_reverse.1 (by rwa [List.reverse_reverse]), gap.reverse, after.reverse,
      by simpa using some', allBlank_reverse.2 blank', by simpa using some,
      allBlank_reverse.2 blank, ?_⟩
    rw [← List.reverse_reverse s, whole, after?_eq_some_iff.1 word]
    simp
  · rintro ⟨solid, before, after, some, blank, some', blank', rfl⟩
    exact beforeFrom?_append solid some blank some' blank'

theorem isLineEnd_iff : isLineEnd s = true ↔ ∃ e : Ending, s = e.text := by
  constructor
  · intro ended
    obtain ⟨u, blank, whole⟩ := exists_trimLeft s
    unfold isLineEnd at ended
    split at ended
    next behind =>
      exact ⟨⟨⟨u, blank⟩, none⟩, by rw [whole, behind]; rfl⟩
    next c more behind =>
      obtain ⟨semicolon, blank'⟩ := Bool.and_eq_true_iff.1 ended
      obtain rfl := eq_of_beq semicolon
      exact ⟨⟨⟨u, blank⟩, some ⟨more, List.all_eq_true.1 blank'⟩⟩, by rw [whole, behind]; rfl⟩
  · rintro ⟨⟨⟨u, blank⟩, more⟩, rfl⟩
    cases more with
    | none =>
      have blank' : trimLeft u = [] := List.dropWhile_eq_nil_iff.2 blank
      simp [Ending.text, isLineEnd, blank']
    | some more =>
      have solid : StartsSolid (';' :: more.chars) := startsSolid_cons (by decide)
      have blank' : more.chars.all isBlank = true := List.all_eq_true.2 more.blank
      simp [Ending.text, isLineEnd, trimLeft_append blank, trimLeft_eq_self_iff.2 solid, blank']

theorem splitPath?_eq_some_iff : splitPath? s = some (path, rest) ↔
    ∃ p : QuotedPath, p.path = path ∧ s = p.text ++ rest := by
  constructor
  · intro found
    obtain ⟨nonempty, opening, closing, whole, opens, closes, unquoted⟩ := eq_of_splitPath? found
    exact ⟨⟨opening, path, closing, opens, closes, nonempty, unquoted⟩, rfl,
      by simp [whole, QuotedPath.text]⟩
  · rintro ⟨p, rfl, rfl⟩
    have whole : p.text ++ rest = p.opening :: (p.path ++ p.closing :: rest) := by
      simp [QuotedPath.text]
    rw [whole]
    exact splitPath?_cons p.opens p.closes p.nonempty p.unquoted rest

/-! ## Lists of names -/

theorem map_trim_splitOn_append_blank (blank : AllBlank u) (s : List Char) :
    ((s ++ u).splitOn ',').map trim = (s.splitOn ',').map trim := by
  by_cases comma : ',' ∈ s
  · obtain ⟨front, behind, rfl⟩ := List.mem_iff_append.1 comma
    rw [List.append_assoc, List.cons_append, List.splitOn_append_cons_self,
      List.splitOn_append_cons_self, List.map_append, List.map_append,
      map_trim_splitOn_append_blank blank behind]
  · have comma' : ',' ∉ s ++ u := by
      simp [comma, comma_notMem_blank blank]
    rw [List.splitOn_eq_singleton comma, List.splitOn_eq_singleton comma', List.map_singleton,
      List.map_singleton, trim_append_blank blank]
termination_by s.length
decreasing_by
  simp_all
  omega

theorem places_append_blank (blank : AllBlank u) : places (s ++ u) = places s := by
  rw [places, map_trim_splitOn_append_blank blank, places]

theorem readNames_eq_some_iff {names : List (List Char)} : readNames s = some names ↔
    (∃ c ∈ s.head?, isWordChar c = true) ∧ (∀ place ∈ places s, isName place = true) ∧
      places s = names := by
  have first : (s.head?.map isWordChar).getD false = true ↔ ∃ c ∈ s.head?, isWordChar c = true := by
    cases s <;> simp
  rw [readNames, ← places, ← first, ← List.all_eq_true]
  simp only [Option.ite_none_right_eq_some, Bool.and_eq_true, Option.some.injEq, and_assoc]

section

variable (list : NameList)

theorem readNames_nameList : readNames list.chars = some (places list.chars) :=
  readNames_eq_some_iff.2 ⟨list.starts, list.named, rfl⟩

theorem isQuote_of_mem_nameList : ∀ c ∈ list.chars, isQuote c = false := by
  intro c mem
  cases solid : isBlank c with
  | true => exact isQuote_of_isBlank solid
  | false =>
    obtain rfl | name := mem_of_readNames solid (readNames_nameList list) mem
    · decide
    · exact isQuote_of_isNameChar name

theorem startsSolid_nameList : StartsSolid list.chars := by
  obtain ⟨c, head, word⟩ := list.starts
  intro d head'
  obtain rfl := Option.mem_unique head head'
  exact isBlank_of_isNameChar (by simp [isNameChar, word])

theorem nameList_ne_nil : list.chars ≠ [] := by
  obtain ⟨c, head, -⟩ := list.starts
  exact List.ne_nil_of_mem (List.mem_of_mem_head? head)

/-- White space at the end of a list may count as white space in front of `from`. -/
theorem exists_core : ∃ core u, list.chars = core ++ u ∧ AllBlank u ∧ EndsSolid core ∧
    readNames core = some (places list.chars) := by
  obtain ⟨u, blank, whole⟩ := exists_trimLeft list.chars.reverse
  have whole' : list.chars = trimRight list.chars ++ u.reverse := by
    rw [trimRight, ← List.reverse_append, ← trimLeft, ← whole, List.reverse_reverse]
  have blank' : AllBlank u.reverse := allBlank_reverse.2 blank
  have solid : EndsSolid (trimRight list.chars) :=
    startsSolid_reverse.1 (by rw [trimRight, List.reverse_reverse]; exact startsSolid_trimLeft _)
  generalize trimRight list.chars = core at whole' solid
  refine ⟨core, u.reverse, whole', blank', solid, readNames_eq_some_iff.2 ⟨?_, ?_, ?_⟩⟩
  · have nonempty : core ≠ [] := by
      rintro rfl
      rw [List.nil_append] at whole'
      obtain ⟨c, more, cons⟩ := List.exists_cons_of_ne_nil (nameList_ne_nil list)
      have solid' := startsSolid_nameList list
      rw [cons] at whole' solid'
      cases (blank' c (whole' ▸ List.mem_cons_self)).symm.trans (solid' c rfl)
    have starts := list.starts
    rwa [whole', List.head?_append_of_ne_nil _ nonempty] at starts
  · have named := list.named
    rwa [whole', places_append_blank blank'] at named
  · rw [whole', places_append_blank blank']

end

/-! ## Imports -/

theorem isQuote_of_allBlank (blank : AllBlank u) : ∀ c ∈ u, isQuote c = false :=
  fun c mem => isQuote_of_isBlank (blank c mem)

theorem readImport_importText {s : List Char} (i : ImportText) (h : trim s = i.text) :
    readImport s = some i.meaning := by
  obtain ⟨core, gap, whole, blank, solid, names⟩ := exists_core i.list
  let head := ['@', 'i', 'm', 'p', 'o', 'r', 't'] ++ (i.space.chars ++ (i.list.chars ++
    (i.before.chars ++ (['f', 'r', 'o', 'm'] ++ i.after.chars))))
  have parts : trim s = head ++ (i.path.text ++ i.ending.text) := by
    simp [h, ImportText.text, head]
  have unquoted : ∀ c ∈ head, (!isQuote c) = true := by
    simp only [Bool.not_eq_true']
    exact List.forall_mem_append.2 ⟨by decide, List.forall_mem_append.2
      ⟨isQuote_of_allBlank i.space.blank, List.forall_mem_append.2
      ⟨isQuote_of_mem_nameList i.list, List.forall_mem_append.2
      ⟨isQuote_of_allBlank i.before.blank, List.forall_mem_append.2
      ⟨by decide, isQuote_of_allBlank i.after.blank⟩⟩⟩⟩⟩
  have front : (trim s).takeWhile (fun c => !isQuote c) = head := by
    rw [parts, List.takeWhile_append_of_pos unquoted]
    simp [QuotedPath.text, i.path.opens]
  have list : beforeFrom? (i.list.chars ++ (i.before.chars ++ (['f', 'r', 'o', 'm'] ++
      i.after.chars))) = some core :=
    beforeFrom?_eq_some_iff.2 ⟨solid, gap ++ i.before.chars, i.after.chars,
      by simp [i.before.nonempty], blank.append i.before.blank, i.after.nonempty, i.after.blank,
      by simp [whole]⟩
  have keyword : after? ['@', 'i', 'm', 'p', 'o', 'r', 't'] head = some (i.space.chars ++
      (i.list.chars ++ (i.before.chars ++ (['f', 'r', 'o', 'm'] ++ i.after.chars)))) :=
    after?_append _ _
  have solid' : StartsSolid (i.list.chars ++ (i.before.chars ++ (['f', 'r', 'o', 'm'] ++
      i.after.chars))) :=
    .of_append (nameList_ne_nil i.list) (startsSolid_nameList i.list)
  have parted := afterBlanks?_append i.space.nonempty i.space.blank solid'
  have path : splitPath? ((trim s).drop head.length) = some (i.path.path, i.ending.text) :=
    splitPath?_eq_some_iff.2 ⟨i.path, rfl, by rw [parts, List.drop_left]⟩
  have ended : isLineEnd i.ending.text = true := isLineEnd_iff.2 ⟨i.ending, rfl⟩
  simp only [readImport, front, Option.bind_eq_bind, Option.bind_some, keyword, parted, list, names,
    path, ended, guard, if_true, Option.pure_def, ImportText.meaning]

/-- White space at the end of an import does not count. -/
theorem exists_trim_importText (i : ImportText) :
    ∃ j : ImportText, trim i.text = j.text ∧ j.meaning = i.meaning := by
  obtain ⟨finish, v, ended, blank, solid⟩ : ∃ (finish : Ending) (v : List Char),
      i.ending.text = finish.text ++ v ∧ AllBlank v ∧ EndsSolid finish.text := by
    obtain ⟨⟨gap, blank⟩, semicolon⟩ := i.ending
    cases semicolon with
    | none => exact ⟨⟨⟨[], List.forall_mem_nil _⟩, none⟩, gap, by simp [Ending.text], blank,
        by simp [Ending.text, EndsSolid]⟩
    | some more => exact ⟨⟨⟨gap, blank⟩, some ⟨[], List.forall_mem_nil _⟩⟩, more.chars,
        by simp [Ending.text], more.blank, by simp [Ending.text, EndsSolid]; decide⟩
  refine ⟨{ i with ending := finish }, ?_, rfl⟩
  have closing : EndsSolid [i.path.closing] := by
    refine endsSolid_of_forall (List.forall_mem_singleton.2 (eq_false_of_ne_true fun blank' => ?_))
    cases i.path.closes.symm.trans (isQuote_of_isBlank blank')
  have solid' : EndsSolid ({ i with ending := finish } : ImportText).text := by
    refine .append (.of_append (List.cons_ne_nil _ _) ?_) solid
    exact .of_append (u := i.path.opening :: i.path.path) (List.cons_ne_nil _ _) closing
  have whole : i.text = ({ i with ending := finish } : ImportText).text ++ v := by
    simp only [ImportText.text, ended, List.append_assoc]
  rw [whole, trim_append_blank blank]
  exact trim_eq_self_iff.2 ⟨startsSolid_cons (by decide), solid'⟩

theorem exists_importText {s : List Char} {d : ImportDirective} (h : readImport s = some d) :
    ∃ i : ImportText, trim s = i.text ∧ i.meaning = d := by
  simp only [readImport, Option.bind_eq_bind, Option.pure_def, Option.bind_eq_some_iff,
    Option.some.injEq] at h
  obtain ⟨named, keyword, listed, parted, list, found, names, read, ⟨path, behind⟩, cut, _,
    finished, rfl⟩ := h
  have ended : isLineEnd behind = true := by
    by_contra more
    simp [guard, more] at finished
  obtain ⟨-, space, some, blank, rfl⟩ := afterBlanks?_eq_some_iff.1 parted
  obtain ⟨-, before, after, some', blank', some'', blank'', rfl⟩ := beforeFrom?_eq_some_iff.1 found
  obtain ⟨starts, named, rfl⟩ := readNames_eq_some_iff.1 read
  obtain ⟨quoted, rfl, rest⟩ := splitPath?_eq_some_iff.1 cut
  obtain ⟨ending, rfl⟩ := isLineEnd_iff.1 ended
  refine ⟨⟨⟨⟨space, blank⟩, some⟩, ⟨list, starts, named⟩, ⟨⟨before, blank'⟩, some'⟩,
    ⟨⟨after, blank''⟩, some''⟩, quoted, ending⟩, ?_, rfl⟩
  have whole :=
    List.prefix_iff_eq_append.1 (List.takeWhile_prefix (l := trim s) fun c => !isQuote c)
  rw [rest, after?_eq_some_iff.1 keyword] at whole
  rw [← whole]
  simp [ImportText.text]

theorem exists_nameList (ns : Names) :
    ∃ list : NameList, list.chars = ns.text ∧ places list.chars = ns.names.map Name.chars := by
  have written : ∀ entry : Blanks × Blanks × Name, ∃ u v, AllBlank u ∧ AllBlank v ∧
      Names.further entry = u ++ ',' :: (v ++ entry.2.2.chars) :=
    fun (before, after, _) => ⟨before.chars, after.chars, before.blank, after.blank, rfl⟩
  have parts : places ns.text = ns.names.map Name.chars := by
    have cut : (ns.text.splitOn ',').map trim = ns.names.map Name.chars := by
      rw [Names.text, map_trim_splitOn written _ (comma_notMem_name ns.first), trim_name]
      simp [Names.names]
    rw [places, cut, filter_names]
  have starts : ∃ c ∈ ns.text.head?, isWordChar c = true := by
    obtain ⟨⟨chars, isName⟩, more⟩ := ns
    cases chars with
    | nil => cases isName
    | cons c name => exact ⟨c, rfl, (Bool.and_eq_true_iff.1 isName).1⟩
  refine ⟨⟨ns.text, starts, ?_⟩, rfl, parts⟩
  rw [parts]
  exact List.forall_mem_map.2 fun n _ => n.isName

/-- An import is read from the texts of its form, and from no others. Any names and any path are
read back from an import that is written out, with white space of any kind around its parts. -/
theorem readImport_iff :
    (∀ (s : List Char) (d : ImportDirective),
      readImport s = some d ↔ ∃ i : ImportText, trim s = i.text ∧ i.meaning = d) ∧
    ∀ (leading : Blanks) (space before after : Parting) (names : Names) (path : QuotedPath)
      (ending : Ending),
      readImport (leading.chars ++ (['@', 'i', 'm', 'p', 'o', 'r', 't'] ++ space.chars ++
        names.text ++ before.chars ++ ['f', 'r', 'o', 'm'] ++ after.chars ++ path.text ++
        ending.text)) =
        some ⟨names.names.map fun name => .ofList name.chars, .ofList path.path⟩ := by
  refine ⟨fun s d => ⟨exists_importText, ?_⟩, ?_⟩
  · rintro ⟨i, form, rfl⟩
    exact readImport_importText i form
  · intro leading space before after names path ending
    obtain ⟨list, written, named⟩ := exists_nameList names
    let i : ImportText := ⟨space, list, before, after, path, ending⟩
    obtain ⟨j, form, same⟩ := exists_trim_importText i
    have text : trim (leading.chars ++ i.text) = j.text := by
      rw [trim_blank_append leading.blank, form]
    have read : readImport (leading.chars ++ i.text) = some i.meaning := by
      rw [readImport_importText j text, same]
    rw [← written]
    exact read.trans (by simp [i, ImportText.meaning, named])

-- The second `from` ends the list. There is nothing at its last place.
example : readImport "@import from, a , from './x\" ;".toList = some ⟨["from", "a"], "./x"⟩ := by
  decide +kernel

end NestedStyles.Block
