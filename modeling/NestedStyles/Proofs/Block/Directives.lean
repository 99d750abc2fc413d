import Mathlib.Data.Option.Basic
import NestedStyles.Proofs.Block.Layout

/-!
# Directives are read back

Each reader of a directive gives the meaning of the line that is laid out. A lemma for every part
says what the reader of that part does in front of any text that does not continue the part.
-/

namespace NestedStyles.Block

open Text Layout

variable {s u name rest : List Char} {c : Char}

/-! ## Parts of a line -/

@[simp] theorem after?_append (part s : List Char) : after? part (part ++ s) = some s := by
  have starts : part.isPrefixOf (part ++ s) = true := by simp
  rw [after?, if_pos starts, List.drop_left]

theorem append_of_after? {part s rest : List Char} (h : after? part s = some rest) :
    part ++ rest = s := by
  unfold after? at h
  split at h
  next starts =>
    obtain ⟨more, rfl⟩ := List.isPrefixOf_iff_prefix.1 starts
    rw [List.drop_left] at h
    rw [Option.some.inj h]
  next => cases h

theorem afterBlanks?_append (nonempty : u ≠ []) (blank : AllBlank u) (solid : StartsSolid s) :
    afterBlanks? (u ++ s) = some s := by
  cases u with
  | nil => exact absurd rfl nonempty
  | cons c u =>
    obtain ⟨first, more⟩ := List.forall_mem_cons.1 blank
    rw [List.cons_append, afterBlanks?, if_pos first, trimLeft_append more,
      trimLeft_eq_self_iff.2 solid]

/-- A name is not continued by the text. -/
def EndsName (s : List Char) : Prop :=
  ∀ c ∈ s.head?, isNameChar c = false

theorem endsName_cons (h : isBlank c = true) : EndsName (c :: s) := by
  rintro d ⟨⟩
  by_contra more
  exact ne_of_holds h (isBlank_of_isNameChar (Bool.of_not_eq_false more)) rfl

theorem EndsName.of_blank (blank : AllBlank u) (next : EndsName s) : EndsName (u ++ s) := by
  cases u with
  | nil => exact next
  | cons d u => exact endsName_cons (blank d List.mem_cons_self)

theorem endsName_space (space : Space) (s : List Char) : EndsName (space.chars ++ s) := by
  obtain ⟨d, more, cons⟩ := List.exists_cons_of_ne_nil space.nonempty
  rw [cons]
  exact endsName_cons (space.blank d (cons ▸ List.mem_cons_self))

theorem takeWhile_name (all : ∀ c ∈ name, isNameChar c = true) (ends : EndsName rest) :
    (name ++ rest).takeWhile isNameChar = name := by
  rw [List.takeWhile_append_of_pos all]
  cases rest with
  | nil => simp
  | cons c rest => simp [ends c rfl]

theorem dropWhile_name (all : ∀ c ∈ name, isNameChar c = true) (ends : EndsName rest) :
    (name ++ rest).dropWhile isNameChar = rest := by
  rw [List.dropWhile_append_of_pos all]
  cases rest with
  | nil => rfl
  | cons c rest => exact List.dropWhile_cons_of_neg (by simp [ends c rfl])

theorem splitName?_append (n : Name) (ends : EndsName rest) :
    splitName? (n.chars ++ rest) = some (n.chars, rest) := by
  obtain ⟨chars, isName⟩ := n
  cases chars with
  | nil => cases isName
  | cons c name =>
    simp only [Text.isName, Bool.and_eq_true, List.all_eq_true] at isName
    obtain ⟨first, more⟩ := isName
    rw [List.cons_append, splitName?, if_pos first, takeWhile_name more ends,
      dropWhile_name more ends]

theorem isNameChar_of_mem (n : Name) : ∀ c ∈ n.chars, isNameChar c = true := by
  obtain ⟨chars, isName⟩ := n
  cases chars with
  | nil => cases isName
  | cons c name =>
    simp only [Text.isName, Bool.and_eq_true, List.all_eq_true] at isName
    exact List.forall_mem_cons.2 ⟨by simp [isNameChar, isName.1], isName.2⟩

theorem name_ne_nil (n : Name) : n.chars ≠ [] := by
  intro none
  have isName := n.isName
  rw [none] at isName
  cases isName

theorem isBlank_of_mem_name (n : Name) : ∀ c ∈ n.chars, isBlank c = false :=
  fun c hc => isBlank_of_isNameChar (isNameChar_of_mem n c hc)

theorem trim_name (n : Name) : trim n.chars = n.chars :=
  trim_eq_self_iff.2 ⟨startsSolid_of_forall (isBlank_of_mem_name n),
    endsSolid_of_forall (isBlank_of_mem_name n)⟩

theorem startsSolid_name (n : Name) (s : List Char) : StartsSolid (n.chars ++ s) :=
  .of_append (name_ne_nil n) (startsSolid_of_forall (isBlank_of_mem_name n))

theorem endsSolid_name (n : Name) (s : List Char) : EndsSolid (s ++ n.chars) :=
  .of_append (name_ne_nil n) (endsSolid_of_forall (isBlank_of_mem_name n))

theorem isLineEnd_semicolon (finish : Option Gap) : isLineEnd (semicolon finish) = true := by
  cases finish with
  | none => rfl
  | some gap =>
    rw [semicolon, isLineEnd, trimLeft_append gap.blank]
    decide

theorem endsSolid_semicolon (finish : Option Gap) : EndsSolid (semicolon finish) := by
  cases finish with
  | none => simp [semicolon, EndsSolid]
  | some gap => exact .of_append (List.cons_ne_nil _ _) (by unfold EndsSolid; decide)

theorem endsName_semicolon (finish : Option Gap) : EndsName (semicolon finish) := by
  cases finish with
  | none => simp [semicolon, EndsName]
  | some gap => exact .of_blank gap.blank (by unfold EndsName; decide)

/-! ## Sources -/

theorem isQuote_of_isBlank (h : isBlank c = true) : isQuote c = false := by
  have apart : ∀ d ∈ blankChars, isQuote d = false := by decide +kernel
  exact apart c (mem_blankChars h)

theorem isQuote_of_isNameChar (h : isNameChar c = true) : isQuote c = false := by
  by_contra quote
  obtain rfl | rfl : c = '\'' ∨ c = '"' := by
    simpa [isQuote] using Bool.of_not_eq_false quote
  · revert h
    decide
  · revert h
    decide

theorem splitPath?_cons {opening closing : Char} {path : List Char}
    (opens : isQuote opening = true) (closes : isQuote closing = true) (nonempty : path ≠ [])
    (unquoted : ∀ c ∈ path, isQuote c = false) (rest : List Char) :
    splitPath? (opening :: (path ++ closing :: rest)) = some (path, rest) := by
  have unquoted' : ∀ c ∈ path, (!isQuote c) = true := fun c hc => by
    rw [unquoted c hc]
    rfl
  obtain ⟨d, more, cons⟩ := List.exists_cons_of_ne_nil nonempty
  have taken : (path ++ closing :: rest).takeWhile (fun c => !isQuote c) = d :: more := by
    rw [List.takeWhile_append_of_pos unquoted']
    simp [closes, cons]
  have left : (path ++ closing :: rest).dropWhile (fun c => !isQuote c) = closing :: rest := by
    rw [List.dropWhile_append_of_pos unquoted']
    simp [closes]
  rw [splitPath?, opens, taken, left, cons]

section

variable (source : Source)

theorem splitPath?_quoted (rest : List Char) :
    splitPath? (source.quoted ++ rest) = some (source.path, rest) := by
  have whole : source.quoted ++ rest = source.quote :: (source.path ++ source.quote :: rest) := by
    simp [Source.quoted]
  rw [whole]
  exact splitPath?_cons source.isQuote source.isQuote source.nonempty source.unquoted rest

theorem startsSolid_quoted (rest : List Char) : StartsSolid (source.quoted ++ rest) := by
  apply startsSolid_cons
  by_contra blank
  cases source.isQuote.symm.trans (isQuote_of_isBlank (Bool.of_not_eq_false blank))

theorem getLast?_source : source.text.getLast? = some source.quote := by
  rw [Source.text, Source.quoted, List.getLast?_append_of_ne_nil _ (List.cons_ne_nil _ _),
    ← List.cons_append, List.getLast?_concat]

theorem endsSolid_source : EndsSolid source.text := by
  intro c hc
  rw [getLast?_source] at hc
  cases hc
  exact startsSolid_quoted source [] source.quote rfl

theorem source_append (rest : List Char) :
    source.text ++ rest = source.before.chars ++ (['f', 'r', 'o', 'm'] ++
      (source.after.chars ++ (source.quoted ++ rest))) := by
  simp [Source.text]

end

/-! ## Uses -/

theorem trim_use (l : UseLine) : trim l.text = l.text := by
  refine trim_eq_self_iff.2 ⟨startsSolid_cons (by decide), ?_⟩
  refine (endsSolid_name l.name _).append (.append ?_ (endsSolid_semicolon l.finish))
  cases l.source with
  | none => simp [EndsSolid]
  | some source => exact endsSolid_source source

theorem readUse_text (l : UseLine) : readUse l.text = some l.meaning := by
  let tail := (l.source.map Source.text).getD [] ++ semicolon l.finish
  have line : l.text =
      ['@', 'u', 's', 'e'] ++ ((' ' :: l.gap.chars) ++ (l.name.chars ++ tail)) := by
    simp [UseLine.text, tail]
  have named : afterBlanks? ((' ' :: l.gap.chars) ++ (l.name.chars ++ tail)) =
      some (l.name.chars ++ tail) :=
    afterBlanks?_append (List.cons_ne_nil _ _) (List.forall_mem_cons.2 ⟨isBlank_space, l.gap.blank⟩)
      (startsSolid_name l.name tail)
  rw [readUse, trim_use, line, after?_append]
  cases from? : l.source with
  | none =>
    have ends : EndsName tail := by
      simpa [tail, from?] using endsName_semicolon l.finish
    have finished : isLineEnd tail = true := by
      simpa [tail, from?] using isLineEnd_semicolon l.finish
    simp only [Option.bind_eq_bind, Option.bind_some, named, splitName?_append l.name ends,
      finished, if_true, UseLine.meaning, from?, Option.map_none, Option.pure_def]
  | some source =>
    have rest : tail = source.before.chars ++ (['f', 'r', 'o', 'm'] ++
        (source.after.chars ++ (source.quoted ++ semicolon l.finish))) := by
      simp only [tail, from?, Option.map_some, Option.getD_some, source_append]
    have ends : EndsName tail := rest ▸ endsName_space source.before _
    have solid : StartsSolid (['f', 'r', 'o', 'm'] ++
        (source.after.chars ++ (source.quoted ++ semicolon l.finish))) :=
      startsSolid_cons (by decide)
    have more : isLineEnd tail = false := by
      rw [rest, isLineEnd, trimLeft_append source.before.blank, trimLeft_eq_self_iff.2 solid]
      rfl
    have keyword : afterBlanks? tail = some (['f', 'r', 'o', 'm'] ++
        (source.after.chars ++ (source.quoted ++ semicolon l.finish))) :=
      rest ▸ afterBlanks?_append source.before.nonempty source.before.blank solid
    have path : afterBlanks? (source.after.chars ++ (source.quoted ++ semicolon l.finish)) =
        some (source.quoted ++ semicolon l.finish) :=
      afterBlanks?_append source.after.nonempty source.after.blank (startsSolid_quoted source _)
    simp only [Option.bind_eq_bind, Option.bind_some, named, splitName?_append l.name ends, more,
      keyword, after?_append, path, splitPath?_quoted, isLineEnd_semicolon, UseLine.meaning, from?,
      Option.map_some, Option.pure_def, Bool.false_eq_true, if_false, guard, if_true]

/-! ## Imports -/

theorem beforeFrom?_append {s before after : List Char} (hs : EndsSolid s) (hb : before ≠ [])
    (hb' : AllBlank before) (ha : after ≠ []) (ha' : AllBlank after) :
    beforeFrom? (s ++ (before ++ (['f', 'r', 'o', 'm'] ++ after))) = some s := by
  have reversed : (s ++ (before ++ (['f', 'r', 'o', 'm'] ++ after))).reverse =
      after.reverse ++ (['m', 'o', 'r', 'f'] ++ (before.reverse ++ s.reverse)) := by
    simp
  have keyword :
      afterBlanks? (after.reverse ++ (['m', 'o', 'r', 'f'] ++ (before.reverse ++ s.reverse))) =
        some (['m', 'o', 'r', 'f'] ++ (before.reverse ++ s.reverse)) :=
    afterBlanks?_append (by simpa using ha) (fun c hc => ha' c (List.mem_reverse.1 hc))
      (startsSolid_cons (by decide))
  have rest : afterBlanks? (before.reverse ++ s.reverse) = some s.reverse := by
    refine afterBlanks?_append (by simpa using hb) (fun c hc => hb' c (List.mem_reverse.1 hc)) ?_
    intro c hc
    exact hs c (by simpa using hc)
  simp only [beforeFrom?, reversed, Option.bind_eq_bind, Option.bind_some, keyword, after?_append,
    rest, Option.pure_def, List.reverse_reverse]

theorem comma_notMem_blank (h : AllBlank s) : ',' ∉ s :=
  notMem_of_holds h (by decide)

theorem comma_notMem_name (n : Name) : ',' ∉ n.chars :=
  notMem_of_holds (isNameChar_of_mem n) (by decide)

/-- The places between the commas of a list, each entry of which is a comma and a name with white
space in front of both. -/
theorem map_trim_splitOn {α : Type} {text : α → List Char} {name : α → Name}
    (parts : ∀ a, ∃ u v, AllBlank u ∧ AllBlank v ∧ text a = u ++ ',' :: (v ++ (name a).chars))
    (more : List α) (noComma : ',' ∉ s) :
    ((s ++ more.flatMap text).splitOn ',').map trim =
      trim s :: more.map fun a => (name a).chars := by
  induction more generalizing s with
  | nil => simp [List.splitOn_eq_singleton noComma]
  | cons a more ih =>
    obtain ⟨u, v, blank, blank', written⟩ := parts a
    have noComma' : ',' ∉ v ++ (name a).chars := by
      simp [comma_notMem_blank blank', comma_notMem_name]
    have noComma'' : ',' ∉ s ++ u := by
      simp [noComma, comma_notMem_blank blank]
    have cut : s ++ (text a ++ more.flatMap text) =
        (s ++ u) ++ ',' :: (v ++ (name a).chars ++ more.flatMap text) := by
      simp [written]
    rw [List.flatMap_cons, cut, List.splitOn_append_cons_self, List.splitOn_eq_singleton noComma'',
      List.map_append, ih noComma', trim_blank_append blank', trim_name]
    simp [trim_append_blank blank]

theorem filter_names (ns : List Name) :
    (ns.map Name.chars).filter (· ≠ []) = ns.map Name.chars := by
  refine List.filter_eq_self.2 fun chars h => ?_
  obtain ⟨n, -, rfl⟩ := List.mem_map.1 h
  exact decide_eq_true (name_ne_nil n)

theorem readNames_list (l : ImportLine) : readNames l.list = some (l.names.map Name.chars) := by
  have parts : (l.list.splitOn ',').map trim = l.names.map Name.chars := by
    have written : ∀ entry : Gap × Gap × Name, ∃ u v, AllBlank u ∧ AllBlank v ∧
        listed entry = u ++ ',' :: (v ++ entry.2.2.chars) :=
      fun (before, after, _) => ⟨before.chars, after.chars, before.blank, after.blank, rfl⟩
    rw [ImportLine.list, map_trim_splitOn written _ (comma_notMem_name l.first), trim_name]
    simp [ImportLine.names]
  have named : (l.names.map Name.chars).all isName = true := by
    simp [Name.isName]
  have first : (l.list.head?.map isWordChar).getD false = true := by
    obtain ⟨space, ⟨chars, isName⟩, more, source, finish⟩ := l
    cases chars with
    | nil => cases isName
    | cons c name => simpa [ImportLine.list] using (Bool.and_eq_true_iff.1 isName).1
  rw [readNames, parts, filter_names, named, first]
  rfl

theorem endsSolid_list (l : ImportLine) : EndsSolid l.list := by
  refine .append (endsSolid_of_forall (isBlank_of_mem_name l.first)) (.flatMap fun entry _ => ?_)
  obtain ⟨before, after, name⟩ := entry
  have parts : listed (before, after, name) =
      (before.chars ++ ',' :: after.chars) ++ name.chars := by
    simp [listed]
  rw [parts]
  exact endsSolid_name name _

theorem isQuote_of_mem_list (l : ImportLine) : ∀ c ∈ l.list, isQuote c = false := by
  have ofName : ∀ n : Name, ∀ c ∈ n.chars, isQuote c = false :=
    fun n c hc => isQuote_of_isNameChar (isNameChar_of_mem n c hc)
  have ofGap : ∀ g : Gap, ∀ c ∈ g.chars, isQuote c = false :=
    fun g c hc => isQuote_of_isBlank (g.blank c hc)
  refine List.forall_mem_append.2 ⟨ofName l.first, fun c hc => ?_⟩
  obtain ⟨⟨before, after, name⟩, -, within⟩ := List.mem_flatMap.1 hc
  have unquoted : ∀ d ∈ listed (before, after, name), isQuote d = false :=
    List.forall_mem_append.2 ⟨ofGap before, List.forall_mem_cons.2
      ⟨by decide, List.forall_mem_append.2 ⟨ofGap after, ofName name⟩⟩⟩
  exact unquoted c within

/-- An import up to the path. -/
def beforePath (l : ImportLine) : List Char :=
  ['@', 'i', 'm', 'p', 'o', 'r', 't'] ++ (l.space.chars ++ (l.list ++
    (l.source.before.chars ++ (['f', 'r', 'o', 'm'] ++ l.source.after.chars))))

theorem import_text (l : ImportLine) :
    l.text = beforePath l ++ (l.source.quoted ++ semicolon l.finish) := by
  simp [ImportLine.text, Source.text, beforePath]

theorem isQuote_of_mem_beforePath (l : ImportLine) :
    ∀ c ∈ beforePath l, (!isQuote c) = true := by
  have ofSpace : ∀ g : Space, ∀ c ∈ g.chars, isQuote c = false :=
    fun g c hc => isQuote_of_isBlank (g.blank c hc)
  simp only [Bool.not_eq_true']
  exact List.forall_mem_append.2 ⟨by decide, List.forall_mem_append.2 ⟨ofSpace l.space,
    List.forall_mem_append.2 ⟨isQuote_of_mem_list l, List.forall_mem_append.2
      ⟨ofSpace l.source.before, List.forall_mem_append.2 ⟨by decide, ofSpace l.source.after⟩⟩⟩⟩⟩

theorem trim_import (l : ImportLine) : trim l.text = l.text := by
  refine trim_eq_self_iff.2 ⟨startsSolid_cons (by decide), ?_⟩
  exact ((endsSolid_source l.source).append (endsSolid_semicolon l.finish)).of_append
    (by simp [Source.text, Source.quoted])

theorem readImport_text (l : ImportLine) (trail : Gap) :
    readImport (l.text ++ trail.chars) = some l.meaning := by
  have line : trim (l.text ++ trail.chars) =
      beforePath l ++ (l.source.quoted ++ semicolon l.finish) := by
    rw [trim_append_blank trail.blank, trim_import, import_text]
  have head : (beforePath l ++ (l.source.quoted ++ semicolon l.finish)).takeWhile
      (fun c => !isQuote c) = beforePath l := by
    rw [List.takeWhile_append_of_pos (isQuote_of_mem_beforePath l)]
    simp [Source.quoted, l.source.isQuote]
  have rest : afterBlanks? (l.space.chars ++ (l.list ++ (l.source.before.chars ++
      (['f', 'r', 'o', 'm'] ++ l.source.after.chars)))) = some (l.list ++
        (l.source.before.chars ++ (['f', 'r', 'o', 'm'] ++ l.source.after.chars))) := by
    refine afterBlanks?_append l.space.nonempty l.space.blank ?_
    rw [ImportLine.list, List.append_assoc]
    exact startsSolid_name l.first _
  have names : beforeFrom? (l.list ++ (l.source.before.chars ++
      (['f', 'r', 'o', 'm'] ++ l.source.after.chars))) = some l.list :=
    beforeFrom?_append (endsSolid_list l) l.source.before.nonempty l.source.before.blank
      l.source.after.nonempty l.source.after.blank
  have keyword : after? ['@', 'i', 'm', 'p', 'o', 'r', 't'] (beforePath l) = some (l.space.chars ++
      (l.list ++ (l.source.before.chars ++ (['f', 'r', 'o', 'm'] ++ l.source.after.chars)))) :=
    after?_append _ _
  simp only [readImport, line, head, Option.bind_eq_bind, Option.bind_some, keyword, rest, names,
    readNames_list, List.drop_left, splitPath?_quoted, isLineEnd_semicolon, guard, if_true,
    Option.pure_def, ImportLine.meaning, List.map_map]
  rfl

/-! ## Exports -/

theorem trim_exportHeader (space : Space) (n : Name) :
    trim (exportHeader space n) = exportHeader space n :=
  trim_eq_self_iff.2 ⟨startsSolid_cons (by decide), endsSolid_name n _⟩

theorem readExport_header (space : Space) (n : Name) :
    readExport (exportHeader space n) = some (.ofList n.chars) := by
  have named : afterBlanks? (space.chars ++ n.chars) = some n.chars :=
    afterBlanks?_append space.nonempty space.blank (by simpa using startsSolid_name n [])
  have ends : EndsName [] := by
    simp [EndsName]
  have name : splitName? n.chars = some (n.chars, []) := by
    simpa using splitName?_append n ends
  rw [readExport, trim_exportHeader, exportHeader, List.append_assoc, after?_append]
  simp [named, name]

end NestedStyles.Block
