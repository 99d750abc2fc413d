import NestedStyles.Proofs.Block.Skipping

/-!
# Parts of a source

Wherever the reader of a source calls itself, what it reads there is put into what it reads of the
whole source: from a position on that is outside of all blocks (`OnSheet`), from a position in a
block up to the end of the block (`InBody`), and for lines of content (`ContentPart`). From what is
read of the whole, what was put in place is told (`InBody.injective`).
-/

namespace NestedStyles.Block

open Text

variable {cfg : Config} {text s : List Char} {start stop pos brace number : Nat}

/-! ## The places of a reader -/

/-- The reading of a source from an outermost block on: of the block, with this inside, and of what
follows it. -/
def itemOn (cfg : Config) (text : List Char) (pos brace : Nat) (inside : Reported Body)
    (next : Reported Stylesheet) : Reported Stylesheet :=
  ⟨.empty, unclosed text brace (closing text brace)⟩ ++
    (outermost cfg (lineAt text pos) (bareLine (slice text pos brace)) inside ++ next)

/-- The header of the nested block opened at `brace`, and the lines of content in front of it. -/
def headerAt (cfg : Config) (text : List Char) (start brace : Nat) : Header :=
  splitHeader cfg (slice text start brace)

/-- The reading of a block from a part of its content on: of the content, of the nested block that
follows, with this inside, and of what follows that. -/
def contentOn (cfg : Config) (text : List Char) (start brace : Nat)
    (content inside next : Reported Body) : Reported Body :=
  content ++ (⟨.empty, unclosed text brace (closing text brace)⟩ ++
    (nested cfg (lineAt text start) (headerAt cfg text start brace).selector inside ++ next))

/-- From position `start` on items are read that stand outside of all blocks. What is read of the
whole source is `put` of what is read from there. -/
inductive OnSheet (cfg : Config) (text : List Char) :
    Nat → (Reported Stylesheet → Reported Stylesheet) → Prop
  | start : OnSheet cfg text 0 fun r => r
  | behindImport {start pos : Nat} {put : Reported Stylesheet → Reported Stylesheet}
      (before : OnSheet cfg text start put) (here : skipGap text start text.length = pos)
      (room : pos < text.length) (imports : startsImport (text.drop pos) = true) :
      OnSheet cfg text (pos + ((text.drop pos).takeWhile (· != '\n')).length + 1) fun r =>
        put (readImportLine (lineAt text pos) ((text.drop pos).takeWhile (· != '\n')) ++ r)
  | behindBlock {start pos brace : Nat} {put : Reported Stylesheet → Reported Stylesheet}
      (before : OnSheet cfg text start put) (here : skipGap text start text.length = pos)
      (room : pos < text.length) (noImport : startsImport (text.drop pos) = false)
      (opened : find? '{' text pos text.length = some brace) :
      OnSheet cfg text (closing text brace + 1) fun r =>
        put (itemOn cfg text pos brace (readBody cfg text (brace + 1) (closing text brace)) r)

/-- From position `start` up to `stop` stands the content of a rule or an export, or the rest of it.
What is read of the whole source is `put` of what is read there. -/
inductive InBody (cfg : Config) (text : List Char) :
    Nat → Nat → (Reported Body → Reported Stylesheet) → Prop
  | outermost {start pos brace : Nat} {put : Reported Stylesheet → Reported Stylesheet}
      (before : OnSheet cfg text start put) (here : skipGap text start text.length = pos)
      (room : pos < text.length) (noImport : startsImport (text.drop pos) = false)
      (opened : find? '{' text pos text.length = some brace)
      (kept : ¬ AddsNothing cfg (bareLine (slice text pos brace))) :
      InBody cfg text (brace + 1) (closing text brace) fun r =>
        put (itemOn cfg text pos brace r (readSheet cfg text (closing text brace + 1)))
  | nested {start stop brace : Nat} {put : Reported Body → Reported Stylesheet}
      (around : InBody cfg text start stop put) (opened : find? '{' text start stop = some brace)
      (supported : unsupportedAtRule? cfg (headerAt cfg text start brace).selector = none)
      (noExport : ['@', 'e', 'x', 'p', 'o', 'r', 't'].isPrefixOf
        (headerAt cfg text start brace).selector = false) :
      InBody cfg text (brace + 1) (closing text brace) fun r =>
        put (contentOn cfg text start brace
          (readContent (lineAt text start) (headerAt cfg text start brace).content) r
          (readBody cfg text (closing text brace + 1) stop))
  | behindBlock {start stop brace : Nat} {put : Reported Body → Reported Stylesheet}
      (around : InBody cfg text start stop put) (opened : find? '{' text start stop = some brace) :
      InBody cfg text (closing text brace + 1) stop fun r =>
        put (contentOn cfg text start brace
          (readContent (lineAt text start) (headerAt cfg text start brace).content)
          (readBody cfg text (brace + 1) (closing text brace)) r)

/-- The text is lines of content of a rule or an export, from line `number` of the source on: those
in front of the header of a nested block, or those behind the last nested block. What is read of the
whole source is `put` of what is read of them. -/
inductive ContentPart (cfg : Config) (text : List Char) :
    Nat → List Char → (Reported Body → Reported Stylesheet) → Prop
  | front {start stop brace : Nat} {put : Reported Body → Reported Stylesheet}
      (inside : InBody cfg text start stop put) (opened : find? '{' text start stop = some brace) :
      ContentPart cfg text (lineAt text start) (headerAt cfg text start brace).content fun r =>
        put (contentOn cfg text start brace r (readBody cfg text (brace + 1) (closing text brace))
          (readBody cfg text (closing text brace + 1) stop))
  | last {start stop : Nat} {put : Reported Body → Reported Stylesheet}
      (inside : InBody cfg text start stop put) (room : start < stop)
      (none : find? '{' text start stop = none) :
      ContentPart cfg text (lineAt text start) (slice text start stop) put

theorem OnSheet.read {put : Reported Stylesheet → Reported Stylesheet}
    (h : OnSheet cfg text start put) : readSheet cfg text 0 = put (readSheet cfg text start) := by
  induction h with
  | start => rfl
  | behindImport _ here room imports ih => rw [ih, readSheet_of_import here room imports]
  | behindBlock _ here room noImport opened ih =>
    rw [ih, readSheet_of_brace here room noImport opened]
    rfl

section

variable {put : Reported Body → Reported Stylesheet}

theorem InBody.le_length (h : InBody cfg text start stop put) : stop ≤ text.length := by
  induction h with
  | outermost | nested => exact closing_le _
  | behindBlock _ _ ih => exact ih

theorem InBody.read_brace (h : InBody cfg text start stop put)
    (opened : find? '{' text start stop = some brace) :
    readBody cfg text start stop = contentOn cfg text start brace
      (readContent (lineAt text start) (headerAt cfg text start brace).content)
      (readBody cfg text (brace + 1) (closing text brace))
      (readBody cfg text (closing text brace + 1) stop) := by
  obtain ⟨lower, upper, -⟩ := bounds_of_find? opened
  exact readBody_of_brace (lower.trans_lt upper) h.le_length opened

theorem InBody.read (h : InBody cfg text start stop put) :
    readSheet cfg text 0 = put (readBody cfg text start stop) := by
  induction h with
  | outermost before here room noImport opened kept =>
    rw [before.read, readSheet_of_brace here room noImport opened]
    rfl
  | nested around opened supported noExport ih => rw [ih, around.read_brace opened]
  | behindBlock around opened ih => rw [ih, around.read_brace opened]

theorem ContentPart.read (h : ContentPart cfg text number s put) :
    readSheet cfg text 0 = put (readContent number s) := by
  cases h with
  | front inside opened => rw [inside.read, inside.read_brace opened]
  | last inside room none => rw [inside.read, readBody_of_none room inside.le_length none]

end

/-! ## Different contents are read differently -/

section

variable {α : Type} [Append α]

theorem reported_append_injective (cancel : ∀ a : α, Function.Injective (a ++ ·))
    (x : Reported α) : Function.Injective (x ++ ·) := by
  rintro ⟨b, rs⟩ ⟨c, ss⟩ same
  obtain ⟨values, lists⟩ := Reported.mk.inj same
  obtain rfl : b = c := cancel _ values
  obtain rfl : rs = ss := List.append_cancel_left lists
  rfl

theorem append_reported_injective (cancel : ∀ a : α, Function.Injective (· ++ a))
    (x : Reported α) : Function.Injective (· ++ x) := by
  rintro ⟨b, rs⟩ ⟨c, ss⟩ same
  obtain ⟨values, lists⟩ := Reported.mk.inj same
  obtain rfl : b = c := cancel _ values
  obtain rfl : rs = ss := List.append_cancel_right lists
  rfl

end

theorem body_append_injective (a : Body) : Function.Injective (a ++ ·) := by
  rintro ⟨classes, declarations, uses, children⟩ ⟨classes', declarations', uses', children'⟩ same
  injection same with sameClasses sameDeclarations sameUses sameChildren
  obtain rfl := List.append_cancel_left sameClasses
  obtain rfl := List.append_cancel_left sameDeclarations
  obtain rfl := List.append_cancel_left sameUses
  obtain rfl := List.append_cancel_left sameChildren
  rfl

theorem append_body_injective (a : Body) : Function.Injective (· ++ a) := by
  rintro ⟨classes, declarations, uses, children⟩ ⟨classes', declarations', uses', children'⟩ same
  injection same with sameClasses sameDeclarations sameUses sameChildren
  obtain rfl := List.append_cancel_right sameClasses
  obtain rfl := List.append_cancel_right sameDeclarations
  obtain rfl := List.append_cancel_right sameUses
  obtain rfl := List.append_cancel_right sameChildren
  rfl

theorem append_sheet_injective (a : Stylesheet) : Function.Injective (· ++ a) := by
  rintro ⟨rules, exports, imports⟩ ⟨rules', exports', imports'⟩ same
  injection same with sameRules sameExports sameImports
  obtain rfl := List.append_cancel_right sameRules
  obtain rfl := List.append_cancel_right sameExports
  obtain rfl := List.append_cancel_right sameImports
  rfl

theorem sheet_append_injective (a : Stylesheet) : Function.Injective (a ++ ·) :=
  fun _ _ => merge_right_inj.1

theorem map_injective {α β : Type} {f : α → β} (injective : Function.Injective f) :
    Function.Injective (Reported.map f) := by
  rintro ⟨b, rs⟩ ⟨c, ss⟩ same
  obtain ⟨values, rfl⟩ := Reported.mk.inj same
  obtain rfl : b = c := injective values
  rfl

theorem outermost_injective {header : List Char} (kept : ¬ AddsNothing cfg header) (line : Nat) :
    Function.Injective (outermost cfg line header) := by
  obtain ⟨supported, named⟩ := not_or.1 kept
  have supported : unsupportedAtRule? cfg header = none := by simpa using supported
  unfold outermost readItem
  rw [supported]
  by_cases exports : ['@', 'e', 'x', 'p', 'o', 'r', 't'].isPrefixOf header = true
  · obtain ⟨name, found⟩ := Option.ne_none_iff_exists'.1 fun none => named ⟨exports, none⟩
    simp only [if_pos exports, found]
    refine map_injective fun b c same => ?_
    exact (ExportBlock.mk.inj (List.singleton_inj.1 (congrArg Stylesheet.exports same))).1
  · simp only [if_neg exports]
    refine map_injective fun b c same => ?_
    exact congrArg StyleRule.body (List.singleton_inj.1 (congrArg Stylesheet.rules same))

theorem nested_injective {header : List Char} (supported : unsupportedAtRule? cfg header = none)
    (noExport : ['@', 'e', 'x', 'p', 'o', 'r', 't'].isPrefixOf header = false) (line : Nat) :
    Function.Injective (nested cfg line header) := by
  unfold nested
  simp only [supported, noExport, Bool.false_eq_true, if_false]
  refine map_injective fun b c same => ?_
  exact congrArg StyleRule.body (List.singleton_inj.1 (congrArg Body.children same))

theorem OnSheet.injective {put : Reported Stylesheet → Reported Stylesheet}
    (h : OnSheet cfg text start put) : Function.Injective put := by
  have behind := reported_append_injective sheet_append_injective
  induction h with
  | start => exact fun _ _ same => same
  | behindImport _ here room imports ih => exact ih.comp (behind _)
  | behindBlock _ here room noImport opened ih =>
    exact ih.comp ((behind _).comp (behind _))

theorem InBody.injective {put : Reported Body → Reported Stylesheet}
    (h : InBody cfg text start stop put) : Function.Injective put := by
  have behind := reported_append_injective body_append_injective
  have inFront := append_reported_injective append_body_injective
  induction h with
  | outermost before here room noImport opened kept =>
    exact before.injective.comp ((reported_append_injective sheet_append_injective _).comp
      ((append_reported_injective append_sheet_injective _).comp (outermost_injective kept _)))
  | nested around opened supported noExport ih =>
    exact ih.comp ((behind _).comp ((behind _).comp
      ((inFront _).comp (nested_injective supported noExport _))))
  | behindBlock around opened ih =>
    exact ih.comp ((behind _).comp ((behind _).comp (behind _)))

theorem ContentPart.injective {put : Reported Body → Reported Stylesheet}
    (h : ContentPart cfg text number s put) : Function.Injective put := by
  cases h with
  | front inside opened =>
    exact inside.injective.comp (append_reported_injective append_body_injective _)
  | last inside room none => exact inside.injective

end NestedStyles.Block
