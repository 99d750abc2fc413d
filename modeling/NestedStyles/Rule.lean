/-!
# Style rules

The tree of rules a stylesheet consists of, the blocks it exports for reuse, and the requests to
reuse them. `StyleRule.walk` lists a rule and all rules nested in it, depth first.
-/

namespace NestedStyles

/-- A request to take over the content of an exported block, of this file or of `source`. -/
structure UseDirective where
  name : String
  source : Option String
  deriving DecidableEq, Repr

/-- The names taken from another file. -/
structure ImportDirective where
  names : List String
  source : String
  deriving DecidableEq, Repr

/-- A selector with the utility classes, the declarations, the uses and the rules in its block. -/
structure StyleRule where
  selector : String
  classes : List String
  declarations : List String
  uses : List UseDirective
  children : List StyleRule
  deriving Repr, Inhabited

/-- The content of a block. -/
structure Body where
  classes : List String
  declarations : List String
  uses : List UseDirective
  children : List StyleRule
  deriving Repr, Inhabited

/-- A named block for reuse. -/
structure ExportBlock extends Body where
  name : String
  deriving Repr, Inhabited

/-- A whole source. -/
structure Stylesheet where
  rules : List StyleRule
  exports : List ExportBlock
  imports : List ImportDirective
  deriving Repr, Inhabited

mutual

/-- Equality of rules, field by field. -/
def StyleRule.decEq : (r s : StyleRule) → Decidable (r = s)
  | ⟨sel, cs, ds, us, kids⟩, ⟨sel', cs', ds', us', kids'⟩ =>
    match StyleRule.decEqList kids kids' with
    | isTrue hk =>
      if h : sel = sel' ∧ cs = cs' ∧ ds = ds' ∧ us = us' then
        isTrue (by obtain ⟨rfl, rfl, rfl, rfl⟩ := h; rw [hk])
      else isFalse (by intro e; cases e; exact h ⟨rfl, rfl, rfl, rfl⟩)
    | isFalse hk => isFalse (by intro e; cases e; exact hk rfl)

/-- Equality of lists of rules. -/
def StyleRule.decEqList : (rs ss : List StyleRule) → Decidable (rs = ss)
  | [], [] => isTrue rfl
  | [], _ :: _ => isFalse (by simp)
  | _ :: _, [] => isFalse (by simp)
  | r :: rs, s :: ss =>
    match StyleRule.decEq r s with
    | isTrue hr =>
      match StyleRule.decEqList rs ss with
      | isTrue hs => isTrue (by rw [hr, hs])
      | isFalse hs => isFalse (by intro e; cases e; exact hs rfl)
    | isFalse hr => isFalse (by intro e; cases e; exact hr rfl)

end

instance : DecidableEq StyleRule := StyleRule.decEq

deriving instance DecidableEq for Body, ExportBlock, Stylesheet

namespace Body

/-- A block without content. -/
def empty : Body := ⟨[], [], [], []⟩

/-- The content of two blocks, kind by kind. -/
def append (a b : Body) : Body :=
  ⟨a.classes ++ b.classes, a.declarations ++ b.declarations, a.uses ++ b.uses,
    a.children ++ b.children⟩

instance : Append Body := ⟨append⟩

@[simp] theorem classes_append (a b : Body) : (a ++ b).classes = a.classes ++ b.classes := rfl

@[simp] theorem declarations_append (a b : Body) :
    (a ++ b).declarations = a.declarations ++ b.declarations := rfl

@[simp] theorem uses_append (a b : Body) : (a ++ b).uses = a.uses ++ b.uses := rfl

@[simp] theorem children_append (a b : Body) : (a ++ b).children = a.children ++ b.children := rfl

@[simp] theorem append_empty (b : Body) : b ++ empty = b := by
  obtain ⟨classes, declarations, uses, children⟩ := b
  change Body.mk _ _ _ _ = _
  simp [empty]

@[simp] theorem empty_append (b : Body) : empty ++ b = b := by
  change Body.mk _ _ _ _ = _
  simp [empty]

theorem append_assoc (a b c : Body) : a ++ b ++ c = a ++ (b ++ c) := by
  change Body.mk _ _ _ _ = Body.mk _ _ _ _
  simp

/-- The block headed by a selector. -/
def toRule (b : Body) (selector : String) : StyleRule :=
  ⟨selector, b.classes, b.declarations, b.uses, b.children⟩

end Body

namespace StyleRule

/-- The block of a rule. -/
def body (r : StyleRule) : Body :=
  ⟨r.classes, r.declarations, r.uses, r.children⟩

@[simp] theorem toRule_body (r : StyleRule) : r.body.toRule r.selector = r := by cases r; rfl

@[simp] theorem body_toRule (b : Body) (selector : String) : (b.toRule selector).body = b := rfl

/-- A rule that says nothing and holds no rule has no content. -/
def hasContent (r : StyleRule) : Bool :=
  !(r.classes.isEmpty && r.declarations.isEmpty && r.children.isEmpty)

mutual

/-- The rule and the rules nested in it, depth first. -/
def walk : StyleRule → List StyleRule
  | r@⟨_, _, _, _, children⟩ => r :: walkAll children

/-- The rules of a list with the rules nested in them, depth first. -/
def walkAll : List StyleRule → List StyleRule
  | [] => []
  | r :: rs => r.walk ++ walkAll rs

end

/-- The uses in rules and in the rules nested in them. -/
def usesIn (rs : List StyleRule) : List UseDirective :=
  (walkAll rs).flatMap StyleRule.uses

end StyleRule

/-- The uses in a block and in the rules nested in it. -/
def Body.allUses (b : Body) : List UseDirective :=
  b.uses ++ StyleRule.usesIn b.children

namespace Stylesheet

/-- A source without content. -/
def empty : Stylesheet := ⟨[], [], []⟩

/-- Two sources as one: the second's entries follow the first's. -/
def merge (a b : Stylesheet) : Stylesheet :=
  ⟨a.rules ++ b.rules, a.exports ++ b.exports, a.imports ++ b.imports⟩

instance : Append Stylesheet := ⟨merge⟩

/-- The uses in the exports and the rules of a source, at any depth. -/
def allUses (s : Stylesheet) : List UseDirective :=
  s.exports.flatMap (fun e => e.toBody.allUses) ++ StyleRule.usesIn s.rules

@[simp] theorem rules_append (a b : Stylesheet) : (a ++ b).rules = a.rules ++ b.rules := rfl

@[simp] theorem exports_append (a b : Stylesheet) :
    (a ++ b).exports = a.exports ++ b.exports := rfl

@[simp] theorem imports_append (a b : Stylesheet) :
    (a ++ b).imports = a.imports ++ b.imports := rfl

@[simp] theorem empty_append (s : Stylesheet) : empty ++ s = s := by
  change Stylesheet.mk _ _ _ = _
  simp [empty]

theorem append_assoc (a b c : Stylesheet) : a ++ b ++ c = a ++ (b ++ c) := by
  change Stylesheet.mk _ _ _ = Stylesheet.mk _ _ _
  simp

end Stylesheet

end NestedStyles
