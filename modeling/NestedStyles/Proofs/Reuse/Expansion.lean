import NestedStyles.Reuse.Pass

/-!
# What a block expands to

The expansion of a block is given by recursion alone: its own content, then the expansion of what
each use asks for, use by use. Nothing is said about the order in which blocks are resolved, and
none is resolved in place. A block has at most one expansion (`Expands.unique`).
-/

namespace NestedStyles

namespace Reuse

mutual

/-- A block expands to another one, where `target` says what a use asks for. -/
inductive Expands (target : UseDirective → Option Body) : Body → Body → Prop
  | intro {b more : Body} {kids : List StyleRule} (uses : UsesExpand target b.uses more)
      (children : RulesExpand target b.children kids) :
      Expands target b ⟨b.classes ++ more.classes, b.declarations ++ more.declarations, [],
        kids ++ more.children⟩

/-- What the uses of a block add to it. -/
inductive UsesExpand (target : UseDirective → Option Body) : List UseDirective → Body → Prop
  | nil : UsesExpand target [] .empty
  /-- A use that asks for nothing there is adds nothing. -/
  | unknown {u : UseDirective} {us : List UseDirective} {more : Body} (absent : target u = none)
      (rest : UsesExpand target us more) : UsesExpand target (u :: us) more
  | known {u : UseDirective} {us : List UseDirective} {b b' more : Body} (found : target u = some b)
      (expansion : Expands target b b') (rest : UsesExpand target us more) :
      UsesExpand target (u :: us) (b' ++ more)

/-- The rules expand one by one. -/
inductive RulesExpand (target : UseDirective → Option Body) :
    List StyleRule → List StyleRule → Prop
  | nil : RulesExpand target [] []
  | cons {r : StyleRule} {rs rs' : List StyleRule} {b : Body} (first : Expands target r.body b)
      (rest : RulesExpand target rs rs') :
      RulesExpand target (r :: rs) (b.toRule r.selector :: rs')

end

section

variable {target : UseDirective → Option Body}

mutual

theorem Expands.unique {b x y : Body} (h : Expands target b x) (h' : Expands target b y) :
    x = y := by
  match h, h' with
  | .intro uses children, .intro uses' children' =>
    rw [uses.unique uses', children.unique children']
termination_by structural h

theorem UsesExpand.unique {us : List UseDirective} {x y : Body} (h : UsesExpand target us x)
    (h' : UsesExpand target us y) : x = y := by
  match h, h' with
  | .nil, .nil => rfl
  | .unknown _ rest, .unknown _ rest' => exact rest.unique rest'
  | .unknown absent _, .known found _ _ => exact absurd (absent.symm.trans found) (by simp)
  | .known found _ _, .unknown absent _ => exact absurd (absent.symm.trans found) (by simp)
  | .known found expansion rest, .known found' expansion' rest' =>
    obtain rfl := Option.some.inj (found.symm.trans found')
    rw [expansion.unique expansion', rest.unique rest']
termination_by structural h

theorem RulesExpand.unique {rs x y : List StyleRule} (h : RulesExpand target rs x)
    (h' : RulesExpand target rs y) : x = y := by
  match h, h' with
  | .nil, .nil => rfl
  | .cons first rest, .cons first' rest' => rw [first.unique first', rest.unique rest']
termination_by structural h

end

/-- An expansion holds no uses. -/
theorem Expands.uses_eq {b b' : Body} (h : Expands target b b') : b'.uses = [] := by
  cases h
  rfl

end

end Reuse

/-! ## Blocks without uses -/

namespace StyleRule

@[simp] theorem usesIn_nil : usesIn [] = [] := rfl

/-- The uses in a list of rules are those in the first one and those in the others. -/
@[simp] theorem usesIn_cons (r : StyleRule) (rs : List StyleRule) :
    usesIn (r :: rs) = r.body.allUses ++ usesIn rs := by
  obtain ⟨selector, classes, declarations, uses, children⟩ := r
  simp [usesIn, walkAll, walk, Body.allUses, body]

theorem mem_usesIn {rs : List StyleRule} {r : StyleRule} {u : UseDirective} (mem : r ∈ rs)
    (used : u ∈ r.body.allUses) : u ∈ usesIn rs := by
  induction rs with
  | nil => cases mem
  | cons first rest ih =>
    rw [usesIn_cons]
    rcases List.mem_cons.1 mem with rfl | mem
    · exact List.mem_append_left _ used
    · exact List.mem_append_right _ (ih mem)

end StyleRule

namespace Reuse

section

variable {target : UseDirective → Option Body}

/-- Uses add what the first ones add and then what the others add. -/
theorem UsesExpand.append {us vs : List UseDirective} {x y : Body} (h : UsesExpand target us x)
    (h' : UsesExpand target vs y) : UsesExpand target (us ++ vs) (x ++ y) := by
  induction us generalizing x with
  | nil =>
    cases h
    rwa [Body.empty_append]
  | cons u us ih =>
    cases h with
    | unknown absent rest => exact .unknown absent (ih rest)
    | known found expansion rest =>
      rw [Body.append_assoc]
      exact .known found expansion (ih rest)

/-- A block expands to itself where it has no uses and the rules in it do. -/
theorem Expands.of_children {b : Body} (uses : b.uses = [])
    (children : RulesExpand target b.children b.children) : Expands target b b := by
  obtain ⟨classes, declarations, _, rs⟩ := b
  obtain rfl := uses
  have h := Expands.intro (b := ⟨classes, declarations, [], rs⟩) .nil children
  simpa [Body.empty] using h

mutual

/-- A rule in which nothing is used expands to itself. -/
theorem expands_body_self (r : StyleRule) (free : r.body.allUses = []) :
    Expands target r.body r.body := by
  obtain ⟨_, _, _, _, children⟩ := r
  obtain ⟨uses, below⟩ := List.append_eq_nil_iff.1 free
  exact .of_children uses (rulesExpand_self children below)
termination_by structural r

theorem rulesExpand_self (rs : List StyleRule) (free : StyleRule.usesIn rs = []) :
    RulesExpand target rs rs := by
  cases rs with
  | nil => exact .nil
  | cons r rs =>
    rw [StyleRule.usesIn_cons] at free
    obtain ⟨first, rest⟩ := List.append_eq_nil_iff.1 free
    have h := RulesExpand.cons (expands_body_self r first) (rulesExpand_self rs rest)
    rwa [StyleRule.toRule_body] at h
termination_by structural rs

end

/-- A block in which nothing is used expands to itself. -/
theorem expands_self {b : Body} (free : b.allUses = []) : Expands target b b := by
  obtain ⟨uses, below⟩ := List.append_eq_nil_iff.1 free
  exact .of_children uses (rulesExpand_self b.children below)

end

/-! ## What uses ask for -/

/-- What is written down about a use that asks for nothing there is. -/
def faultOf (owner : Option String) (u : UseDirective) : Fault :=
  match u.source.getD "" with
  | "" => .usedUndefined owner u.name
  | source => .usedNotExported owner u.name source

/-- What is written down about those uses that ask for nothing there is. -/
def missing (target : UseDirective → Option Body) (owner : Option String)
    (us : List UseDirective) : List Fault :=
  (us.filter fun u => (target u).isNone).map (faultOf owner)

@[simp] theorem missing_nil (target : UseDirective → Option Body) (owner : Option String) :
    missing target owner [] = [] :=
  rfl

theorem missing_of_none {target : UseDirective → Option Body} {u : UseDirective}
    (absent : target u = none) (owner : Option String) :
    missing target owner [u] = [faultOf owner u] := by
  simp [missing, absent]

theorem missing_of_some {target : UseDirective → Option Body} {u : UseDirective} {b : Body}
    (found : target u = some b) (owner : Option String) : missing target owner [u] = [] := by
  simp [missing, found]

@[simp] theorem missing_append (target : UseDirective → Option Body) (owner : Option String)
    (us vs : List UseDirective) :
    missing target owner (us ++ vs) = missing target owner us ++ missing target owner vs := by
  rw [missing, List.filter_append, List.map_append, missing, missing]

namespace Consumer

/-- The block a name stands for in a file: that of the last import which provides it, else the last
one the file itself exports. -/
def blockNamed (c : Consumer) (provided : String → List ExportBlock) (sheet : Stylesheet)
    (name : String) : Option ExportBlock :=
  (sheet.imports.reverse.findSome? fun imp =>
    if name ∈ imp.names then (provided (c.pathOf imp.source)).find? (·.name == name)
    else none).or (sheet.exports.reverse.find? (·.name == name))

/-- The content of the block a use asks for, where the files provide these blocks. -/
def target (c : Consumer) (provided : String → List ExportBlock) (sheet : Stylesheet)
    (u : UseDirective) : Option Body :=
  match u.source.getD "" with
  | "" => (c.blockNamed provided sheet u.name).map ExportBlock.toBody
  | source => ((provided (c.pathOf source)).find? (·.name == u.name)).map ExportBlock.toBody

end Consumer

/-- In the file an export named `n`, or a rule nested in it, has a use with the key `m`. -/
def Consumer.UsesKey (c : Consumer) (sheet : Stylesheet) (n m : String) : Prop :=
  ∃ e ∈ sheet.exports, e.name = n ∧ ∃ u ∈ e.toBody.allUses, c.keyOf u = m

/-! ## Uses of this file and of another one -/

section

variable {u : UseDirective}

theorem faultOf_bare (bare : u.source.getD "" = "") (owner : Option String) :
    faultOf owner u = .usedUndefined owner u.name := by
  simp only [faultOf, bare]

theorem faultOf_qualified (source : u.source.getD "" ≠ "") (owner : Option String) :
    faultOf owner u = .usedNotExported owner u.name (u.source.getD "") := by
  unfold faultOf
  split
  case _ bare => exact absurd bare source
  case _ => rfl

namespace Consumer

variable {c : Consumer} {provided : String → List ExportBlock} {sheet : Stylesheet}

theorem keyOf_bare (bare : u.source.getD "" = "") : c.keyOf u = u.name := by
  simp only [keyOf, bare]

theorem target_bare (bare : u.source.getD "" = "") :
    c.target provided sheet u = (c.blockNamed provided sheet u.name).map ExportBlock.toBody := by
  simp only [target, bare]

theorem target_qualified (source : u.source.getD "" ≠ "") :
    c.target provided sheet u =
      ((provided (c.pathOf (u.source.getD ""))).find? (·.name == u.name)).map
        ExportBlock.toBody := by
  unfold target
  split
  case _ bare => exact absurd bare source
  case _ => rfl

end Consumer

end

end Reuse

end NestedStyles
