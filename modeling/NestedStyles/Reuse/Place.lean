import NestedStyles.Rule

/-!
# Places in a block

A rule nested in a block is found by its index at each level. `Body.places` lists the block and all
rules nested in it, depth first. `Body.inside` reads the content at a place and `Body.modifyAt`
changes it.
-/

namespace NestedStyles

mutual

/-- The place `here` of a rule and the places of the rules nested in it, depth first. -/
def StyleRule.placesFrom (here : List Nat) : StyleRule → List (List Nat)
  | ⟨_, _, _, _, children⟩ => here :: placesFromAll here 0 children

/-- The places of rules side by side below `above`, the first with index `k`, and of the rules
nested in them. -/
def StyleRule.placesFromAll (above : List Nat) (k : Nat) : List StyleRule → List (List Nat)
  | [] => []
  | r :: rs => r.placesFrom (above ++ [k]) ++ placesFromAll above (k + 1) rs

end

namespace Body

/-- The places of a block and of the rules nested in it, depth first. -/
def places (b : Body) : List (List Nat) :=
  [] :: StyleRule.placesFromAll [] 0 b.children

/-- The content at a place. There is none where there is no rule. -/
def inside : List Nat → Body → Body
  | [], b => b
  | i :: path, b =>
    match b.children[i]? with
    | some r => inside path r.body
    | none => .empty

/-- Changes the content at a place. -/
def modifyAt (change : Body → Body) : List Nat → Body → Body
  | [], b => change b
  | i :: path, b =>
    { b with
      children := b.children.modify i fun r => (modifyAt change path r.body).toRule r.selector }

end Body

/-- Changes the block of a rule. -/
def StyleRule.modifyBody (change : Body → Body) (r : StyleRule) : StyleRule :=
  (change r.body).toRule r.selector

/-- Changes the block of an export. -/
def ExportBlock.modifyBody (change : Body → Body) (e : ExportBlock) : ExportBlock :=
  ⟨change e.toBody, e.name⟩

end NestedStyles
