import NestedStyles.Proofs.Reuse.Draining
import NestedStyles.Proofs.Reuse.Refinement

/-!
# Own content first

Any file can be resolved, also one with names that are unknown or double and with blocks that use
each other in a circle. Then no use is left in it, the content each rule and each export had stands
first in it, and resolving the file once more changes nothing (`Stylesheet.resolve_drains`).
-/

namespace NestedStyles

open Reuse

/-- Rules and exports are those of the other file, in the same order, and what stood in them stands
first. -/
structure Stylesheet.Kept (sheet sheet' : Stylesheet) : Prop where
  rules : List.Forall₂ (fun r r' => r'.selector = r.selector ∧ r.body.Kept r'.body)
    sheet.rules sheet'.rules
  exports : List.Forall₂ (fun e e' => e'.name = e.name ∧ e.toBody.Kept e'.toBody)
    sheet.exports sheet'.exports

namespace Reuse

variable {c : Consumer} {sheet : Stylesheet} {p : Pass} {s : Session}

/-- Whatever is asked for, the loader makes only blocks without uses known. -/
def Consumer.Supplies (c : Consumer) : Prop :=
  ∀ path s, s.Clean → ∃ s', c.load path s = (.ok (), s') ∧ s'.Clean

/-- The loader of a consumer, in sessions without uses. -/
def Loading.supply (c : Consumer) : Loading :=
  ⟨c.load, Session.Clean, fun _ _ => True⟩

theorem Loading.supply_lawful (keeps : ∀ path s, s.Clean → (c.load path s).2.Clean) :
    (Loading.supply c).Lawful where
  refl _ := trivial
  trans _ _ := trivial
  log ready events := ⟨ready.log events, trivial⟩
  load ready path := ⟨keeps path _ ready, trivial⟩
  clean := id

/-- A loader that only notes what it is asked for makes no blocks known. -/
theorem Consumer.noting_supplies (file : String) : (Consumer.noting file).Supplies :=
  fun path s clean => ⟨s.log [.asked path], rfl, clean.keys, clean.free⟩

theorem Consumer.Supplies.lawful (supplies : c.Supplies) : (Loading.supply c).Lawful := by
  refine Loading.supply_lawful fun path s clean => ?_
  obtain ⟨s', run, clean'⟩ := supplies path s clean
  rw [run]
  exact clean'

/-- With a loader that never fails a step succeeds. -/
theorem Consumer.Supplies.runs (supplies : c.Supplies) {act : Consumer → PassM Unit}
    {Q : Unit → Pass → Prop} (clean : p.session.Clean)
    (h : Proceeds (Loading.supply c) c.file act p Q) : Runs (act c) p Q := by
  rcases h clean with ⟨calls, a, q, course, hQ⟩ | ⟨call, e, q, ready, fails, -⟩
  · exact ⟨a, q, course.run, hQ⟩
  · obtain ⟨s', run, -⟩ := supplies call.path call.session ready
    have fine : (c.load call.path call.session).1 = .error e := fails
    rw [run] at fine
    cases fine

namespace Underway

/-- A rule keeps its selector and its block advances. -/
theorem rule_advances (h : Underway sheet p) {i : Nat} (inside : i < sheet.rules.length)
    (inside' : i < p.sheet.rules.length) :
    p.sheet.rules[i].selector = sheet.rules[i].selector ∧
      sheet.rules[i].body.Advances p.sheet.rules[i].body := by
  have selector := congrArg (·[i]?) h.selectors
  have advances := h.advances (.rule i) inside
  simp only [Stylesheet.block, Pass.body, Pass.start, List.getElem?_eq_getElem inside,
    List.getElem?_eq_getElem inside', Option.map_some, Option.getD_some] at advances
  exact ⟨by simpa [inside, inside'] using selector, advances⟩

/-- An export keeps its name and its block advances. -/
theorem export_advances (h : Underway sheet p) {i : Nat} (inside : i < sheet.exports.length)
    (inside' : i < p.sheet.exports.length) :
    p.sheet.exports[i].name = sheet.exports[i].name ∧
      sheet.exports[i].toBody.Advances p.sheet.exports[i].toBody := by
  have name := congrArg (·[i]?) h.names
  have advances := h.advances (.own i) inside
  simp only [Stylesheet.block, Pass.body, Pass.export?, Pass.start,
    List.getElem?_eq_getElem inside, List.getElem?_eq_getElem inside', Option.map_some,
    Option.getD_some] at advances
  exact ⟨by simpa [inside, inside'] using name, advances⟩

theorem kept (h : Underway sheet p) : sheet.Kept p.sheet where
  rules := by
    refine List.forall₂_iff_get.2 ⟨h.length_rules.symm, fun i inside inside' => ?_⟩
    obtain ⟨selector, advances⟩ := h.rule_advances inside inside'
    exact ⟨selector, advances.kept⟩
  exports := by
    refine List.forall₂_iff_get.2 ⟨h.length_exports.symm, fun i inside inside' => ?_⟩
    obtain ⟨name, advances⟩ := h.export_advances inside inside'
    exact ⟨name, advances.kept⟩

/-- A file without uses stays as it is. -/
theorem eq_of_free (h : Underway sheet p) (free : sheet.allUses = []) : p.sheet = sheet := by
  obtain ⟨exports, rules⟩ := List.append_eq_nil_iff.1 free
  have sameRules : p.sheet.rules = sheet.rules := by
    refine List.ext_getElem h.length_rules fun i inside' inside => ?_
    obtain ⟨selector, advances⟩ := h.rule_advances inside inside'
    have none : sheet.rules[i].body.allUses = [] :=
      List.subset_nil.1 fun u used => rules ▸ StyleRule.mem_usesIn (List.getElem_mem inside) used
    rw [← StyleRule.toRule_body p.sheet.rules[i], advances.still none, selector,
      StyleRule.toRule_body]
  have sameExports : p.sheet.exports = sheet.exports := by
    refine List.ext_getElem h.length_exports fun i inside' inside => ?_
    obtain ⟨name, advances⟩ := h.export_advances inside inside'
    have none := List.flatMap_eq_nil_iff.1 exports _ (List.getElem_mem inside)
    have body := advances.still none
    generalize p.sheet.exports[i] = e' at name body
    generalize sheet.exports[i] = e at name body
    obtain ⟨_, _⟩ := e
    obtain ⟨_, _⟩ := e'
    cases name
    cases body
    rfl
  have sameImports := h.imports
  generalize p.sheet = after at sameRules sameExports sameImports
  obtain ⟨_, _, _⟩ := after
  cases sameRules
  cases sameExports
  cases sameImports
  rfl

end Underway

end Reuse

namespace Stylesheet

variable {c : Consumer} {s : Session}

/-- Resolving a file succeeds and drains it. -/
theorem resolve_underway (supplies : c.Supplies) (clean : s.Clean) (keep : Bool)
    (sheet : Stylesheet) : ∃ p s', sheet.resolve c keep s = (.ok ⟨p.sheet, p.dependencies⟩, s') ∧
      Underway sheet p ∧ p.sheet.allUses = [] := by
  have drains := pass_drains supplies.lawful c.file s (allUses_lt_start s sheet)
  obtain ⟨p, s', run, -, h⟩ := resolve_of_runs keep (supplies.runs clean drains)
  exact ⟨p, s', run, h⟩

/-- Any file can be resolved, as long as the blocks of other files have no uses. Then it has none
either, what stood in its rules and exports stands first in them, and to resolve it again leaves it
as it is. -/
theorem resolve_drains (supplies : c.Supplies) (clean : s.Clean) (keep : Bool)
    (sheet : Stylesheet) :
    ∃ r s', sheet.resolve c keep s = (.ok r, s') ∧ r.sheet.allUses = [] ∧ sheet.Kept r.sheet ∧
      ∀ c' : Consumer, c'.Supplies → ∀ keep' s₁, s₁.Clean →
        ∃ r' s₂, r.sheet.resolve c' keep' s₁ = (.ok r', s₂) ∧ r'.sheet = r.sheet := by
  obtain ⟨p, s', run, underway, free⟩ := resolve_underway supplies clean keep sheet
  refine ⟨_, s', run, free, underway.kept, fun c' supplies' keep' s₁ clean' => ?_⟩
  obtain ⟨p', s₂, run', again, -⟩ := resolve_underway supplies' clean' keep' p.sheet
  exact ⟨_, s₂, run', again.eq_of_free free⟩

theorem clean_otherBlocks : (Session.mk otherBlocks [] []).Clean := by
  constructor
  · decide
  · have free : ∀ entry ∈ otherBlocks, ∀ e ∈ entry.2, e.toBody.allUses = [] := by decide
    exact free

/-- Two exports that use each other, one of them in a nested rule, and a second one of the same
name as the first. -/
def circle : Stylesheet where
  rules := [⟨".a", ["c"], [], [⟨"one", none⟩, ⟨"lost", none⟩], []⟩]
  exports := [
    ⟨⟨["p"], [], [⟨"two", none⟩], []⟩, "one"⟩,
    ⟨⟨["q"], [], [⟨"n", some "/p"⟩], [⟨"&:hover", ["r"], [], [⟨"one", none⟩], []⟩]⟩, "two"⟩,
    ⟨⟨["s"], [], [⟨"two", none⟩], []⟩, "one"⟩]
  imports := []

theorem resolve_drains_circle :
    (Consumer.noting "/f").Supplies ∧ (Session.mk otherBlocks [] []).Clean ∧
      ∃ r s', circle.resolve (.noting "/f") true ⟨otherBlocks, [], []⟩ = (.ok r, s') ∧
        r.sheet.allUses = [] ∧ circle.Kept r.sheet ∧
        ∀ c' : Consumer, c'.Supplies → ∀ keep' s₁, s₁.Clean →
          ∃ r' s₂, r.sheet.resolve c' keep' s₁ = (.ok r', s₂) ∧ r'.sheet = r.sheet := by
  have supplies : (Consumer.noting "/f").Supplies := Consumer.noting_supplies "/f"
  exact ⟨supplies, clean_otherBlocks, resolve_drains supplies clean_otherBlocks true circle⟩

/-- The circle is cut where a block is entered again: the nested rule keeps its own class only. -/
example : (circle.resolve (.noting "/f") true ⟨otherBlocks, [], []⟩).1.map (·.sheet.rules) =
    .ok [⟨".a", ["c", "s", "q", "x"], [], [], [⟨"&:hover", ["r"], [], [], []⟩]⟩] := by
  cbv

end Stylesheet

end NestedStyles
