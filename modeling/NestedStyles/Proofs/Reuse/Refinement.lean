import NestedStyles.Proofs.Reuse.Resolution

/-!
# Resolving in place is expanding

A whole pass over a file: names are given to blocks, then the exports are resolved, and then the
rules. Where exports do not use each other in a cycle of keys, each rule and each export of the file
becomes what it expands to, and one fault is reported for each use that asks for nothing there is
(`Stylesheet.resolve_eq_expansion`).

That names do not use each other in a cycle is not enough: an export may have the very name that is
the key of a use of another file (`Stylesheet.resolve_ne_expansion_keyLike`). Where no export has,
it is enough (`Reuse.acyclic_of_usesName`).
-/

namespace NestedStyles

open Function Relation

namespace Reuse

/-- The faults of uses that were reported for a file are in the journal. -/
theorem mem_useFaults {file : String} {events : List Event} {φ : Fault} :
    φ ∈ useFaults file events ↔ .fault file φ ∈ events ∧ φ.isOfUse = true := by
  rw [useFaults, List.mem_filterMap]
  constructor
  · rintro ⟨event, mem, found⟩
    cases event with
    | fault f ψ =>
      obtain ⟨⟨rfl, h⟩, rfl⟩ : (f = file ∧ ψ.isOfUse = true) ∧ ψ = φ := by simpa using found
      exact ⟨mem, h⟩
    | _ => cases found
  · rintro ⟨mem, h⟩
    exact ⟨_, mem, by simp [h]⟩

/-- What is written down about a use that asks for nothing there is says that it is unknown. -/
theorem rule_faultOf (owner : Option String) (u : UseDirective) :
    (faultOf owner u).rule = "unknown-use" := by
  unfold faultOf
  split <;> rfl

theorem rule_of_mem_missing {target : UseDirective → Option Body} {owner : Option String}
    {us : List UseDirective} {φ : Fault} (mem : φ ∈ missing target owner us) :
    φ.rule = "unknown-use" := by
  obtain ⟨u, -, rfl⟩ := List.mem_map.1 mem
  exact rule_faultOf owner u

end Reuse

open Reuse

namespace Stylesheet

/-- The faults of the uses in a file that ask for nothing there is. -/
def missing (target : UseDirective → Option Body) (sheet : Stylesheet) : List Fault :=
  sheet.exports.flatMap (fun e => Reuse.missing target (some e.name) e.toBody.allUses) ++
    Reuse.missing target none (StyleRule.usesIn sheet.rules)

/-- All of them say that a use is unknown. -/
theorem rule_of_mem_missing {target : UseDirective → Option Body} {sheet : Stylesheet} {φ : Fault}
    (mem : φ ∈ sheet.missing target) : φ.rule = "unknown-use" := by
  rcases List.mem_append.1 mem with mem | mem
  · obtain ⟨e, -, mem⟩ := List.mem_flatMap.1 mem
    exact Reuse.rule_of_mem_missing mem
  · exact Reuse.rule_of_mem_missing mem

end Stylesheet

namespace Reuse

variable {c : Consumer} {provided : String → List ExportBlock} {ready : Session → Prop}
variable {sheet : Stylesheet} {s : Session} {depth : Nat}

namespace Outset

/-- What a pass starts from when names stand for nothing yet. -/
def start (c : Consumer) (provided : String → List ExportBlock) (ready : Session → Prop)
    (sheet : Stylesheet) : Outset :=
  ⟨c, provided, ready, sheet, [], [], []⟩

/-- All rules are held as they are. -/
def heldRules (sheet : Stylesheet) : BlockRef → Option Body
  | .rule i => sheet.rules[i]?.map StyleRule.body
  | _ => none

/-- How far a pass has come before its first step. -/
theorem names_start (here : ready s) :
    (start c provided ready sheet).Names { sheet with exports := [], imports := [] }
      (useFaults c.file s.journal) (heldRules sheet) (Pass.start s sheet) := by
  refine ⟨[], [], ?_, ⟨fun _ => rfl, by simp [naming, start], by simp [naming, start]⟩⟩
  constructor
  case registry | names | selectors => rfl
  case known | asked | entered | expanded => simp [Pass.start, naming, start]
  case ready => exact here
  case settled => exact List.nil_subset _
  case once => exact List.nodup_nil
  case untouched => exact fun _ _ _ => rfl
  case holds =>
    intro ref b h
    cases ref with
    | own | foreign => cases h
    | rule i =>
      obtain ⟨r, hr, rfl⟩ := Option.map_eq_some_iff.1 h
      refine ⟨List.getElem?_eq_some_iff.1 hr |>.1, List.not_mem_nil, ?_⟩
      have : sheet.rules[i]? = some r := hr
      simp [Pass.body, Pass.start, this]
  case faults =>
    rw [Pass.start, List.flatMap_nil, List.append_nil]
    exact List.Perm.refl _

/-- The rules are held for the loop over them. -/
theorem rules_start {S : Outset} : S.Rules 0 (heldRules S.sheet) where
  expanded := fun _ h => absurd h (Nat.not_lt_zero _)
  left := by
    intro i inside _
    simp [heldRules, body, inside]
  own := fun _ => rfl

/-- Names are given to blocks and the exports are resolved. -/
theorem prepare_runs (served : c.Serves provided ready)
    (acyclic : ∀ n, ¬ TransGen (c.UsesKey sheet) n n) (here : ready s)
    (enough : sheet.allUses.length < depth) :
    Runs (prepare c depth) (Pass.start s sheet) fun _ q => ∃ S : Outset, S.Sound ∧
      S.consumer = c ∧ S.provided = provided ∧ S.sheet = sheet ∧
      S.Inv (useFaults c.file s.journal) (heldRules sheet) q ∧
      ∀ i < sheet.exports.length, .own i ∈ S.settled := by
  have free : ∀ i, heldRules sheet (.own i) = none := fun _ => rfl
  refine (Names.registerExports_runs (S := start c provided ready sheet) served
    (names_start here) rfl).bind ?_
  rintro _ q ⟨same, names⟩
  refine .get_bind ?_
  rw [same]
  refine (names.applyImports_runs served).bind ?_
  rintro _ q ⟨registry, known, inv, registered⟩
  have sound : ((start c provided ready sheet).naming registry known).Sound :=
    ⟨served, registered, acyclic⟩
  refine .get_bind ?_
  rw [inv.registry]
  refine (resolveNamed_runs sound inv free enough).bind ?_
  intro _ q inv
  have length : q.sheet.exports.length = sheet.exports.length := inv.length_exports
  refine .get_bind ?_
  rw [length]
  refine (resolveOwn_runs sound inv free enough).imp ?_
  rintro _ q ⟨settled, inv, done⟩
  exact ⟨_, sound.settling settled, rfl, rfl, rfl, inv, done⟩

end Outset

/-- At the end of a pass the file is expanded, and what is missing in it was reported. -/
theorem pass_runs (served : c.Serves provided ready)
    (acyclic : ∀ n, ¬ TransGen (c.UsesKey sheet) n n) (here : ready s)
    (enough : sheet.allUses.length < depth) :
    Runs (do prepare c depth; resolveRules c depth) (Pass.start s sheet) fun _ q =>
      RulesExpand (c.target provided sheet) sheet.rules q.sheet.rules ∧
      ExportsExpand (c.target provided sheet) sheet.exports q.sheet.exports ∧
      (useFaults c.file q.session.journal).Perm
        (useFaults c.file s.journal ++ sheet.missing (c.target provided sheet)) := by
  refine (Outset.prepare_runs served acyclic here enough).bind ?_
  rintro _ q ⟨S, sound, rfl, rfl, rfl, inv, settled⟩
  refine (Outset.resolveRules_runs sound inv Outset.rules_start enough).imp ?_
  rintro _ q ⟨held, rules, inv⟩
  have done : ∀ i < S.sheet.exports.length, .own i ∈ q.done :=
    fun i inside => inv.settled (settled i inside)
  refine ⟨inv.rulesExpand rules, inv.exportsExpand done, ?_⟩
  have faults := inv.faults
  rw [Outset.missingIn_rules, List.append_assoc] at faults
  refine faults.trans (List.Perm.append_left _ ?_)
  exact List.perm_append_comm.trans ((inv.missing_done sound.served done).append_right _)

/-! ## Loaders that have nothing to do -/

/-- A loader that makes no blocks known and notes what it is asked for. -/
def Consumer.noting (file : String) : Consumer :=
  ⟨file, fun path => modify (·.log [.asked path])⟩

/-- The blocks that a library holds for a file. -/
def blocksIn (library : List (String × List ExportBlock)) (path : String) : List ExportBlock :=
  (library.lookup (Path.absolute none path)).getD []

/-- From a library that is complete blocks are served without doing anything. -/
theorem Consumer.noting_serves {file : String} {library : List (String × List ExportBlock)}
    (keys : (library.map Prod.fst).Nodup)
    (distinct : ∀ entry ∈ library, (entry.2.map ExportBlock.name).Nodup)
    (free : ∀ entry ∈ library, ∀ b ∈ entry.2, b.toBody.allUses = []) :
    (noting file).Serves (blocksIn library) fun s => s.library = library := by
  have blocks (path : String) : blocksIn library path = [] ∨
      ∃ entry ∈ library, entry.2 = blocksIn library path := by
    rw [blocksIn]
    cases found : library.lookup (Path.absolute none path) with
    | none => exact .inl rfl
    | some blocks => exact .inr ⟨_, Table.mem_of_lookup found, rfl⟩
  constructor
  case load =>
    rintro path s rfl
    refine ⟨s.log [.asked path], rfl, rfl, rfl, fun _ h => h, ?_⟩
    rw [Session.log, useFaults_append]
    exact List.append_nil _
  case log => exact fun _ _ h => h
  case keys =>
    rintro s rfl
    exact keys
  case distinct =>
    intro path
    rcases blocks path with none | ⟨entry, mem, same⟩
    · rw [none]
      exact List.nodup_nil
    · exact same ▸ distinct entry mem
  case free =>
    intro path b hb
    rcases blocks path with none | ⟨entry, mem, same⟩
    · rw [none] at hb
      cases hb
    · exact free entry mem b (same ▸ hb)

/-! ## Cycles -/

/-- Where each use leads to a key of lower rank there is no cycle. -/
theorem acyclic_of_rank (rank : String → Nat)
    (lower : ∀ e ∈ sheet.exports, ∀ u ∈ e.toBody.allUses, rank (c.keyOf u) < rank e.name) :
    ∀ n, ¬ TransGen (c.UsesKey sheet) n n := by
  have path {n m : String} (h : TransGen (c.UsesKey sheet) n m) : rank m < rank n := by
    induction h with
    | single edge =>
      obtain ⟨e, he, rfl, u, hu, rfl⟩ := edge
      exact lower e he u hu
    | tail _ edge ih =>
      obtain ⟨e, he, rfl, u, hu, rfl⟩ := edge
      exact Nat.lt_trans (lower e he u hu) ih
  exact fun n h => Nat.lt_irrefl _ (path h)

/-- In the file an export named `n`, or a rule nested in it, uses `m` without naming a source. -/
def UsesName (sheet : Stylesheet) (n m : String) : Prop :=
  ∃ e ∈ sheet.exports, e.name = n ∧ ∃ u ∈ e.toBody.allUses, u.source.getD "" = "" ∧ u.name = m

/-- Where no export has a name that is the key of a use of another file, there are no other cycles
of keys than those of names. -/
theorem acyclic_of_usesName
    (apart : ∀ e ∈ sheet.exports, ∀ u ∈ e.toBody.allUses, u.source.getD "" ≠ "" →
      ∀ e' ∈ sheet.exports, e'.name ≠ c.keyOf u)
    (acyclic : ∀ n, ¬ TransGen (UsesName sheet) n n) : ∀ n, ¬ TransGen (c.UsesKey sheet) n n := by
  have bare {n m : String} (h : c.UsesKey sheet n m) (named : ∃ e ∈ sheet.exports, e.name = m) :
      UsesName sheet n m := by
    obtain ⟨e, he, rfl, u, hu, rfl⟩ := h
    obtain ⟨e', he', name⟩ := named
    by_cases source : u.source.getD "" = ""
    · exact ⟨e, he, rfl, u, hu, source, (Consumer.keyOf_bare source).symm⟩
    · exact absurd name (apart e he u hu source e' he')
  -- every key on a cycle is a name, since only exports have uses
  have path {n m : String} (h : TransGen (c.UsesKey sheet) n m)
      (named : ∃ e ∈ sheet.exports, e.name = m) : TransGen (UsesName sheet) n m := by
    induction h with
    | single edge => exact .single (bare edge named)
    | tail _ edge ih =>
      have next := bare edge named
      obtain ⟨e, he, name, -⟩ := edge
      exact (ih ⟨e, he, name⟩).tail next
  intro n h
  obtain ⟨m, ⟨e, he, name, -⟩, -⟩ := TransGen.head'_iff.1 h
  exact acyclic n (path h ⟨e, he, name⟩)

end Reuse

namespace Stylesheet

/-- A resolution is a pass with steps that succeed. -/
theorem resolve_of_runs {c : Consumer} {sheet : Stylesheet} {s : Session} {Q : Unit → Pass → Prop}
    (keep : Bool)
    (h : Runs (do
        prepare c ((Pass.start s sheet).allUses.length + 1)
        resolveRules c ((Pass.start s sheet).allUses.length + 1)) (Pass.start s sheet) Q) :
    ∃ p s', sheet.resolve c keep s = (.ok ⟨p.sheet, p.dependencies⟩, s') ∧
      s'.journal = p.session.journal ∧ Q () p := by
  obtain ⟨⟨⟩, p, run, hQ⟩ := h
  have pass : runPass sheet (fun depth => do prepare c depth; resolveRules c depth) s =
      (.ok ⟨p.sheet, p.dependencies⟩, p.session) := runPass_of_ok run
  cases keep with
  | false => exact ⟨p, p.session, bind_of_ok pass, rfl, hQ⟩
  | true => exact ⟨p, p.session.record c.file p.dependencies, bind_of_ok pass, rfl, hQ⟩

/-- Where exports do not use each other in a cycle of keys, a file is resolved into its expansion.
Each use that asks for nothing there is is reported once, and no use is reported to be circular. -/
theorem resolve_eq_expansion {c : Consumer} {provided : String → List ExportBlock}
    {ready : Session → Prop} {sheet : Stylesheet} {s : Session} (keep : Bool)
    (served : c.Serves provided ready) (acyclic : ∀ n, ¬ TransGen (c.UsesKey sheet) n n)
    (here : ready s) : ∃ r s', sheet.resolve c keep s = (.ok r, s') ∧
      (∀ rules, RulesExpand (c.target provided sheet) sheet.rules rules ↔ rules = r.sheet.rules) ∧
      ExportsExpand (c.target provided sheet) sheet.exports r.sheet.exports ∧
      (useFaults c.file s'.journal).Perm
        (useFaults c.file s.journal ++ sheet.missing (c.target provided sheet)) ∧
      ∀ φ, φ.rule = "circular-use" →
        .fault c.file φ ∈ s'.journal → .fault c.file φ ∈ s.journal := by
  have enough : sheet.allUses.length < (Pass.start s sheet).allUses.length + 1 := by
    rw [Pass.allUses, List.length_append]
    exact Nat.lt_succ_of_le (Nat.le_add_right _ _)
  obtain ⟨p, s', run, journal, rules, exports, faults⟩ :=
    resolve_of_runs keep (pass_runs served acyclic here enough)
  rw [← journal] at faults
  refine ⟨_, s', run, ?_, exports, faults, ?_⟩
  · intro rules'
    constructor
    · exact fun h => h.unique rules
    · rintro rfl
      exact rules
  · intro φ circular mem
    have ofUse : φ.isOfUse = true := by rw [Fault.isOfUse, circular]; rfl
    rcases List.mem_append.1 (faults.mem_iff.1 (mem_useFaults.2 ⟨mem, ofUse⟩)) with old | new
    · exact (mem_useFaults.1 old).1
    · rw [rule_of_mem_missing new] at circular
      exact absurd circular (by decide)

/-- A file with a button, what it is made of and a rule that uses it. -/
def buttons : Stylesheet where
  rules := [⟨".a", ["c"], [], [⟨"button", none⟩, ⟨"lost", none⟩], []⟩]
  exports := [
    ⟨⟨["b"], [], [⟨"base", none⟩], [⟨"&:hover", [], [], [⟨"base", none⟩], []⟩]⟩, "button"⟩,
    ⟨⟨["p"], [], [⟨"n", none⟩], []⟩, "base"⟩]
  imports := [⟨["n"], "/p"⟩]

/-- The blocks of another file. -/
def otherBlocks : List (String × List ExportBlock) := [("/p", [⟨⟨["x"], [], [], []⟩, "n"⟩])]

theorem resolve_eq_expansion_buttons :
    ((Consumer.noting "/f").Serves (blocksIn otherBlocks) fun s => s.library = otherBlocks) ∧
    (∀ n, ¬ TransGen ((Consumer.noting "/f").UsesKey buttons) n n) ∧
    ∃ r s', buttons.resolve (.noting "/f") true ⟨otherBlocks, [], []⟩ = (.ok r, s') ∧
      (∀ rules, RulesExpand ((Consumer.noting "/f").target (blocksIn otherBlocks) buttons)
        buttons.rules rules ↔ rules = r.sheet.rules) ∧
      ExportsExpand ((Consumer.noting "/f").target (blocksIn otherBlocks) buttons) buttons.exports
        r.sheet.exports ∧
      (useFaults "/f" s'.journal).Perm
        (buttons.missing ((Consumer.noting "/f").target (blocksIn otherBlocks) buttons)) ∧
      ∀ φ, φ.rule = "circular-use" → .fault "/f" φ ∉ s'.journal := by
  have served : (Consumer.noting "/f").Serves (blocksIn otherBlocks)
      fun s => s.library = otherBlocks :=
    Consumer.noting_serves (by decide) (by decide) (by decide)
  have acyclic : ∀ n, ¬ TransGen ((Consumer.noting "/f").UsesKey buttons) n n := by
    let rank (n : String) : Nat := if n = "button" then 2 else if n = "base" then 1 else 0
    exact acyclic_of_rank rank (by decide)
  obtain ⟨r, s', run, rules, exports, faults, circular⟩ :=
    resolve_eq_expansion (s := ⟨otherBlocks, [], []⟩) true served acyclic rfl
  refine ⟨served, acyclic, r, s', run, rules, exports, faults, ?_⟩
  intro φ h mem
  exact absurd (circular φ h mem) List.not_mem_nil

/-- What is used stands behind the classes that are there, in the rules of the used block too. -/
example : (buttons.resolve (.noting "/f") true ⟨otherBlocks, [], []⟩).1.map (·.sheet.rules) =
    .ok [⟨".a", ["c", "b", "p", "x"], [], [], [⟨"&:hover", ["p", "x"], [], [], []⟩]⟩] := by
  cbv

/-! ## An export named like a key -/

/-- A file with an export whose name is the key of the use in it. -/
def keyLike : Stylesheet where
  rules := [⟨".a", [], [], [⟨"/p#n", none⟩], []⟩]
  exports := [⟨⟨[], [], [⟨"n", some "/p"⟩], []⟩, "/p#n"⟩]
  imports := []

/-- No name is used by an export, and still the use of another file is taken for a circular one and
the rule does not get what it uses. -/
theorem resolve_ne_expansion_keyLike :
    ((Consumer.noting "/f").Serves (blocksIn otherBlocks) fun s => s.library = otherBlocks) ∧
    (∀ n, ¬ TransGen (UsesName keyLike) n n) ∧
    ∃ r s', keyLike.resolve (.noting "/f") true ⟨otherBlocks, [], []⟩ = (.ok r, s') ∧
      ¬ RulesExpand ((Consumer.noting "/f").target (blocksIn otherBlocks) keyLike) keyLike.rules
        r.sheet.rules ∧
      .fault "/f" (.circularUse (some "/p#n") "n") ∈ s'.journal := by
  refine ⟨Consumer.noting_serves (by decide) (by decide) (by decide), ?_, ?_⟩
  · intro n h
    obtain ⟨m, ⟨e, he, -, u, hu, bare, -⟩, -⟩ := TransGen.head'_iff.1 h
    have qualified : ∀ e ∈ keyLike.exports, ∀ u ∈ e.toBody.allUses, u.source.getD "" ≠ "" := by
      decide
    exact qualified e he u hu bare
  · refine ⟨⟨⟨[⟨".a", [], [], [], []⟩], [⟨⟨[], [], [], []⟩, "/p#n"⟩], []⟩, []⟩, ⟨otherBlocks, [],
      [.fault "/f" (.circularUse (some "/p#n") "n"), .inlined "/f" "/p#n"]⟩, rfl, ?_, by decide⟩
    intro unchanged
    have block : (Consumer.noting "/f").target (blocksIn otherBlocks) keyLike ⟨"n", some "/p"⟩ =
        some ⟨["x"], [], [], []⟩ := by decide
    have taken : (Consumer.noting "/f").target (blocksIn otherBlocks) keyLike ⟨"/p#n", none⟩ =
        some ⟨[], [], [⟨"n", some "/p"⟩], []⟩ := by decide
    have inner := UsesExpand.known block (expands_self rfl) .nil
    have outer := UsesExpand.known taken (.intro inner .nil) .nil
    have expansion := RulesExpand.cons (r := ⟨".a", [], [], [⟨"/p#n", none⟩], []⟩)
      (.intro outer .nil) .nil
    exact absurd (unchanged.unique expansion) (by decide)

end Stylesheet

end NestedStyles
