import Mathlib.Data.List.Perm.Subperm
import NestedStyles.Proofs.Reuse.Invariant

/-!
# Resolving blocks without cycles

Where names use each other without a cycle, a block that is entered is never one that is being
worked on. By induction on the number of blocks that may still be entered, a block is resolved into
its expansion (`Outset.Sound.resolves`), with every export it needs done before it is copied.
-/

namespace NestedStyles

open Function Relation

namespace Reuse

namespace Outset

variable {S : Outset} {base : List Fault} {held : BlockRef → Option Body} {p : Pass}

/-! ## Asking for blocks -/

/-- The exports of a file are those it provides, and they stay known. -/
theorem exportsOf_runs (served : S.consumer.Serves S.provided S.ready) (inv : S.Inv base held p)
    (path : String) : Runs (exportsOf S.consumer path) p fun es q =>
      es = S.provided path ∧ path ∈ q.dependencies ∧ S.Inv base held q := by
  have asked : path ∈ (p.depend path).dependencies ∧
      ∀ d ∈ (p.depend path).dependencies, d ∈ p.dependencies ∨ d = path := by
    rw [Pass.depend]
    split
    case isTrue h => exact ⟨h, fun d hd => .inl hd⟩
    case isFalse => exact ⟨by simp, fun d hd => by simpa using hd⟩
  have kept : ∀ d ∈ p.dependencies, d ∈ (p.depend path).dependencies := by
    intro d hd
    rw [Pass.depend]
    split
    · exact hd
    · exact List.mem_append_left _ hd
  obtain ⟨s, load, ready, here, others, faults⟩ := served.load path p.session inv.ready
  refine .modify_bind (.bind (Q := fun _ q => q = { p.depend path with session := s }) ?_ ?_)
  · exact ⟨(), _, inSession_of_run load, rfl⟩
  · rintro _ _ rfl
    refine .get_bind (.of_pure ⟨here, asked.1, ?_⟩)
    have known : S.Inv base held { p with session := s } := by
      refine inv.of_session ready (fun d hd => others d (inv.asked d hd)) ?_
      rw [faults]
      exact inv.faults
    refine { known with known := fun d hd => kept d (inv.known d hd), asked := fun d hd => ?_ }
    rcases asked.2 d hd with hd | rfl
    · exact others d (inv.asked d hd)
    · exact here

/-- The index of the first export with a name is that of the export found by the name. -/
theorem find?_eq_findExport (name : String) (es : List ExportBlock) :
    es.find? (·.name == name) = (findExport name es).bind fun i => es[i]? := by
  rw [findExport]
  cases h : es.findIdx? (·.name == name) with
  | none =>
    rw [Option.bind_none, List.find?_eq_none]
    simpa using List.findIdx?_eq_none_iff.1 h
  | some i =>
    obtain ⟨-, rfl⟩ := List.findIdx?_eq_some_iff_findIdx_eq.1 h
    rw [Option.bind_some, List.find?_eq_getElem?_findIdx]

/-- An index found for a name is that of an export with the name. -/
theorem exists_of_findExport {name : String} {es : List ExportBlock} {i : Nat}
    (h : findExport name es = some i) : ∃ e, es[i]? = some e ∧ e.name = name := by
  obtain ⟨inside, named, -⟩ := List.findIdx?_eq_some_iff_getElem.1 h
  exact ⟨es[i], List.getElem?_eq_getElem inside, beq_iff_eq.1 named⟩

theorem lookup_bare {c : Consumer} {u : UseDirective} (bare : u.source.getD "" = "")
    (owner : Option String) : lookup c owner u = do
      match (← get).registry.lookup u.name with
      | some ref => return some ref
      | none =>
        modify (·.report c (.usedUndefined owner u.name))
        return none := by
  unfold lookup
  split
  case _ => rfl
  case _ source => exact absurd bare source

theorem lookup_qualified {c : Consumer} {u : UseDirective} (source : u.source.getD "" ≠ "")
    (owner : Option String) : lookup c owner u = do
      match findExport u.name (← exportsOf c (c.pathOf (u.source.getD ""))) with
      | some i => return some (.foreign (c.pathOf (u.source.getD "")) i)
      | none =>
        modify (·.report c (.usedNotExported owner u.name (u.source.getD "")))
        return none := by
  unfold lookup
  split
  case _ bare => exact absurd bare source
  case _ => rfl

/-- A use asks for nothing there is and this is reported, or it asks for a block that is known. -/
theorem lookup_runs (served : S.consumer.Serves S.provided S.ready)
    (registered : S.Registered S.sheet) (inv : S.Inv base held p) (owner : Option String)
    (u : UseDirective) :
    Runs (lookup S.consumer owner u) p fun found q =>
      (found = none ∧ S.target u = none ∧ S.Inv (base ++ [faultOf owner u]) held q) ∨
      ∃ ref e, found = some ref ∧ S.export? ref = some e ∧ S.target u = some e.toBody ∧
        S.Inv base held q ∧ (∀ path i, ref = .foreign path i → path ∈ q.dependencies) ∧
        (∀ i, ref = .own i → e.name = u.name ∧ u.source.getD "" = "") := by
  by_cases bare : u.source.getD "" = ""
  · have finds := registered.finds u.name
    rw [lookup_bare bare, target, Consumer.target_bare bare, faultOf_bare bare]
    refine .get_bind ?_
    rw [inv.registry]
    cases named : S.registry.lookup u.name with
    | some ref =>
      have entry := Table.mem_of_lookup named
      obtain ⟨e, he, name⟩ := registered.named _ entry
      rw [named, Option.bind_some, he] at finds
      refine .of_pure (.inr ⟨ref, e, rfl, he, ?_, inv, ?_, fun _ _ => ⟨name, bare⟩⟩)
      · rw [← finds, Option.map_some]
      · rintro path i rfl
        exact inv.known path (registered.known _ entry path i rfl)
    | none =>
      rw [named, Option.bind_none] at finds
      refine .modify_bind (.of_pure (.inl ⟨rfl, ?_, inv.report served rfl⟩))
      rw [← finds, Option.map_none]
  · rw [lookup_qualified bare, target, Consumer.target_qualified bare, faultOf_qualified bare,
      find?_eq_findExport]
    refine .bind (exportsOf_runs served inv _) ?_
    rintro _ q ⟨rfl, asked, inv⟩
    cases found : findExport u.name (S.provided (S.consumer.pathOf (u.source.getD ""))) with
    | some i =>
      obtain ⟨e, he, -⟩ := exists_of_findExport found
      refine .of_pure (.inr ⟨_, e, rfl, he, ?_, inv, ?_, ?_⟩)
      · rw [Option.bind_some, he, Option.map_some]
      · rintro _ _ ⟨⟩
        exact asked
      · rintro _ ⟨⟩
    | none => exact .modify_bind (.of_pure (.inl ⟨rfl, rfl, inv.report served rfl⟩))

/-! ## Entering a block -/

/-- What a resolution without cycles rests on. -/
structure Sound (S : Outset) : Prop where
  served : S.consumer.Serves S.provided S.ready
  registered : S.Registered S.sheet
  /-- Exports do not use each other in a cycle of keys. -/
  acyclic : ∀ n, ¬ TransGen (S.consumer.UsesKey S.sheet) n n

/-- The keys that are watched while a block is resolved: names of exports that lead to the block,
with those of all exports that are being worked on. -/
structure Watch (S : Outset) (active : List String) (ref : BlockRef)
    (held : BlockRef → Option Body) : Prop where
  leads : ∀ a ∈ active, ∃ n, S.nameOf ref = some n ∧
    ReflTransGen (S.consumer.UsesKey S.sheet) a n
  owner : ∀ n, S.nameOf ref = some n → n ∈ active
  held : ∀ i e, S.sheet.exports[i]? = some e → e.name ∉ active → held (.own i) = none

variable {active : List String} {ref : BlockRef} {u : UseDirective} {depth : Nat}

/-- The block of an export is its content. -/
theorem body_of_export? {e : ExportBlock} (he : S.export? ref = some e) :
    S.body ref = e.toBody := by
  cases ref with
  | rule => cases he
  | own | foreign => simp [body, he]

/-- A block of the file that has a name is an export. -/
theorem exists_export (h : Holds S.sheet ref) {n : String} (name : S.nameOf ref = some n) :
    ∃ e ∈ S.sheet.exports, e.name = n ∧ S.body ref = e.toBody := by
  cases ref with
  | own i =>
    have found : S.sheet.exports[i]? = some S.sheet.exports[i] := List.getElem?_eq_getElem h
    refine ⟨S.sheet.exports[i], List.getElem_mem h, ?_, body_of_export? found⟩
    simpa [nameOf, export?, found] using name
  | rule i => cases name
  | foreign => exact h.elim

/-- A use is not watched in the block it stands in. -/
theorem Watch.keyOf_not_mem (watch : S.Watch active ref held) (sound : S.Sound)
    (h : Holds S.sheet ref) (used : u ∈ (S.body ref).allUses) :
    S.consumer.keyOf u ∉ active := by
  intro mem
  obtain ⟨n, name, path⟩ := watch.leads _ mem
  obtain ⟨e, he, rfl, content⟩ := exists_export h name
  rw [content] at used
  exact sound.acyclic _ (TransGen.head' ⟨e, he, rfl, u, used, rfl⟩ path)

/-- From a use without a source the watch is kept in the export it asks for. -/
theorem Watch.enter (watch : S.Watch active ref held) (h : Holds S.sheet ref)
    (used : u ∈ (S.body ref).allUses) (bare : u.source.getD "" = "") {i : Nat} {e : ExportBlock}
    (he : S.sheet.exports[i]? = some e) (name : e.name = u.name) (b : Body) :
    S.Watch (S.consumer.keyOf u :: active) (.own i) (update held ref (some b)) := by
  have own : S.nameOf (.own i) = some u.name := by simp [nameOf, export?, he, name]
  rw [Consumer.keyOf_bare bare]
  constructor
  case leads =>
    intro a ha
    refine ⟨u.name, own, ?_⟩
    rcases List.mem_cons.1 ha with rfl | ha
    · exact .refl
    · obtain ⟨n, owner, path⟩ := watch.leads a ha
      obtain ⟨e', he', same, content⟩ := exists_export h owner
      exact path.tail ⟨e', he', same, u, content ▸ used, Consumer.keyOf_bare bare⟩
  case owner =>
    intro n hn
    obtain rfl : u.name = n := Option.some.inj (own.symm.trans hn)
    exact List.mem_cons_self
  case held =>
    intro j e' he' new
    have new := List.not_mem_of_not_mem_cons new
    have ne : BlockRef.own j ≠ ref := by
      rintro rfl
      exact new (watch.owner _ (by simp [nameOf, export?, he']))
    rw [update_of_ne ne]
    exact watch.held j e' he' new

/-- So many blocks may still be entered: the keys of the uses that were entered are different keys
of uses in the file. -/
def Affords (S : Outset) (depth : Nat) (active : List String) : Prop :=
  ∃ ks rest, active = ks ++ rest ∧ ks.Nodup ∧ ks ⊆ S.sheet.allUses.map S.consumer.keyOf ∧
    S.sheet.allUses.length < depth + ks.length

/-- With more blocks to enter than there are uses any blocks may be entered already. -/
theorem affords_of_lt (enough : S.sheet.allUses.length < depth) (active : List String) :
    S.Affords depth active :=
  ⟨[], active, rfl, List.nodup_nil, List.nil_subset _, enough⟩

theorem Affords.enter (h : S.Affords (depth + 1) active) (new : S.consumer.keyOf u ∉ active)
    (used : u ∈ S.sheet.allUses) :
    S.Affords depth (S.consumer.keyOf u :: active) ∧ 0 < depth := by
  obtain ⟨ks, rest, rfl, nodup, keys, bound⟩ := h
  have fresh : S.consumer.keyOf u ∉ ks := fun h => new (List.mem_append_left rest h)
  have nodup' := List.nodup_cons.2 ⟨fresh, nodup⟩
  have keys' := List.cons_subset.2 ⟨List.mem_map_of_mem used, keys⟩
  have short := (nodup'.subperm keys').length_le
  rw [List.length_cons, List.length_map] at short
  refine ⟨⟨S.consumer.keyOf u :: ks, rest, rfl, nodup', keys', ?_⟩, ?_⟩
  · rw [List.length_cons]
    omega
  · omega

/-- The uses in a block of the file are uses in the file. -/
theorem mem_allUses (h : Holds S.sheet ref) (used : u ∈ (S.body ref).allUses) :
    u ∈ S.sheet.allUses := by
  cases ref with
  | own i =>
    have found : S.export? (.own i) = some S.sheet.exports[i] := List.getElem?_eq_getElem h
    rw [body_of_export? found] at used
    exact List.mem_append_left _ (List.mem_flatMap.2 ⟨_, List.getElem_mem h, used⟩)
  | rule i =>
    have found : S.sheet.rules[i]? = some S.sheet.rules[i] := List.getElem?_eq_getElem h
    refine List.mem_append_right _ (StyleRule.mem_usesIn (List.getElem_mem h) ?_)
    simpa [body, found] using used
  | foreign => exact h.elim

/-- With so many blocks to enter every export can be resolved. -/
def Resolves (S : Outset) (depth : Nat) : Prop :=
  ∀ {active held base p i}, i < S.sheet.exports.length → S.Inv base held p → .own i ∉ p.done →
    held (.own i) = none → S.Watch active (.own i) held → S.Affords depth active → 0 < depth →
    Runs (resolveBlock S.consumer depth active (.own i)) p fun _ q =>
      ∃ b, Expands S.target (S.body (.own i)) b ∧
        S.Inv (base ++ S.missingIn (.own i)) (update held (.own i) (some b)) q

/-- A block of a file that was asked for is as it was. -/
theorem Inv.body_foreign (inv : S.Inv base held p) {path : String} {i : Nat}
    (asked : path ∈ p.dependencies) : p.body (.foreign path i) = S.body (.foreign path i) := by
  simp [Pass.body, Pass.export?, body, export?, inv.asked path asked]

/-- A block that was resolved, or is one of another file, holds its expansion. -/
theorem Inv.expands_export (inv : S.Inv base held p)
    (served : S.consumer.Serves S.provided S.ready) {e : ExportBlock} (he : S.export? ref = some e)
    (done : ∀ i, ref = .own i → ref ∈ p.done)
    (known : ∀ path i, ref = .foreign path i → path ∈ p.dependencies) :
    Expands S.target e.toBody (p.body ref) := by
  rw [← body_of_export? he]
  cases ref with
  | rule => cases he
  | own i => exact inv.expanded i (done i rfl)
  | foreign path i =>
    rw [inv.body_foreign (known path i rfl)]
    exact expands_self (S.free_foreign served)

/-- A block is resolved before it is copied. -/
theorem settle_runs (sound : S.Sound) (resolves : S.Resolves depth) (inv : S.Inv base held p)
    {e : ExportBlock} (he : S.export? ref = some e) (new : ref ∉ p.done)
    (known : ∀ path i, ref = .foreign path i → path ∈ p.dependencies)
    (own : ∀ i, ref = .own i →
      held ref = none ∧ S.Watch active ref held ∧ S.Affords depth active ∧ 0 < depth) :
    Runs (do resolveBlock S.consumer depth active ref; modify (·.markDone ref)) p fun _ q =>
      S.Inv base held q ∧ ref ∈ q.done ∧ Expands S.target e.toBody (q.body ref) := by
  cases ref with
  | rule => cases he
  | own i =>
    obtain ⟨free, watch, affords, enough⟩ := own i rfl
    have inside : i < S.sheet.exports.length := List.getElem?_eq_some_iff.1 he |>.1
    refine (resolves inside inv new free watch affords enough).bind ?_
    rintro _ q ⟨b, expands, inv⟩
    obtain ⟨-, new, content⟩ := inv.holds (.own i) b (update_self ..)
    rw [← content] at expands
    refine .of_modify ⟨?_, List.mem_cons_self, ?_⟩
    · exact inv.markDone he new (fun _ _ => expands) free fun r ne => update_of_ne ne _ _
    · rw [← body_of_export? he]
      exact expands
  | foreign path i =>
    have free : (p.body (.foreign path i)).allUses = [] := by
      rw [inv.body_foreign (known path i rfl)]
      exact S.free_foreign sound.served
    have expands := inv.expands_export sound.served he (by rintro _ ⟨⟩) known
    refine (resolveBlock_foreign depth (sound.served.keys _ inv.ready) free).bind ?_
    rintro _ q rfl
    refine .of_modify ⟨?_, List.mem_cons_self, expands⟩
    have unheld := inv.free_of_foreign path i
    rw [← List.append_nil base, ← S.missingIn_foreign sound.served path i] at inv
    exact inv.markDone he new (by rintro _ ⟨⟩) unheld fun _ _ => rfl

/-! ## Working on a block -/

/-- A block of the file is being worked on, with so many blocks to enter from there. -/
structure Working (S : Outset) (depth : Nat) (active : List String) (ref : BlockRef)
    (held : BlockRef → Option Body) : Prop where
  sound : S.Sound
  resolves : S.Resolves depth
  watch : S.Watch active ref held
  affords : S.Affords (depth + 1) active
  here : Holds S.sheet ref

variable {path : List Nat} {around : Body → Body} {b : Body}

/-- A resolved block is copied to a place where it is used, and this is noted. -/
theorem copy_runs (served : S.consumer.Serves S.provided S.ready) (here : Holds S.sheet ref)
    (focus : Focus path around) {target : BlockRef} {e : ExportBlock} (other : target ≠ ref)
    (found : S.target u = some e.toBody) (inv : S.Inv base (update held ref (some (around b))) p)
    (expands : Expands S.target e.toBody (p.body target)) :
    Runs (do
        copyBlock ⟨ref, path⟩ target
        inSession (modify (·.log [.inlined S.consumer.file u.name]))) p fun _ q =>
      ∃ more, UsesExpand S.target [u] more ∧ S.Inv (base ++ missing S.target (S.nameOf ref) [u])
        (update held ref (some (around (b ++ more)))) q := by
  refine (copyBlock_runs (inv.holds_sheet here) focus inv.body_held other rfl
    expands.uses_eq).bind ?_
  rintro _ _ rfl
  refine ⟨(), _, rfl, p.body target ++ .empty, .known found expands .nil, ?_⟩
  rw [missing_of_some found, List.append_nil, Body.append_empty]
  exact (inv.setBody _).log_inlined served _ _

/-- A use at a place gives way to what it asks for. -/
theorem inlineUse_runs (work : S.Working depth active ref held) (focus : Focus path around)
    (used : u ∈ (S.body ref).allUses) (inv : S.Inv base (update held ref (some (around b))) p) :
    Runs (inlineUse S.consumer (resolveBlock S.consumer depth) active (S.nameOf ref) ⟨ref, path⟩ u)
      p fun _ q => ∃ more, UsesExpand S.target [u] more ∧
        S.Inv (base ++ missing S.target (S.nameOf ref) [u])
          (update held ref (some (around (b ++ more)))) q := by
  obtain ⟨sound, resolves, watch, affords, here⟩ := work
  have new := watch.keyOf_not_mem sound here used
  rw [inlineUse, if_neg new]
  refine (lookup_runs sound.served sound.registered inv (S.nameOf ref) u).bind ?_
  rintro _ q (⟨rfl, absent, inv⟩ | ⟨target, e, rfl, he, found, inv, known, own⟩)
  · refine .of_pure ⟨.empty, .unknown absent .nil, ?_⟩
    rw [missing_of_none absent, Body.append_empty]
    exact inv
  · have fresh : ∀ i, target = .own i → e.name ∉ active := by
      intro i hi
      obtain ⟨name, bare⟩ := own i hi
      rwa [name, ← Consumer.keyOf_bare bare]
    have other : target ≠ ref := by
      rintro rfl
      cases target with
      | rule => cases he
      | own i => exact fresh i rfl (watch.owner e.name (by rw [nameOf, he, Option.map_some]))
      | foreign => exact here.elim
    refine .get_bind ?_
    by_cases done : target ∈ q.done
    · rw [if_neg (not_not_intro done)]
      have expands := inv.expands_export sound.served he (fun _ _ => done) known
      exact copy_runs sound.served here focus other found inv expands
    · rw [if_pos done, ← bind_assoc]
      refine (settle_runs sound resolves inv he done known ?_).bind ?_
      · rintro i rfl
        obtain ⟨name, bare⟩ := own i rfl
        have free : update held ref (some (around b)) (.own i) = none := by
          rw [update_of_ne other]
          exact watch.held i e he (fresh i rfl)
        have enough := affords.enter new (mem_allUses here used)
        exact ⟨free, watch.enter here used bare he name _, enough.1, enough.2⟩
      · rintro _ q ⟨inv, -, expands⟩
        exact copy_runs sound.served here focus other found inv expands

/-- The uses at a place give way one after the other. -/
theorem inlineUses_runs (work : S.Working depth active ref held) (focus : Focus path around)
    {us : List UseDirective} (used : us ⊆ (S.body ref).allUses)
    (inv : S.Inv base (update held ref (some (around b))) p) :
    Runs (us.forM (inlineUse S.consumer (resolveBlock S.consumer depth) active (S.nameOf ref)
      ⟨ref, path⟩)) p fun _ q => ∃ more, UsesExpand S.target us more ∧
        S.Inv (base ++ missing S.target (S.nameOf ref) us)
          (update held ref (some (around (b ++ more)))) q := by
  induction us generalizing base b p with
  | nil =>
    refine .forM_nil ⟨.empty, .nil, ?_⟩
    rwa [missing_nil, List.append_nil, Body.append_empty]
  | cons u us ih =>
    obtain ⟨first, rest⟩ := List.cons_subset.1 used
    refine .forM_cons (inlineUse_runs work focus first inv) ?_
    rintro q ⟨more, expands, inv⟩
    refine (ih rest inv).imp ?_
    rintro _ q ⟨more', expands', inv⟩
    refine ⟨more ++ more', expands.append expands', ?_⟩
    rwa [← List.singleton_append, missing_append, ← List.append_assoc, ← Body.append_assoc]

/-- All uses at a place give way, and there are none then. -/
theorem inlineAt_runs (work : S.Working depth active ref held) (focus : Focus path around)
    (used : b.uses ⊆ (S.body ref).allUses)
    (inv : S.Inv base (update held ref (some (around b))) p) :
    Runs (inlineAt S.consumer (resolveBlock S.consumer depth) active (S.nameOf ref) ref path) p
      fun _ q => ∃ more, UsesExpand S.target b.uses more ∧
        S.Inv (base ++ missing S.target (S.nameOf ref) b.uses) (update held ref (some (around
          ⟨b.classes ++ more.classes, b.declarations ++ more.declarations, [],
            b.children ++ more.children⟩))) q := by
  have content : p.content ⟨ref, path⟩ = b := by rw [Pass.content, inv.body_held, focus.inside]
  refine .get_bind ?_
  rw [content]
  refine (inlineUses_runs work focus used inv).bind ?_
  rintro _ q ⟨more, expands, inv⟩
  refine .of_modify ⟨more, expands, ?_⟩
  rw [Pass.clearUses, Pass.modifyContent_eq_setBody (inv.holds_sheet work.here) focus inv.body_held]
  exact inv.setBody _

/-- What is done at a place and at the rules below it. -/
theorem content_runs (work : S.Working depth active ref held) (focus : Focus path around)
    (used : b.allUses ⊆ (S.body ref).allUses)
    (inv : S.Inv base (update held ref (some (around b))) p)
    (below : ∀ {base q classes declarations after}, S.Inv base (update held ref (some (around
        ⟨classes, declarations, [], b.children ++ after⟩))) q →
      Runs ((StyleRule.placesFromAll path 0 b.children).forM (inlineAt S.consumer
        (resolveBlock S.consumer depth) active (S.nameOf ref) ref)) q fun _ q' =>
          ∃ kids, RulesExpand S.target b.children kids ∧
            S.Inv (base ++ missing S.target (S.nameOf ref) (StyleRule.usesIn b.children))
              (update held ref (some (around ⟨classes, declarations, [], kids ++ after⟩))) q') :
    Runs ((path :: StyleRule.placesFromAll path 0 b.children).forM (inlineAt S.consumer
      (resolveBlock S.consumer depth) active (S.nameOf ref) ref)) p fun _ q =>
        ∃ b', Expands S.target b b' ∧ S.Inv (base ++ missing S.target (S.nameOf ref) b.allUses)
          (update held ref (some (around b'))) q := by
  obtain ⟨usedHere, -⟩ := List.append_subset.1 used
  refine .forM_cons (inlineAt_runs work focus usedHere inv) ?_
  rintro q ⟨more, uses, inv⟩
  refine (below inv).imp ?_
  rintro _ q ⟨kids, children, inv⟩
  refine ⟨_, .intro uses children, ?_⟩
  rwa [Body.allUses, missing_append, ← List.append_assoc]

mutual

/-- A rule in focus becomes its expansion. -/
theorem rule_runs (work : S.Working depth active ref held) (r : StyleRule) {base : List Fault}
    {p : Pass} {path : List Nat} {around : Body → Body} (focus : Focus path around)
    (used : r.body.allUses ⊆ (S.body ref).allUses)
    (inv : S.Inv base (update held ref (some (around r.body))) p) :
    Runs ((r.placesFrom path).forM (inlineAt S.consumer (resolveBlock S.consumer depth) active
      (S.nameOf ref) ref)) p fun _ q => ∃ b, Expands S.target r.body b ∧
        S.Inv (base ++ missing S.target (S.nameOf ref) r.body.allUses)
          (update held ref (some (around b))) q := by
  obtain ⟨selector, classes, declarations, uses, children⟩ := r
  have below := (List.append_subset.1 used).2
  refine content_runs work focus used inv fun {_ _ classes declarations after} inv => ?_
  exact rules_runs work children [] focus below inv
termination_by structural r

/-- Rules side by side in the block in focus become their expansions. -/
theorem rules_runs (work : S.Working depth active ref held) (rs : List StyleRule)
    (before : List StyleRule) {base : List Fault} {p : Pass} {path : List Nat}
    {around : Body → Body} {classes declarations : List String} {uses : List UseDirective}
    {after : List StyleRule} (focus : Focus path around)
    (used : StyleRule.usesIn rs ⊆ (S.body ref).allUses)
    (inv : S.Inv base (update held ref (some (around
      ⟨classes, declarations, uses, before ++ (rs ++ after)⟩))) p) :
    Runs ((StyleRule.placesFromAll path before.length rs).forM (inlineAt S.consumer
      (resolveBlock S.consumer depth) active (S.nameOf ref) ref)) p fun _ q =>
        ∃ kids, RulesExpand S.target rs kids ∧
          S.Inv (base ++ missing S.target (S.nameOf ref) (StyleRule.usesIn rs))
            (update held ref (some (around
              ⟨classes, declarations, uses, before ++ (kids ++ after)⟩))) q := by
  cases rs with
  | nil =>
    refine .forM_nil ⟨[], .nil, ?_⟩
    rwa [StyleRule.usesIn_nil, missing_nil, List.append_nil]
  | cons r rs =>
    rw [StyleRule.usesIn_cons] at used
    obtain ⟨first, rest⟩ := List.append_subset.1 used
    have inside := focus.child classes declarations uses r.selector before (rs ++ after)
    rw [← StyleRule.toRule_body r] at inv
    refine .forM_append (rule_runs work r inside first inv) ?_
    rintro q ⟨b, expands, inv⟩
    have step (l : List StyleRule) : before ++ b.toRule r.selector :: l =
        (before ++ [b.toRule r.selector]) ++ l := by
      rw [List.append_assoc, List.singleton_append]
    rw [step] at inv
    have others := rules_runs work rs (before ++ [b.toRule r.selector]) focus rest inv
    rw [List.length_append, List.length_singleton] at others
    refine others.imp ?_
    rintro _ q ⟨kids, expand, inv⟩
    refine ⟨b.toRule r.selector :: kids, .cons expands expand, ?_⟩
    rw [StyleRule.usesIn_cons, missing_append, ← List.append_assoc, List.cons_append, step]
    exact inv
termination_by structural rs

end

/-- A block of the file becomes its expansion. -/
theorem resolveBlock_runs (work : S.Working depth active ref held)
    (inv : S.Inv base (update held ref (some (S.body ref))) p) :
    Runs (resolveBlock S.consumer (depth + 1) active ref) p fun _ q =>
      ∃ b, Expands S.target (S.body ref) b ∧
        S.Inv (base ++ S.missingIn ref) (update held ref (some b)) q := by
  refine .get_bind ?_
  rw [inv.nameOf_eq work.here, inv.body_held]
  refine content_runs work Focus.root (List.Subset.refl _) inv fun inv => ?_
  have below : StyleRule.usesIn (S.body ref).children ⊆ (S.body ref).allUses :=
    List.subset_append_right _ _
  exact rules_runs work (S.body ref).children [] Focus.root below inv

/-- Any number of blocks to enter is enough for the exports that can be entered with it. -/
theorem Sound.resolves (sound : S.Sound) (depth : Nat) : S.Resolves depth := by
  induction depth with
  | zero =>
    intro _ _ _ _ _ _ _ _ _ _ _ enough
    exact absurd enough (Nat.lt_irrefl 0)
  | succ depth ih =>
    intro active held base p i inside inv new free watch affords _
    exact resolveBlock_runs ⟨sound, ih, watch, affords, inside⟩ (inv.hold inside new free)

end Outset

end Reuse

end NestedStyles
