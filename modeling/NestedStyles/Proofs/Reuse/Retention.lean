import NestedStyles.Proofs.Reuse.Invalidation
import NestedStyles.Proofs.Reuse.Operations

/-!
# How long a dependency is kept

What a file takes from others is recorded anew each time the file is resolved, and also when it is
read for its exports alone (`Operation.Rewrites`). A file that uses another one only in its rules
does not ask for it then. So a dependency that was returned is kept exactly as long as nothing is
recorded anew without it (`Operation.dependent_iff_not_lost`).
-/

namespace NestedStyles

open Reuse

/-- In a table that has each key once, each entry is the one that is found. -/
theorem Table.lookup_of_mem {α β : Type} [BEq α] [LawfulBEq α] {k : α} {v : β}
    {t : List (α × β)} (once : (t.map Prod.fst).Nodup) (mem : (k, v) ∈ t) :
    t.lookup k = some v := by
  obtain ⟨before, after, rfl⟩ := List.append_of_mem mem
  rw [List.map_append, List.map_cons] at once
  have apart := List.disjoint_of_nodup_append once
  refine List.lookup_eq_some_iff.2 ⟨before, after, rfl, fun entry earlier => bne_iff_ne.2 ?_⟩
  rintro rfl
  exact apart (List.mem_map_of_mem earlier) List.mem_cons_self

namespace Reuse

variable {α : Type} {x : α} {xs : List α}

/-- The starts of a list with one entry more. -/
theorem forall_start_cons {P : List α → Prop} :
    (∀ first rest, x :: xs = first ++ rest → P first) ↔
      P [] ∧ ∀ first rest, xs = first ++ rest → P (x :: first) := by
  refine ⟨fun h => ⟨h [] _ rfl, fun first rest split => ?_⟩, ?_⟩
  · exact h (x :: first) rest (congrArg (x :: ·) split)
  · rintro ⟨none, some⟩ first rest split
    cases first with
    | nil => exact none
    | cons _ first =>
      cases split
      exact some first rest rfl

/-- The entries of a list with one entry more, each with what comes before it. -/
theorem forall_turn_cons {P : List α → α → Prop} :
    (∀ first next rest, x :: xs = first ++ next :: rest → P first next) ↔
      P [] x ∧ ∀ first next rest, xs = first ++ next :: rest → P (x :: first) next := by
  refine ⟨fun h => ⟨h [] x xs rfl, fun first next rest split => ?_⟩, ?_⟩
  · exact h (x :: first) next rest (congrArg (x :: ·) split)
  · rintro ⟨here, later⟩ first next rest split
    cases first with
    | nil =>
      cases split
      exact here
    | cons _ first =>
      cases split
      exact later first next rest rfl

end Reuse

namespace Session

variable {s : Session} {file provider : String}

/-- A file depends on those that are recorded for it, and on no others. -/
theorem mem_dependents_iff (once : (s.dependencies.map Prod.fst).Nodup) :
    file ∈ s.dependents provider ↔
      Path.absolute none provider ∈ (s.dependencies.lookup file).getD [] := by
  refine ⟨fun h => ?_, mem_dependents⟩
  obtain ⟨⟨consumer, providers⟩, mem, same⟩ := List.mem_map.1 h
  obtain ⟨entry, named⟩ := List.mem_filter.1 mem
  rw [← show consumer = file from same, Table.lookup_of_mem once entry]
  exact of_decide_eq_true named

end Session

namespace Operation

variable {contents : List (String × FileContent)} {op : Operation} {ops : List Operation}
variable {s : Session} {file provider : String} {asked : List String}

/-- It is recorded anew what the file takes from others: because it was resolved, or because it was
read for its exports. -/
inductive Rewrites (op : Operation) (s : Session) (file : String) : List String → Prop
  | resolved {asked : List String} (resolution : op.resolution s = some (file, asked)) :
    op.Rewrites s file asked
  | read (other : ∀ asked, op.resolution s ≠ some (file, asked))
      (arrives : op.files.Arrives s (op.after s) file) :
    op.Rewrites s file (((op.after s).dependencies.lookup file).getD [])

/-- It is recorded anew what the file takes from others, and the provider is not among it. -/
def Loses (op : Operation) (s : Session) (file provider : String) : Prop :=
  ∃ asked, op.Rewrites s file asked ∧ Path.absolute none provider ∉ asked

/-- The steps after resolution leave the files that were asked for as they are. -/
theorem finish_dependencies {cfg : Config} {c : Component} {r : Resolution}
    {earlier : List Diagnostic} {compiled : Compiled}
    (finished : c.finish cfg r earlier = .ok compiled) :
    compiled.dependencies = r.dependencies := by
  unfold Component.finish at finished
  cases matched : Matching.ofRules c.template cfg
      (Output.extract Output.isPseudoElement
        (Output.extract Output.isSlotted r.sheet.rules).kept).kept with
  | error e => simp [matched, Bind.bind, Except.bind] at finished
  | ok matching =>
    simp only [matched, Bind.bind, Except.bind] at finished
    cases finished
    rfl

/-- A component that is compiled is resolved, and the files it asked for are returned. -/
theorem resolution_of_compile {fs : Files} {cfg : Config} {c : Component} {compiled : Compiled}
    (returned : (c.compile cfg fs.load s).1 = .ok compiled) :
    (compile fs cfg c).resolution s = some (Path.absolute none c.file, compiled.dependencies) := by
  dsimp only [Component.compile] at returned
  dsimp only [resolution]
  split at returned
  · cases returned
  · next r later resolved =>
    rw [resolved, outcome]
    cases finished : c.finish cfg r _ with
    | error e =>
      rw [finished] at returned
      cases returned
    | ok compiled' =>
      rw [finished] at returned
      cases returned
      rw [finish_dependencies finished]

/-- What is recorded anew is found in the session after the operation. -/
theorem Rewrites.recorded (orderly : s.Orderly contents) (within : op.files.contents = contents)
    (h : op.Rewrites s file asked) :
    ((op.after s).dependencies.lookup file).getD [] = asked := by
  cases h with
  | read => rfl
  | resolved resolution =>
    cases step orderly within with
    | loads none =>
      rw [resolution] at none
      cases none
    | records file' asked' t some grows orderly' after =>
      rw [resolution] at some
      cases some
      rw [after, ← Session.record_absolute]
      exact Files.lookup_record (Path.absolute_absolute none file') asked

/-- What is recorded for a file is as before, or it is recorded anew. -/
theorem lookup_after (orderly : s.Orderly contents) (within : op.files.contents = contents)
    (file : String) : (op.after s).dependencies.lookup file = s.dependencies.lookup file ∨
      ∃ asked, op.Rewrites s file asked := by
  cases step orderly within with
  | loads none grows orderly' =>
    refine (grows.recorded file).imp_right fun arrives => ⟨_, .read (fun asked => ?_) arrives⟩
    rw [none]
    exact Option.some_ne_none _ |>.symm
  | records file' asked t some grows orderly' after =>
    -- other files are recorded only when they are read on the way
    by_cases same : file = Path.absolute none file'
    · exact .inr ⟨asked, .resolved (same ▸ some)⟩
    have untouched : (op.after s).dependencies.lookup file = t.dependencies.lookup file := by
      rw [after, ← Session.record_absolute]
      exact Files.lookup_record_of_ne (Path.absolute_absolute none file') same asked
    refine (grows.recorded file).imp untouched.trans fun arrives => ⟨_, .read (fun asked' => ?_) ?_⟩
    · rw [some]
      rintro ⟨⟩
      exact same rfl
    · have known : (op.after s).exports? file ≠ none := by
        rw [after]
        exact arrives.known
      exact ⟨arrives.unknown, known, untouched ▸ arrives.asks⟩

/-- A dependency outlasts an operation unless the operation loses it. -/
theorem dependent_after_iff (orderly : s.Orderly contents) (within : op.files.contents = contents)
    (there : file ∈ s.dependents provider) :
    file ∈ (op.after s).dependents provider ↔ ¬ op.Loses s file provider := by
  rw [Session.mem_dependents_iff (after_orderly orderly within).consumers]
  constructor
  · rintro kept ⟨asked, rewrites, lost⟩
    rw [rewrites.recorded orderly within] at kept
    exact lost kept
  · intro kept
    rcases lookup_after orderly within file with same | ⟨asked, rewrites⟩
    · rw [same]
      exact (Session.mem_dependents_iff orderly.consumers).1 there
    · rw [rewrites.recorded orderly within]
      exact not_not.1 fun lost => kept ⟨asked, rewrites, lost⟩

/-- So it outlasts any number of operations of which none loses it. -/
theorem dependent_run_iff (orderly : s.Orderly contents) (within : Within contents ops)
    (there : file ∈ s.dependents provider) :
    (∀ first rest, ops = first ++ rest → file ∈ (run first s).dependents provider) ↔
      ∀ first next rest, ops = first ++ next :: rest →
        ¬ next.Loses (run first s) file provider := by
  induction ops generalizing s with
  | nil =>
    constructor
    · intro _ first next rest split
      have some : first ++ next :: rest ≠ [] :=
        List.append_ne_nil_of_right_ne_nil first (List.cons_ne_nil next rest)
      exact absurd split.symm some
    · intro _ first rest split
      obtain ⟨rfl, -⟩ := List.append_eq_nil_iff.1 split.symm
      exact there
  | cons op ops ih =>
    obtain ⟨here, later⟩ := List.forall_mem_cons.1 within
    have once := dependent_after_iff orderly here there
    have ih (after : file ∈ (op.after s).dependents provider) :=
      ih (after_orderly orderly here) later after
    rw [forall_start_cons, forall_turn_cons]
    constructor
    · rintro ⟨-, kept⟩
      have after : file ∈ (op.after s).dependents provider := kept [] ops rfl
      exact ⟨once.1 after, (ih after).1 kept⟩
    · rintro ⟨first, rest⟩
      have after := once.2 first
      exact ⟨there, (ih after).2 rest⟩

/-- In any course of operations with the same texts: once a file was resolved and a provider was
among what it asked for, it stays among the dependents of the provider exactly as long as no later
operation loses it. -/
theorem dependent_iff_not_lost {before later : List Operation}
    (within : Within contents (before ++ op :: later))
    (returned : op.resolution (run before Session.empty) = some (file, asked))
    (mem : Path.absolute none provider ∈ asked) :
    (∀ first rest, later = first ++ rest →
        file ∈ (run (before ++ op :: first) Session.empty).dependents provider) ↔
      ∀ first next rest, later = first ++ next :: rest →
        ¬ next.Loses (run (before ++ op :: first) Session.empty) file provider := by
  obtain ⟨earlier, here, rest⟩ := (List.forall_mem_append.1 within).imp_right
    List.forall_mem_cons.1
  have orderly : (run before Session.empty).Orderly contents := run_orderly .empty earlier
  have orderly' := after_orderly orderly here
  have recorded := (Rewrites.resolved returned).recorded orderly here
  have there : file ∈ (op.after (run before Session.empty)).dependents provider := by
    rw [Session.mem_dependents_iff orderly'.consumers, recorded]
    exact mem
  have course (first : List Operation) : run (before ++ op :: first) Session.empty =
      run first (op.after (run before Session.empty)) := run_append before (op :: first) _
  simp only [course]
  exact dependent_run_iff orderly' rest there

/-- A file that uses another one in a rule. -/
def rulePage : Files where
  contents := [
    ("/p", .text "@export n \x7b\nm\n\x7d"),
    ("/f", .text ".a \x7b\n@use n from './p'\n\x7d")]
  config := ⟨[], [], [], "component"⟩
  styles := some

/-- The file is resolved with its rule. -/
def rulePageResolved : Operation :=
  .resolve rulePage "/f"
    (Stylesheet.parse rulePage.config ".a \x7b\n@use n from './p'\n\x7d").value

/-- The file is lost among the dependents of the other one when it is loaded for its exports. -/
theorem dependent_iff_not_lost_rulePage :
    rulePageResolved.resolution (run [] Session.empty) = some ("/f", ["/p"]) ∧
      "/f" ∈ (run [rulePageResolved] Session.empty).dependents "/p" ∧
      (load rulePage "/f").Loses (run [rulePageResolved] Session.empty) "/f" "/p" := by
  -- evaluated at once, since each of these reads the files anew
  have facts : rulePageResolved.resolution (run [] Session.empty) = some ("/f", ["/p"]) ∧
      Path.absolute none "/p" ∈ ["/p"] ∧
      "/f" ∈ (run [rulePageResolved] Session.empty).dependents "/p" ∧
      "/f" ∉ (run [rulePageResolved, load rulePage "/f"] Session.empty).dependents "/p" := by
    decide +kernel
  obtain ⟨returned, mem, there, lost⟩ := facts
  refine ⟨returned, there, not_not.1 fun kept => lost ?_⟩
  have within : Within rulePage.contents ([] ++ rulePageResolved :: [load rulePage "/f"]) :=
    List.forall_mem_cons.2 ⟨rfl, List.forall_mem_singleton.2 rfl⟩
  refine (dependent_iff_not_lost within returned mem).2 ?_ [load rulePage "/f"] [] rfl
  intro first next rest split
  obtain ⟨rfl, rfl, -⟩ | ⟨_, -, none⟩ := List.cons_eq_append_iff.1 split
  · cases split
    exact kept
  · exact absurd none (by simp)

end Operation

end NestedStyles
