import Mathlib.Data.Fintype.Card
import Mathlib.Data.Set.Finite.List
import NestedStyles.Proofs.Reuse.Exporting
import NestedStyles.Reuse.Loader

/-!
# What files provide

What a file provides is given without a session: its text decides what is asked of other files, and
what these provide decides what comes of it (`Files.Provides`). A file provides one thing at most
(`Provides.unique`), blocks without uses, and something for sure where files do not refer to each
other in a circle (`Files.exists_provides`). It depends on no other files than those that are asked
for on the way (`Provides.congr`).
-/

namespace NestedStyles

open Relation

namespace Stylesheet

open Reuse

/-- The inquiry that resolves the exports of the file `path`. -/
noncomputable def inquiry (path : String) (sheet : Stylesheet) : Inquiry (Unit × Pass) :=
  (prepare_inquires path (Nat.lt_succ_self sheet.allUses.length)).choose

theorem inquiry_describes (path : String) (sheet : Stylesheet) :
    (sheet.inquiry path).Describes path (fun c => prepare c (sheet.allUses.length + 1))
      (Pass.start Session.empty sheet) :=
  (prepare_inquires path (Nat.lt_succ_self sheet.allUses.length)).choose_spec.1

theorem inquiry_all (path : String) (sheet : Stylesheet) :
    (sheet.inquiry path).All (sheet.sources path) fun x => Inquiry.Free x.2.sheet.exports :=
  (prepare_inquires path (Nat.lt_succ_self sheet.allUses.length)).choose_spec.2

end Stylesheet

namespace Files

open Reuse

variable {fs fs' : Files} {path q : String} {o o' : Answer}
variable {answer answer' : String → Answer}

/-- The stylesheet that is read of a file, if there are styles in it. -/
def sheetOf (fs : Files) (path : String) : Except Undecodable (Option Stylesheet) :=
  match fs.readText path with
  | .error e => .error e
  | .ok none => .ok none
  | .ok (some text) =>
    match fs.stylesIn text with
    | "" => .ok none
    | styles => .ok (some (Stylesheet.parse fs.config styles).value)

/-- The files that a file refers to: in an import, or in a use in an export. -/
def refs (fs : Files) (path : String) : List String :=
  match fs.sheetOf path with
  | .ok (some sheet) => sheet.sources path
  | _ => []

/-- The files that a file asks for when these are the answers. -/
noncomputable def asked (fs : Files) (answer : String → Answer) (path : String) : List String :=
  match fs.sheetOf path with
  | .ok (some sheet) => (sheet.inquiry path).asked answer
  | _ => []

/-- What comes of a file when these are the answers. -/
noncomputable def outcome (fs : Files) (answer : String → Answer) (path : String) : Answer :=
  match fs.sheetOf path with
  | .error e => .error e
  | .ok none => .ok []
  | .ok (some sheet) => ((sheet.inquiry path).result answer).map fun x => x.2.sheet.exports

/-- What a file provides, with what the files provide for which it asks. -/
inductive Provides (fs : Files) : String → Answer → Prop
  | intro {path : String} {o : Answer} (answer : String → Answer)
      (comes : fs.outcome answer path = o)
      (inner : ∀ q ∈ fs.asked answer path, fs.Provides q (answer q)) : fs.Provides path o

/-- A file asks for another one. -/
def Asks (fs : Files) (path q : String) : Prop :=
  ∃ answer, (∀ r ∈ fs.asked answer path, fs.Provides r (answer r)) ∧ q ∈ fs.asked answer path

/-- With the same answers to what is asked the same comes of a file. -/
theorem outcome_congr
    (same : ∀ q ∈ fs.asked answer path, q ∈ fs.asked answer' path → answer' q = answer q) :
    fs.outcome answer' path = fs.outcome answer path ∧
      fs.asked answer' path = fs.asked answer path := by
  unfold asked at same ⊢
  unfold outcome
  cases read : fs.sheetOf path with
  | error e => exact ⟨rfl, rfl⟩
  | ok sheet =>
    cases sheet with
    | none => exact ⟨rfl, rfl⟩
    | some sheet =>
      rw [read] at same
      obtain ⟨results, questions⟩ := Inquiry.congr same
      exact ⟨congrArg (Except.map fun x => x.2.sheet.exports) results, questions⟩

/-- A file provides one thing at most. -/
theorem Provides.unique (h : fs.Provides path o) (h' : fs.Provides path o') : o = o' := by
  induction h generalizing o' with
  | intro answer comes inner ih =>
    obtain ⟨answer', comes', inner'⟩ := h'
    have same := outcome_congr fun q hq hq' => (ih q hq (inner' q hq')).symm
    rw [← comes, ← comes', same.1]

/-- What is asked for does not depend on what is taken for the answers elsewhere. -/
theorem asks_iff (inner : ∀ r ∈ fs.asked answer path, fs.Provides r (answer r)) :
    fs.Asks path q ↔ q ∈ fs.asked answer path := by
  constructor
  · rintro ⟨answer', inner', mem⟩
    have same := outcome_congr fun r hr hr' => (inner r hr').unique (inner' r hr)
    rwa [same.2]
  · exact fun mem => ⟨answer, inner, mem⟩

/-- Only files are asked for that the file refers to. -/
theorem asked_subset_refs
    (free : ∀ q ∈ fs.asked answer path, ∀ es, answer q = .ok es → Inquiry.Free es) :
    fs.asked answer path ⊆ fs.refs path ∧
      ∀ es, fs.outcome answer path = .ok es → Inquiry.Free es := by
  unfold asked at free ⊢
  unfold outcome refs
  cases read : fs.sheetOf path with
  | error e => exact ⟨List.nil_subset _, by rintro es ⟨⟩⟩
  | ok sheet =>
    cases sheet with
    | none =>
      refine ⟨List.nil_subset _, ?_⟩
      rintro es ⟨⟩ e mem
      cases mem
    | some sheet =>
      rw [read] at free
      obtain ⟨questions, results⟩ := (sheet.inquiry_all path).of_free free
      refine ⟨questions, fun es h => ?_⟩
      cases result : (sheet.inquiry path).result answer with
      | error e =>
        simp only [result, Except.map] at h
        cases h
      | ok x =>
        simp only [result, Except.map] at h
        cases h
        exact results x result

/-- What a file provides are blocks without uses. -/
theorem Provides.free (h : fs.Provides path o) : ∀ es, o = .ok es → Inquiry.Free es := by
  induction h with
  | intro answer comes _ ih =>
    rw [← comes]
    exact (asked_subset_refs ih).2

theorem Asks.mem_refs (h : fs.Asks path q) : q ∈ fs.refs path := by
  obtain ⟨answer, inner, mem⟩ := h
  exact (asked_subset_refs fun r hr => (inner r hr).free).1 mem

/-- Files are referred to by their absolute paths. -/
theorem absolute_of_mem_refs (h : q ∈ fs.refs path) : Path.absolute none q = q := by
  unfold refs at h
  split at h
  case h_1 => exact absolute_of_mem_sources h
  case h_2 => exact absurd h List.not_mem_nil

/-! ## Files that do not refer to each other in a circle -/

/-- Files do not refer to each other in a circle. -/
def Acyclic (fs : Files) : Prop :=
  ∀ path, ¬ TransGen (fun p q => q ∈ fs.refs p) path path

/-- A file that refers to others is there. -/
theorem mem_keys_of_refs (h : q ∈ fs.refs path) : path ∈ fs.contents.map Prod.fst := by
  by_contra absent
  have none : fs.contents.lookup path = none := by
    rw [List.lookup_eq_none_iff]
    intro entry mem
    exact bne_iff_ne.2 fun same => absent (List.mem_map.2 ⟨entry, mem, same.symm⟩)
  unfold refs sheetOf at h
  split at h
  case h_2 => exact List.not_mem_nil h
  case h_1 sheet read =>
    split at read
    case h_1 => cases read
    case h_2 => cases read
    case h_3 text there =>
      rw [lookup_of_text there] at none
      cases none

/-- There are only finitely many files, so references come to an end. -/
theorem Acyclic.acc (acyclic : fs.Acyclic) (path : String) :
    Acc (fun q p => q ∈ fs.refs p) path := by
  let keys := fs.contents.map Prod.fst
  let below (a b : {k // k ∈ keys}) : Prop := TransGen (fun p q => q ∈ fs.refs p) b.1 a.1
  have finite : Finite {k // k ∈ keys} := keys.finite_toSet.to_subtype
  have trans : IsTrans _ below := ⟨fun _ _ _ h h' => h'.trans h⟩
  have irrefl : Std.Irrefl below := ⟨fun a => acyclic a.1⟩
  have ends : WellFounded below := Finite.wellFounded_of_trans_of_irrefl below
  have outside : ∀ q, q ∉ keys → Acc (fun q p => q ∈ fs.refs p) q := fun q absent =>
    ⟨q, fun r hr => absurd (mem_keys_of_refs hr) absent⟩
  have inside : ∀ a : {k // k ∈ keys}, Acc (fun q p => q ∈ fs.refs p) a.1 := by
    intro a
    induction a using ends.induction with
    | _ a ih =>
      refine ⟨a.1, fun q hq => ?_⟩
      by_cases there : q ∈ keys
      · exact ih ⟨q, there⟩ (.single hq)
      · exact outside q there
  by_cases there : path ∈ keys
  · exact inside ⟨path, there⟩
  · exact outside path there

/-- Then each file provides something. -/
theorem exists_provides (acyclic : fs.Acyclic) (path : String) : ∃ o, fs.Provides path o := by
  induction acyclic.acc path with
  | intro path _ ih =>
    have some : Nonempty Answer := ⟨.ok []⟩
    choose! given provides using ih
    let answer (q : String) : Answer := if q ∈ fs.refs path then given q else .ok []
    have answer_eq : ∀ q ∈ fs.refs path, answer q = given q := fun q hq => if_pos hq
    have free : ∀ q ∈ fs.asked answer path, ∀ es, answer q = .ok es → Inquiry.Free es := by
      intro q _ es h
      by_cases hq : q ∈ fs.refs path
      · rw [answer_eq q hq] at h
        exact (provides q hq).free es h
      · have none : answer q = .ok [] := if_neg hq
        rw [none] at h
        cases h
        exact fun e mem => absurd mem List.not_mem_nil
    refine ⟨_, .intro answer rfl fun q hq => ?_⟩
    have ref : q ∈ fs.refs path := (asked_subset_refs free).1 hq
    rw [answer_eq q ref]
    exact provides q ref

/-! ## What decides what a file provides -/

/-- What is asked for on the way through a file is read of the file. -/
theorem asked_congr (here : fs'.sheetOf path = fs.sheetOf path) (answer : String → Answer) :
    fs'.asked answer path = fs.asked answer path := by
  unfold Files.asked
  rw [here]

/-- What a file provides is read of the file and of those it leads to. -/
theorem Provides.congr (h : fs.Provides path o)
    (same : ∀ r, ReflTransGen fs.Asks path r → fs'.sheetOf r = fs.sheetOf r) :
    fs'.Provides path o := by
  induction h with
  | intro answer comes inner ih =>
    rename_i path o
    have here : fs'.sheetOf path = fs.sheetOf path := same path .refl
    have asked := asked_congr here answer
    refine .intro answer ?_ fun q hq => ?_
    · rw [← comes]
      unfold outcome
      rw [here]
    · rw [asked] at hq
      exact ih q hq fun r hr => same r (.head ⟨answer, inner, hq⟩ hr)

/-- So is what is asked for on the way. -/
theorem Provides.asks_congr (h : fs.Provides path o)
    (same : ∀ r, ReflTransGen fs.Asks path r → fs'.sheetOf r = fs.sheetOf r) :
    fs'.Asks path q ↔ fs.Asks path q := by
  obtain ⟨answer, -, inner⟩ := h
  have asked := asked_congr (same path .refl) answer
  rw [asks_iff inner, asks_iff, asked]
  intro r hr
  rw [asked] at hr
  exact (inner r hr).congr fun t ht => same t (.head ⟨answer, inner, hr⟩ ht)

/-- What a file asks for provides something too. -/
theorem Asks.exists_provides (asks : fs.Asks path q) : ∃ o, fs.Provides q o := by
  obtain ⟨answer, inner, mem⟩ := asks
  exact ⟨answer q, inner q mem⟩

theorem Provides.exists_of_leads (h : fs.Provides path o) (leads : ReflTransGen fs.Asks path q) :
    ∃ o', fs.Provides q o' := by
  rcases leads.cases_tail with rfl | ⟨_, _, asks⟩
  · exact ⟨o, h⟩
  · exact asks.exists_provides

/-- The same files are led to. -/
theorem Provides.leads_congr (h : fs.Provides path o)
    (same : ∀ r, ReflTransGen fs.Asks path r → fs'.sheetOf r = fs.sheetOf r)
    (leads : ReflTransGen fs'.Asks path q) : ReflTransGen fs.Asks path q := by
  induction leads with
  | refl => exact .refl
  | tail _ asks ih =>
    obtain ⟨o', there⟩ := h.exists_of_leads ih
    exact ih.tail ((there.asks_congr fun r hr => same r (ih.trans hr)).1 asks)

/-- A file that provides something does not ask for itself on the way. -/
theorem Provides.not_asks_self (h : fs.Provides path o) : ¬ TransGen fs.Asks path path := by
  induction h with
  | intro answer _ inner ih =>
    intro circle
    obtain ⟨q, asks, back⟩ := TransGen.head'_iff.1 circle
    exact ih q ((asks_iff inner).1 asks) (.tail' back asks)

end Files

end NestedStyles
