import NestedStyles.Proofs.Reuse.Chronicle
import NestedStyles.Proofs.Reuse.Loads

/-!
# What a load leaves of a session

A load may fail in the middle of files that need each other, and the session it started from may be
any. What is left of that session is the same whether the load fails or not (`Files.Leaves`): files
that were known keep their blocks, nothing is recorded for a file that does not become known, and no
file is reported to need itself that was not begun (`Files.Explained`).

A file that was known may still have uses in its blocks. A file that uses these blocks works on them
in their place, so they lose their uses even when the load of that file fails. Only blocks without
uses are sure to stay as they are.
-/

namespace NestedStyles

open Reuse

section

variable {s : Session} {f path : String}

theorem exports?_modifyExports_self (same : Path.absolute none f = Path.absolute none path)
    (g : List ExportBlock → List ExportBlock) :
    (s.modifyExports path g).exports? f = (s.exports? f).map g := by
  rw [Session.exports?, Session.modifyExports, same, Table.lookup_modify_self, ← same,
    ← Session.exports?]

theorem exports?_modifyExports_of_ne (other : Path.absolute none f ≠ Path.absolute none path)
    (g : List ExportBlock → List ExportBlock) :
    (s.modifyExports path g).exports? f = s.exports? f :=
  Table.lookup_modify_of_ne other g s.library

theorem names_changeAt (i : Nat) (g : Body → Body) (es : List ExportBlock) :
    (changeAt i g es).map ExportBlock.name = es.map ExportBlock.name := by
  refine List.ext_getElem? fun j => ?_
  rw [changeAt, List.getElem?_map, List.getElem?_map, List.getElem?_modify]
  cases es[j]? with
  | none => rfl
  | some e => by_cases here : i = j <;> simp [here, ExportBlock.modifyBody]

/-- Where a member stands in two lists one behind the other. -/
theorem eq_append_cons_of_append_eq {α : Type} {l m before after : List α} {x : α}
    (split : l ++ m = before ++ x :: after) :
    (∃ rest, l = before ++ x :: rest) ∨
      ∃ between, before = l ++ between ∧ m = between ++ x :: after := by
  obtain ⟨between, rfl, rest⟩ | ⟨between, rfl, rest⟩ := List.append_eq_append_iff.1 split
  · exact .inr ⟨between, rfl, rest⟩
  · cases between with
    | nil => exact .inr ⟨[], by simp, rest.symm⟩
    | cons y between =>
      obtain ⟨rfl, -⟩ := List.cons.inj rest
      exact .inl ⟨between, rfl⟩

end

namespace Files

variable {fs : Files} {s t u : Session} {active : List String} {path f : String}

/-! ## What a load leaves of a session -/

/-- Each circular import that is reported is of a file that was begun before among the same events,
or that is one of these. -/
def Explained (active : List String) (events : List Event) : Prop :=
  ∀ before file x after, events = before ++ .fault file (.circularImport x) :: after →
    .loading x ∈ before ∨ x ∈ active

namespace Explained

variable {events more : List Event}

theorem of_other (other : ∀ file x, .fault file (.circularImport x) ∉ events) :
    Explained active events := by
  intro before file x after split
  exact absurd (mem_of_split split) (other file x)

theorem nil : Explained active [] :=
  of_other fun _ _ => List.not_mem_nil

theorem circular (mem : path ∈ active) :
    Explained active [.fault path (.circularImport path)] := by
  intro before file x after split
  have reported : Event.fault file (.circularImport x) ∈ [.fault path (.circularImport path)] :=
    mem_of_split split
  cases List.mem_singleton.1 reported
  exact .inr mem

/-- A file that was begun among the first events need not be told of in those behind them. -/
theorem behind (begun : .loading path ∈ events)
    (other : ∀ file x, .fault file (.circularImport x) ∉ events)
    (h : Explained (path :: active) more) : Explained active (events ++ more) := by
  intro before file x after split
  obtain ⟨rest, rfl⟩ | ⟨between, rfl, later⟩ := eq_append_cons_of_append_eq split
  · exact absurd (mem_of_split rfl) (other file x)
  · rcases h between file x after later with mem | mem
    · exact .inl (List.mem_append_right events mem)
    · rcases List.mem_cons.1 mem with rfl | mem
      · exact .inl (List.mem_append_left between begun)
      · exact .inr mem

theorem append (h : Explained active events) (h' : Explained active more) :
    Explained active (events ++ more) := by
  intro before file x after split
  obtain ⟨rest, rfl⟩ | ⟨between, rfl, later⟩ := eq_append_cons_of_append_eq split
  · exact h before file x rest rfl
  · exact (h' between file x after later).imp_left (List.mem_append_right events)

end Explained

/-- The file is known and its blocks have no uses. -/
def KnownFree (s : Session) (f : String) : Prop :=
  ∃ es, s.exports? f = some es ∧ Inquiry.Free es

/-- What loading does to a session, however it ends, while these files are being loaded. -/
structure Leaves (active : List String) (s t : Session) : Prop where
  /-- Files that are known keep their blocks, and these their content unless they have uses. -/
  known : ∀ {f es}, s.exports? f = some es → ∃ es', t.exports? f = some es' ∧
    es'.map ExportBlock.name = es.map ExportBlock.name ∧ (Inquiry.Free es → es' = es)
  /-- Files are recorded when they become known. -/
  recorded : ∀ f, t.dependencies.lookup f = s.dependencies.lookup f ∨
    s.exports? f = none ∧ t.exports? f ≠ none
  /-- Files that are being loaded do not become known. -/
  unknown : ∀ a ∈ active, s.exports? a = none → t.exports? a = none
  explained : ∃ events, t.journal = s.journal ++ events ∧ Explained active events

namespace Leaves

theorem log {events : List Event} (s : Session) (explained : Explained active events) :
    Leaves active s (s.log events) where
  known before := ⟨_, before, rfl, fun _ => rfl⟩
  recorded _ := .inl rfl
  unknown _ _ before := before
  explained := ⟨events, rfl, explained⟩

theorem refl (s : Session) : Leaves active s s where
  known before := ⟨_, before, rfl, fun _ => rfl⟩
  recorded _ := .inl rfl
  unknown _ _ before := before
  explained := ⟨[], (List.append_nil _).symm, .nil⟩

/-- What is unknown afterwards was unknown before. -/
theorem unknown_before (h : Leaves active s t) (later : t.exports? f = none) :
    s.exports? f = none := by
  cases before : s.exports? f with
  | none => rfl
  | some es =>
    obtain ⟨es', after, -⟩ := h.known before
    rw [later] at after
    cases after

theorem trans (h : Leaves active s t) (h' : Leaves active t u) : Leaves active s u where
  known before := by
    obtain ⟨es', between, names, same⟩ := h.known before
    obtain ⟨es'', after, names', same'⟩ := h'.known between
    refine ⟨es'', after, names'.trans names, fun free => ?_⟩
    obtain rfl := same free
    exact same' free
  recorded f := by
    obtain same' | ⟨unknown, known⟩ := h'.recorded f
    · obtain same | ⟨unknown, known⟩ := h.recorded f
      · exact .inl (same'.trans same)
      · exact .inr ⟨unknown, fun later => known (h'.unknown_before later)⟩
    · exact .inr ⟨h.unknown_before unknown, known⟩
  unknown a mem before := h'.unknown a mem (h.unknown a mem before)
  explained := by
    obtain ⟨events, journal, explained⟩ := h.explained
    obtain ⟨more, journal', explained'⟩ := h'.explained
    exact ⟨events ++ more, by rw [journal', journal, List.append_assoc],
      explained.append explained'⟩

/-- For what was known before, or is unknown afterwards, nothing was recorded. -/
theorem not_recorded (h : Leaves active s t) (f : String)
    (still : s.exports? f = none → t.exports? f = none) :
    t.dependencies.lookup f = s.dependencies.lookup f :=
  (h.recorded f).resolve_right fun ⟨unknown, known⟩ => known (still unknown)

/-- A block of a file changes, but none of a file that had no uses from the start. -/
theorem change (h : Leaves active s t) {i : Nat} {g : Body → Body}
    (fixed : KnownFree s path → changeAt i g (t.exports path) = t.exports path) :
    Leaves active s (t.modifyExports path (changeAt i g)) where
  known {f es} before := by
    obtain ⟨es', between, names, same⟩ := h.known before
    by_cases here : Path.absolute none f = Path.absolute none path
    · have now : t.exports path = es' := by
        rw [Session.exports, Session.exports?, ← here, ← Session.exports?, between]
        rfl
      refine ⟨changeAt i g es', ?_, (names_changeAt i g es').trans names, fun free => ?_⟩
      · rw [exports?_modifyExports_self here, between]
        rfl
      · rw [Session.exports?, here] at before
        rw [now] at fixed
        exact (fixed ⟨es, before, free⟩).trans (same free)
    · exact ⟨es', (exports?_modifyExports_of_ne here _).trans between, names, same⟩
  recorded f := by
    obtain same | ⟨unknown, known⟩ := h.recorded f
    · exact .inl same
    · refine .inr ⟨unknown, ?_⟩
      by_cases here : Path.absolute none f = Path.absolute none path
      · rwa [exports?_modifyExports_self here, Ne, Option.map_eq_none_iff]
      · rwa [exports?_modifyExports_of_ne here]
  unknown a mem before := by
    by_cases here : Path.absolute none a = Path.absolute none path
    · rw [exports?_modifyExports_self here, h.unknown a mem before]
      rfl
    · exact (exports?_modifyExports_of_ne here _).trans (h.unknown a mem before)
  explained := h.explained

/-- Exports of a file that is not known are kept. -/
theorem store (canonical : Path.absolute none path = path) (fresh : s.exports? path = none)
    (new : ∀ a ∈ active, Path.absolute none a ≠ path) (es : List ExportBlock) :
    Leaves active s (s.store path es) where
  known {f es'} before := by
    have other : Path.absolute none f ≠ path := by
      rintro rfl
      rw [Session.exports?_absolute, before] at fresh
      cases fresh
    exact ⟨es', (Session.exports?_store_of_ne s es canonical other).trans before, rfl, fun _ => rfl⟩
  recorded _ := .inl rfl
  unknown a mem before :=
    (Session.exports?_store_of_ne s es canonical (new a mem)).trans before
  explained := ⟨[], (List.append_nil _).symm, .nil⟩

/-- What a file asked for is recorded when its exports are kept. -/
theorem record (canonical : Path.absolute none path = path) (fresh : s.exports? path = none)
    (new : ∀ a ∈ active, Path.absolute none a ≠ path) (asked : List String)
    (es : List ExportBlock) : Leaves active s ((s.record path asked).store path es) where
  known := (store canonical (s := s.record path asked) fresh new es).known
  recorded f := by
    by_cases same : f = path
    · subst same
      refine .inr ⟨fresh, ?_⟩
      rw [Session.exports?_store_self]
      exact Option.some_ne_none es
    · exact .inl (lookup_record_of_ne canonical same asked)
  unknown := (store canonical (s := s.record path asked) fresh new es).unknown
  explained := ⟨[], (List.append_nil _).symm, .nil⟩

/-- Once it was written down that a file is begun, circular imports of it are explained. -/
theorem enter {opening : List Event} (begun : .loading path ∈ opening)
    (other : ∀ file x, .fault file (.circularImport x) ∉ opening)
    (h : Leaves (path :: active) (s.log opening) t) : Leaves active s t where
  known := h.known
  recorded := h.recorded
  unknown a mem := h.unknown a (List.mem_cons_of_mem path mem)
  explained := by
    obtain ⟨more, journal, explained⟩ := h.explained
    refine ⟨opening ++ more, ?_, explained.behind begun other⟩
    rw [journal, Session.log, List.append_assoc]

end Leaves

/-- A pass over a file leaves of a session what its loader leaves of it. -/
theorem leaves_upheld {load : String → SessionM Unit}
    (inner : ∀ given t, Leaves active t (load given t).2) (s : Session) :
    Upheld ⟨path, load⟩ (KnownFree s) (Leaves active s) where
  report h f other := h.trans <| .log _ <| .of_other fun file x mem => by
    cases List.mem_singleton.1 mem
    exact other x rfl
  inlined h name := h.trans <| .log _ <| .of_other fun file x mem => by
    cases List.mem_singleton.1 mem
  changed h _ _ _ fixed := h.change fixed
  free h f kept := by
    obtain ⟨es, known, free⟩ := kept
    obtain ⟨es', later, -, same⟩ := h.known known
    rw [Session.exports, later, same free]
    exact free
  load h given := h.trans (inner given _)

theorem prepare_leaves (fs : Files) (path : String) {load : String → SessionM Unit}
    (inner : ∀ given t, Leaves active t (load given t).2) (styles : String) (s : Session) :
    Leaves active (s.log (fs.opening path styles))
      (prepare ⟨path, load⟩ ((fs.startReading path styles s).allUses.length + 1)
        (fs.startReading path styles s)).2.session :=
  (leaves_upheld inner _).prepare_upholds _ _ (.refl _)

/-- Whatever is loaded and however it ends, this is what it leaves of the session. -/
theorem loadInside_leaves (fs : Files) (depth : Nat) (active : List String)
    (canonical : ∀ a ∈ active, Path.absolute none a = a) (given : String) (s : Session) :
    Leaves active s (fs.loadInside depth active given s).2 := by
  induction depth generalizing active given s with
  | zero => exact .refl s
  | succ depth ih =>
    obtain ⟨path, absolute⟩ : ∃ path, Path.absolute none given = path := ⟨_, rfl⟩
    have here : Path.absolute none path = path := by
      rw [← absolute, Path.absolute_absolute]
    have apart (new : path ∉ active) : ∀ a ∈ active, Path.absolute none a ≠ path := by
      rintro a mem rfl
      rw [canonical a mem] at new
      exact new mem
    have way := fs.goes depth active given s absolute
    generalize fs.loadInside (depth + 1) active given s = ran at way ⊢
    cases way with
    | known known => exact .log s (.of_other (by simp))
    | circular unknown mem => exact .log s (.circular mem)
    | missing unknown new content => exact .log s (.of_other (by simp))
    | undecodable => exact .refl s
    | blank unknown new content =>
      exact .store here (Option.not_isSome_iff_eq_none.1 unknown) (apart new) []
    | @read text unknown new content some =>
      have canonical' : ∀ a ∈ path :: active, Path.absolute none a = a :=
        List.forall_mem_cons.2 ⟨here, canonical⟩
      have fresh := Option.not_isSome_iff_eq_none.1 unknown
      have passed := fs.prepare_leaves path (ih _ canonical') (fs.stylesIn text) s
      rw [readExports_eq]
      dsimp only
      split
      case h_1 p ran =>
        rw [ran] at passed
        have later : p.session.exports? path = none := passed.unknown path List.mem_cons_self fresh
        exact (passed.enter List.mem_cons_self (fs.not_circular_opening path _)).trans
          (.record here later (apart new) p.dependencies p.sheet.exports)
      case h_2 e p ran =>
        rw [ran] at passed
        exact passed.enter List.mem_cons_self (fs.not_circular_opening path _)

end Files

end NestedStyles
