import NestedStyles.Compile
import NestedStyles.Proofs.Match.Safety
import NestedStyles.Proofs.Reuse.Sharing
import NestedStyles.Proofs.Reuse.Totality
import NestedStyles.Proofs.Selector.Breaks

/-!
# When a compilation gives a result

From files that are texts and a template made from markup, styles are parsed, resolved and matched
whatever is wrong with them: all that is reported. What ends a compilation is the selector of a rule
that is applied and breaks off, and it breaks off only where its text is unfinished
(`Component.compile_ends`). Before that only a path that no file can have is in the way. Integers
with more than `Css.maxDigits` digits in the selectors that are applied are left out.
-/

namespace NestedStyles

open Reuse Css

namespace Component

/-- The rules of a resolved file that are matched against the template. -/
def toMatch (sheet : Stylesheet) : List StyleRule :=
  (Output.extract Output.isPseudoElement (Output.extract Output.isSlotted sheet.rules).kept).kept

/-- The rule is applied to the template when the compilation gets that far. -/
def Applies (cfg : Config) (c : Component) (sheet : Stylesheet) : StyleRule → Prop :=
  Meets c.template.forest cfg ⟨c.template.roots, none⟩ (toMatch sheet)

variable {cfg : Config} {c : Component} {r : Resolution}

/-- After resolution only a selector that breaks off is in the way of a result. -/
theorem finish_ends (cfg : Config) (wf : c.template.WellFormed) (earlier : List Diagnostic) :
    ((∃ compiled, c.finish cfg r earlier = .ok compiled) ∧
        ∀ rule, c.Applies cfg r.sheet rule → rule.Compiles) ∨
      ∃ rule missing, c.Applies cfg r.sheet rule ∧ rule.BreaksOff missing ∧
        c.finish cfg r earlier = .error (.cutOff missing) := by
  obtain ⟨⟨m, matched⟩, compile⟩ | ⟨rule, missing, meets, breaks, matched⟩ :=
    Matching.ofRules_ends cfg wf (toMatch r.sheet)
  · refine .inl ⟨?_, compile⟩
    unfold toMatch at matched
    simp only [finish, matched]
    exact ⟨_, rfl⟩
  · refine .inr ⟨rule, missing, meets, breaks, ?_⟩
    unfold toMatch at matched
    simp only [finish, matched]
    rfl

/-- The styles of a component are resolved with files that are texts, or a path is asked for that no
file can have. -/
theorem resolve_ends {fs : Files} (texts : fs.AreTexts) (cfg : Config) (c : Component)
    (s : Session) :
    (∃ e later, Path.hasNull e.path ∧ c.compile cfg fs.load s = (.error (.undecodable e), later)) ∨
      ∃ r later, (c.parse cfg).value.resolve ⟨c.file, fs.load⟩ true (c.opening cfg s) =
        (.ok r, later) := by
  rcases resolved : (c.parse cfg).value.resolve ⟨c.file, fs.load⟩ true (c.opening cfg s) with
    ⟨e | r, later⟩
  · have fails : fs.Fails e :=
      Stylesheet.resolve_failsOnly (c := ⟨c.file, fs.load⟩) fs.load_failsOnly true _ _ _ _ resolved
    exact .inl ⟨e, later, fails.hasNull texts, compile_of_error resolved⟩
  · exact .inr ⟨r, later, rfl⟩

/-- A compilation from files that are texts, for a template made from markup, gives a result exactly
when all rules that are applied to the template have a selector that compiles. Otherwise the selector
of one of them breaks off, or before that a path is asked for that no file can have, to which the
component leads then. A selector breaks off exactly when one of its branches breaks off, which then
is unfinished; all other selectors have the branches that can be read, and error texts for the
others. An argument `an+b` breaks off exactly if it is not complete but the beginning of one that is;
one that is rejected admits every position. All this is told of selectors and arguments without
overlong integers. -/
theorem compile_ends {fs : Files} (texts : fs.AreTexts)
    (built : ∃ markup, c.template = .ofElements markup) (cfg : Config) (s : Session) :
    ((∃ e later, Path.hasNull e.path ∧ c.compile cfg fs.load s = (.error (.undecodable e), later)) ∨
      ∃ r later, (c.parse cfg).value.resolve ⟨c.file, fs.load⟩ true (c.opening cfg s) =
          (.ok r, later) ∧
        ((∀ rule, c.Applies cfg r.sheet rule → ¬ anyOverlong (tokenize rule.selector.toList)) →
          ((∃ compiled, c.compile cfg fs.load s = (.ok compiled, later)) ∧
              ∀ rule, c.Applies cfg r.sheet rule → rule.Compiles) ∨
            ∃ rule missing, c.Applies cfg r.sheet rule ∧ rule.BreaksOff missing ∧
              c.compile cfg fs.load s = (.error (.unmatched (.cutOff missing)), later))) ∧
    (s.Orderly fs.contents → (∀ q, c.LeadsTo cfg fs q → ¬ Path.hasNull q) →
      ∀ e, (c.compile cfg fs.load s).1 ≠ .error (.undecodable e)) ∧
    (∀ text, ¬ anyOverlong (tokenize text.toList) →
      (∃ ts ∈ Selector.splitBranches (tokenize text.toList), ∃ missing,
        Branch.BreaksOff ts missing ∧ Unfinished ts ∧ Selector.compile text = .error missing) ∨
      ((∀ ts ∈ Selector.splitBranches (tokenize text.toList), ∀ missing,
          ¬ Branch.BreaksOff ts missing) ∧
        ∃ selector, Selector.compile text = .ok selector ∧
          Selector.Gathers (Selector.splitBranches (tokenize text.toList)) selector)) ∧
    ∀ argument, ¬ isOverlongArgument argument →
      ((∃ missing, readNth argument = .error missing) ↔
        (∀ ab, readNth argument ≠ .ok (some ab)) ∧ significant argument ≠ [] ∧
          ∃ more ab, ¬ isOverlongArgument (argument ++ more) ∧
            readNth (argument ++ more) = .ok (some ab)) ∧
      (readNth argument = .ok none → ∀ scene i p text,
        (Simple.nth p text none).holds scene i = .ok true) := by
  refine ⟨?_, fun orderly plain => ?_, fun text _ => ?_, fun argument short => ⟨?_, ?_⟩⟩
  · have wf : c.template.WellFormed := by
      obtain ⟨markup, built⟩ := built
      rw [built]
      exact Template.wellFormed_ofTrees _
    refine (resolve_ends texts cfg c s).imp_right ?_
    rintro ⟨r, later, resolved⟩
    refine ⟨r, later, resolved, fun _ => ?_⟩
    rw [compile_of_ok resolved]
    obtain ⟨⟨compiled, finished⟩, compile⟩ | ⟨rule, missing, applies, breaks, finished⟩ :=
      finish_ends (r := r) cfg wf (diagnostics (later.journal.drop s.journal.length))
    · exact .inl ⟨⟨compiled, by rw [finished]; rfl⟩, compile⟩
    · exact .inr ⟨rule, missing, applies, breaks, by rw [finished]; rfl⟩
  · obtain ⟨r, later, resolved⟩ := resolve_returns texts plain orderly
    exact compile_ne_undecodable resolved
  · obtain ⟨ts, mem, missing, breaks, compiled⟩ | ends :=
      Selector.ofBranches_ends (Selector.splitBranches (tokenize text.toList))
    · exact .inl ⟨ts, mem, missing, breaks, breaks.unfinished, compiled⟩
    · exact .inr ends
  · refine ⟨fun ⟨missing, breaks⟩ => ?_, fun ⟨incomplete, solid, more, ab, _, complete⟩ => ?_⟩
    · obtain ⟨incomplete, solid, -⟩ := readNth_eq_error_iff.1 ⟨missing, breaks⟩
      exact ⟨incomplete, solid, exists_short_completing breaks short⟩
    · exact readNth_eq_error_iff.2 ⟨incomplete, solid, more, ab, complete⟩
  · exact fun _ _ _ _ _ => rfl

/-- A paragraph under a rule whose argument ends behind a sign. -/
def halfArgument : Component :=
  ⟨"/f", ["p:nth-child(2n+) \x7b\nx\n\x7d"], .ofElements [.element "p" [] []], false⟩

/-- No files. -/
def noFiles : Files :=
  ⟨[], .standard, some⟩

/-- The rule for the paragraph. -/
def halfRule : StyleRule :=
  ⟨"p:nth-child(2n+)", ["x"], [], [], []⟩

theorem breaksOff_halfRule : halfRule.BreaksOff .afterSign := by
  have outcome : (Selector.compile "p:nth-child(2n+)").map (fun _ => ()) = .error .afterSign := by
    decide +kernel
  refine ⟨by decide +kernel, ?_⟩
  cases compiled : Selector.compile "p:nth-child(2n+)" with
  | ok selector =>
    rw [compiled] at outcome
    cases outcome
  | error missing =>
    rw [compiled] at outcome
    cases outcome
    exact compiled

/-- Nothing comes of the build: the rule is applied, and its selector breaks off behind the sign. -/
theorem compile_ends_halfArgument : noFiles.AreTexts ∧
    (∃ markup, halfArgument.template = .ofElements markup) ∧
    ¬ anyOverlong (tokenize halfRule.selector.toList) ∧ ∃ later,
      halfArgument.compile .standard noFiles.load Session.empty =
        (.error (.unmatched (.cutOff .afterSign)), later) := by
  have texts : noFiles.AreTexts := by simp [Files.AreTexts, noFiles]
  have built : ∃ markup, halfArgument.template = .ofElements markup := ⟨_, rfl⟩
  have short : ¬ anyOverlong (tokenize halfRule.selector.toList) := by decide +kernel
  have plain : ∀ q, halfArgument.LeadsTo .standard noFiles q → ¬ Path.hasNull q := by
    rintro q ⟨path, named, -⟩
    have none : (halfArgument.parse .standard).value.allSources "/f" = [] := by decide +kernel
    exact absurd (none ▸ named) List.not_mem_nil
  obtain ⟨first, second, -⟩ := compile_ends texts built .standard Session.empty
  obtain ⟨e, later, -, failed⟩ | ⟨r, later, resolved, ends⟩ := first
  · exact absurd (congrArg Prod.fst failed) (second .empty plain e)
  have rules : ((halfArgument.parse .standard).value.resolve ⟨"/f", noFiles.load⟩ true
      (halfArgument.opening .standard Session.empty)).1.toOption.map (fun r => toMatch r.sheet) =
      some [halfRule] := by
    decide +kernel
  have here : toMatch r.sheet = [halfRule] := by
    have first := congrArg (fun ran => ran.1.toOption.map fun r => toMatch r.sheet) resolved
    exact Option.some.inj (first.symm.trans rules)
  have applies : halfArgument.Applies .standard r.sheet halfRule := by
    refine .here ?_
    rw [here]
    exact List.mem_singleton_self _
  have only (rule : StyleRule) (applies : halfArgument.Applies .standard r.sheet rule) :
      rule = halfRule := by
    have mem := applies.mem_walkAll
    rw [here] at mem
    exact List.mem_singleton.1 mem
  refine ⟨texts, built, short, later, ?_⟩
  obtain ⟨-, compile⟩ | ⟨rule, missing, applies, breaks, ended⟩ :=
    ends fun rule applies => only rule applies ▸ short
  · exact absurd (compile _ applies) breaksOff_halfRule.not_compiles
  · obtain rfl := only rule applies
    have same := breaksOff_halfRule.2.symm.trans breaks.2
    cases same
    exact ended

end Component

end NestedStyles
