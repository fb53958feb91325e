import Mathlib
import AnswerSetTest.Proofs.Tester.Verdict

/-!
# Ensured assertions

The assertions that a passing report lists if models may have `ensure` atoms. Such an atom adds an
assertion while the models are checked: it is checked in the model that adds it and in all later
ones, but neither in earlier models nor, if that model is the last one, for ambiguity.
-/

namespace AnswerSetTest

open Handler (Event)

def Model.Ensures (m : Model) (s : Symbol) : Prop := .function "ensure" [s] ∈ m.atoms

structure Report.Lists (r : Report) (ss : List Symbol) : Prop where
  ascending : ss.Pairwise (· < ·)
  assertions : r.assertions = ss.map Symbol.display
  assertionCount : r.assertionCount = ss.length

namespace Tester

section Prefix

variable {start t : Tester} {es : List Event} {before after : List Model} {m : Model} {s : Symbol}

theorem Tracks.not_ambiguous {x : AssertionIndex} (h : Tracks start es t)
    (hbodies : x.bodies = t.index.bodies) (houtputs : x.outputs = t.index.outputs)
    (hclear : x.ambiguous? = none) (hs : s ∈ x.assertions) : ¬ Ambiguous es s := by
  rintro ⟨a, ha, hab⟩
  refine AssertionIndex.ambiguous?_eq_none_iff.1 hclear a s ?_ hs ?_
  · rw [houtputs, h.outputs, ha]
  · rw [AssertionIndex.distinctBodies, hbodies]
    exact (h.one_lt_distinctBodies_iff a).2 hab

theorem mem_atoms_of_not_failed (hf : ¬ ((before ++ m :: after).foldl addModel t).hasFailed)
    (hs : s ∈ t.index.assertions ∨ ∃ n ∈ before ++ [m], n.Ensures s) : s ∈ m.atoms := by
  have hp := passed_of_not_failed (not_failed_of_append hf)
  rw [List.foldl_append] at hf
  obtain ⟨hassertions, hensured, -⟩ := failures_eq_nil_iff.1 (accepted_of_not_failed hf).2.1
  rcases hs with hs | ⟨n, hn, hs⟩
  · exact hassertions s ((hp.mem_assertions s).2 (.inl hs))
  rcases List.mem_append.1 hn with hn | hn
  · exact hassertions s ((hp.mem_assertions s).2 (.inr ⟨n, hn, mem_ensured.2 hs⟩))
  · obtain rfl := List.mem_singleton.1 hn
    exact hensured s (mem_ensured.2 hs)

theorem not_ambiguous_of_not_failed (h : Tracks start es t)
    (hf : ¬ ((before ++ m :: after).foldl addModel t).hasFailed)
    (hs : s ∈ t.index.assertions ∨ ∃ n ∈ before, n.Ensures s) : ¬ Ambiguous es s := by
  have hp := passed_of_not_failed (not_failed_of_append hf)
  obtain ⟨hbodies, houtputs⟩ := ground_foldl_addModel t before
  rw [List.foldl_append] at hf
  refine h.not_ambiguous hbodies houtputs (accepted_of_not_failed hf).1 ((hp.mem_assertions s).2 ?_)
  exact hs.imp_right fun ⟨n, hn, hs⟩ => ⟨n, hn, mem_ensured.2 hs⟩

end Prefix

section Judge

variable {unit file : String} {options : TesterOptions} {es : List Event} {ms : List Model}

/-- A passing report lists the assertions of calls and those of `ensure` atoms. -/
theorem exists_lists {r : Report} (h : (judge unit file options es ms).report = .ok r) :
    ∃ ss, r.Lists ss ∧ ∀ s, s ∈ ss ↔ Required es s ∨ ∃ m ∈ ms, m.Ensures s := by
  obtain ⟨hf, -, -, rfl⟩ := report_eq_ok_iff.1 h
  have ht := Tracks.handleAll unit file options es
  have hp := passed_judge hf
  refine ⟨_, ⟨hp.assertions_ascending ht.assertions_ascending, rfl, rfl⟩, fun s => ?_⟩
  rw [hp.mem_assertions, ht.mem_assertions]
  simp only [mem_ensured, Model.Ensures]

/-- Every listed assertion is in all models from the one on that added it. -/
theorem listed_mem_atoms (unit file : String) (options : TesterOptions) (es : List Event)
    (ms : List Model) {r : Report} (h : (judge unit file options es ms).report = .ok r) :
    ∃ ss, r.Lists ss ∧ (∀ s, s ∈ ss ↔ Required es s ∨ ∃ m ∈ ms, m.Ensures s) ∧
      ∀ before m after, ms = before ++ m :: after →
        ∀ s, (Required es s ∨ ∃ n ∈ before ++ [m], n.Ensures s) → s ∈ m.atoms := by
  obtain ⟨ss, hlists, hmem⟩ := exists_lists h
  obtain ⟨hf, -⟩ := report_eq_ok_iff.1 h
  have ht := Tracks.handleAll unit file options es
  refine ⟨ss, hlists, hmem, ?_⟩
  rintro before m after rfl s hs
  exact mem_atoms_of_not_failed hf (hs.imp_left (ht.mem_assertions s).2)

/-- A model that ensures `b`, and another one that has `b`. -/
theorem listed_mem_atoms_sample :
    let b : Symbol := .function "b" []
    let m : Model := ⟨1, [b, .function "ensure" [b]], []⟩
    let n : Model := ⟨2, [b], []⟩
    (judge "base" "t.lp" ⟨["none"], 80⟩ [] [m, n]).report = .ok ⟨"base", "t.lp", ["b"], 1, 2⟩ ∧
      b ∈ n.atoms := by
  intro b m n
  have h : (judge "base" "t.lp" ⟨["none"], 80⟩ [] [m, n]).report =
      .ok ⟨"base", "t.lp", ["b"], 1, 2⟩ := rfl
  obtain ⟨ss, -, -, hmem⟩ := listed_mem_atoms "base" "t.lp" ⟨["none"], 80⟩ [] [m, n] h
  exact ⟨h, hmem [m] n [] rfl b (.inr ⟨m, by simp, by simp [m, Model.Ensures]⟩)⟩

/-- The second of two models ensures `b`, which the first model does not have. -/
theorem lists_assertion_missing_before :
    let b : Symbol := .function "b" []
    let first : Model := ⟨1, [.function "a" []], [.function "a" []]⟩
    let second : Model := ⟨2, [b, .function "ensure" [b]], [b, .function "ensure" [b]]⟩
    ∃ r, (judge "base" "t.lp" ⟨["none", "cannot"], 80⟩ [] [first, second]).report = .ok r ∧
      r.Lists [b] ∧ b ∉ first.atoms := by
  intro b first second
  exact ⟨⟨"base", "t.lp", ["b"], 1, 2⟩, rfl, ⟨by simp, rfl, rfl⟩, by simp [first, b]⟩

/-- No listed assertion is ambiguous, except for those that only the last model ensures. -/
theorem listed_not_ambiguous (unit file : String) (options : TesterOptions) (es : List Event)
    (ms : List Model) (hne : ms ≠ []) {r : Report}
    (h : (judge unit file options es ms).report = .ok r) :
    ∃ ss, r.Lists ss ∧ (∀ s, s ∈ ss ↔ Required es s ∨ ∃ m ∈ ms, m.Ensures s) ∧
      ∀ s, (Required es s ∨ ∃ m ∈ ms.dropLast, m.Ensures s) → ¬ Ambiguous es s := by
  obtain ⟨ss, hlists, hmem⟩ := exists_lists h
  obtain ⟨hf, -⟩ := report_eq_ok_iff.1 h
  have ht := Tracks.handleAll unit file options es
  refine ⟨ss, hlists, hmem, fun s hs => ?_⟩
  rw [judge, ← List.dropLast_append_getLast hne] at hf
  exact not_ambiguous_of_not_failed ht hf (hs.imp_left (ht.mem_assertions s).2)

/-- An assertion of a call with two bodies that are the same set of literals. -/
theorem listed_not_ambiguous_sample :
    let es : List Event := [.call "all" [.number 1], .rule false [1] [2, 3], .rule false [1] [3, 2],
      .output (.function "assert" [.number 1]) 1]
    let m : Model := ⟨1, [.function "assert" [.number 1]], []⟩
    [m] ≠ [] ∧
      (judge "base" "t.lp" ⟨["none"], 80⟩ es [m]).report =
        .ok ⟨"base", "t.lp", ["assert(1)"], 1, 1⟩ ∧
      ¬ Ambiguous es (.function "assert" [.number 1]) := by
  intro es m
  have hne : [m] ≠ [] := by simp
  have h : (judge "base" "t.lp" ⟨["none"], 80⟩ es [m]).report =
      .ok ⟨"base", "t.lp", ["assert(1)"], 1, 1⟩ := by cbv
  obtain ⟨ss, -, -, hclear⟩ := listed_not_ambiguous "base" "t.lp" ⟨["none"], 80⟩ es [m] hne h
  exact ⟨hne, h, hclear _ (.inl ⟨_, .head _, .all rfl⟩)⟩

/-- The only model ensures `b`, which has two bodies. -/
theorem lists_ambiguous_assertion :
    let b : Symbol := .function "b" []
    let es : List Event := [.rule false [1] [2], .rule false [1] [3], .output b 1]
    let m : Model := ⟨1, [b, .function "ensure" [b]], [b, .function "ensure" [b]]⟩
    ∃ r, (judge "base" "t.lp" ⟨["none", "cannot"], 80⟩ es [m]).report = .ok r ∧
      r.Lists [b] ∧ Ambiguous es b := by
  intro b es m
  have h : (judge "base" "t.lp" ⟨["none", "cannot"], 80⟩ es [m]).report =
      .ok ⟨"base", "t.lp", ["b"], 1, 1⟩ := by cbv
  refine ⟨_, h, ⟨by simp, rfl, rfl⟩, 1, rfl, [2], [3], ?_, ?_, by simp⟩
  · exact ⟨_, .head _, .rule (by simp) (by simp)⟩
  · exact ⟨_, .tail _ (.head _), .rule (by simp) (by simp)⟩

end Judge

end Tester

end AnswerSetTest
