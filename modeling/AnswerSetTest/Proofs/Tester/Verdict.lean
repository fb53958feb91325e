import AnswerSetTest.Proofs.Tester.Events
import AnswerSetTest.Proofs.Tester.Models

/-!
# Verdicts

The verdict of a tester on models without atoms of `ensure` and `models`, in terms of the events
before the models and the models themselves. The order of the models does not matter.
-/

namespace AnswerSetTest

open Handler (Event)

namespace Tester

/-- The tester of a unit after events and models. -/
def judge (unit file : String) (options : TesterOptions) (es : List Event) (ms : List Model) :
    Tester :=
  ms.foldl (fun t m => ((onModel m).run t).2) (handler.handleAll (.new unit file options) es)

structure Passes (unit : String) (constraints : List String) (es : List Event) (ms : List Model) :
    Prop where
  clear : ms ≠ [] → ∀ s, Required es s → ¬ Ambiguous es s
  required : ∀ m ∈ ms, ∀ s, Required es s → s ∈ m.atoms
  allowed : ∀ m ∈ ms, ∀ s ∈ m.atoms, ¬ IsConstraint constraints s
  wanted : ∀ s, Wanted es s → ∃ m ∈ ms, s ∈ m.atoms
  counted : (∃ s, Required es s) → unit ≠ rootUnit → ms ≠ [] ∧ declared es = some ms.length

theorem Passes.perm {unit : String} {constraints : List String} {es : List Event}
    {ms ns : List Model} (h : Passes unit constraints es ms) (hp : ms.Perm ns) :
    Passes unit constraints es ns where
  clear hne := h.clear fun hnil => hne (List.nil_perm.1 (hnil ▸ hp))
  required m hm := h.required m (hp.mem_iff.2 hm)
  allowed m hm := h.allowed m (hp.mem_iff.2 hm)
  wanted s hs := by
    obtain ⟨m, hm, hsm⟩ := h.wanted s hs
    exact ⟨m, hp.mem_iff.1 hm, hsm⟩
  counted hs hu := by
    obtain ⟨hne, hd⟩ := h.counted hs hu
    refine ⟨fun hnil => hne ?_, hp.length_eq ▸ hd⟩
    exact List.perm_nil.1 (hnil ▸ hp)

section Report

variable {t : Tester}

theorem countFailure?_eq_none_iff :
    t.countFailure? = none ↔ t.seen ≠ 0 ∧ t.expected = some t.seen := by
  rw [countFailure?]
  by_cases hseen : t.seen = 0
  · simp [hseen]
  · rw [if_neg hseen]
    cases t.expected with
    | none => simp
    | some n => simp [hseen]

theorem report_of_failed (h : t.hasFailed) : ∃ f, t.report = .error f := by
  cases hp : t.phase with
  | failed f =>
    refine ⟨f, ?_⟩
    rw [report, hp]
    rfl
  | _ => simp [hasFailed, hp] at h

theorem report_of_not_failed (h : ¬ t.hasFailed) : t.report =
    if t.index.assertions = [] ∨ t.unit = rootUnit ∨ t.countFailure? = none then
      if t.pending = [] then
        .ok ⟨t.unit, t.file, t.index.assertions.map Symbol.display, t.index.assertions.length,
          t.seen⟩
      else .error (.missingAny t.seen t.pending)
    else .error (t.countFailure?.getD (.noModels t.unit t.file)) := by
  rw [report]
  cases hp : t.phase with
  | failed f => simp [hasFailed, hp] at h
  | _ =>
    by_cases ha : t.index.assertions = [] <;> by_cases hu : t.unit = rootUnit <;>
      by_cases hn : t.pending = [] <;> cases t.countFailure? <;> simp [ha, hu, hn] <;> rfl

theorem report_eq_ok_iff {r : Report} : t.report = .ok r ↔
    ¬ t.hasFailed ∧
      (t.index.assertions = [] ∨ t.unit = rootUnit ∨ t.seen ≠ 0 ∧ t.expected = some t.seen) ∧
      t.pending = [] ∧
      ⟨t.unit, t.file, t.index.assertions.map Symbol.display, t.index.assertions.length,
        t.seen⟩ = r := by
  rw [← countFailure?_eq_none_iff]
  by_cases hf : t.hasFailed
  · obtain ⟨f, hr⟩ := report_of_failed hf
    simp [hr, hf]
  · rw [report_of_not_failed hf]
    split
    · next hc =>
      split
      · next hp => simp [hf, hc, hp]
      · next hp => simp [hp]
    · next hc => simp [hc]

end Report

section Quiet

variable {t : Tester} {m : Model} {ms : List Model}

end Quiet

section Judge

variable {unit file : String} {options : TesterOptions} {es : List Event} {ms : List Model}

theorem passed_judge (hf : ¬ (judge unit file options es ms).hasFailed) :
    Passed (handler.handleAll (.new unit file options) es) ms (judge unit file options es ms) :=
  passed_of_not_failed hf

end Judge

end Tester

end AnswerSetTest
