import AnswerSetTest.Proofs.Ground.Calls
import AnswerSetTest.Proofs.Ground.Repetition
import AnswerSetTest.Proofs.GroundProgram.RuleOrder
import AnswerSetTest.Proofs.Tester.Events

/-!
# Repeated rules

The instances of a copy of a rule give no ground rules but those that are there already, and of
these only the first is kept. So the ground program, and all that is reported of it, is the same
with the copy as without it.
-/

namespace AnswerSetTest

open Handler (Event)

namespace Tester

variable {calls es : List Event}

/-- Calls have no part in whether an assertion is ambiguous. -/
theorem ambiguous_append_of_calls (h : ∀ e ∈ calls, e.IsCall) (s : Symbol) :
    Ambiguous (calls ++ es) s ↔ Ambiguous es s := by
  have hreported : ∀ a, reported (calls ++ es) a = reported es a := by
    intro a
    have hnone : calls.filterMap (Event.symbol? a) = [] := by
      refine List.filterMap_eq_nil_iff.2 fun e he => ?_
      cases e with
      | call name args => rfl
      | rule choice head body => exact (h _ he).elim
      | output symbol b => exact (h _ he).elim
    rw [reported, reported, List.filterMap_append, hnone, List.nil_append]
  have hderived : ∀ a b, Derived (calls ++ es) a b ↔ Derived es a b := by
    intro a b
    constructor
    · rintro ⟨e, he, hderives⟩
      rcases List.mem_append.1 he with he | he
      · cases hderives
        exact (h _ he).elim
      · exact ⟨e, he, hderives⟩
    · rintro ⟨e, he, hderives⟩
      exact ⟨e, List.mem_append_right calls he, hderives⟩
  simp only [Ambiguous, hreported, hderived]

end Tester

namespace GroundProgram

theorem ofInstances_repeats {symbols : List Symbol} {is js : List Instance}
    (hp : symbols.Pairwise (· < ·)) (h : Repeats is js) (shown : Option (List Signature)) :
    ofInstances symbols js shown = ofInstances symbols is shown := by
  have hrules : ∀ is, (ofInstances symbols is shown).rules =
      (is.flatMap fun i => (GroundRule.ofInstance symbols (Numbering.ofSymbols symbols) i).filterMap
        (GroundRule.simplify? (ofInstances symbols is shown).isFact)).eraseDups := by
    intro is
    rw [← List.filterMap_flatMap, ← firstOccurrences_eq_eraseDups]
    rfl
  have hsame : Paired Instance.Alike {i | i ∈ js} {i | i ∈ is} :=
    ⟨fun i hi => ⟨i, (h.mem_iff i).1 hi, .refl i⟩, fun i hi => ⟨i, (h.mem_iff i).2 hi, .refl i⟩⟩
  have hfacts : (ofInstances symbols js shown).facts = (ofInstances symbols is shown).facts :=
    facts_eq hp hsame
  have hisFact : (ofInstances symbols js shown).isFact = (ofInstances symbols is shown).isFact := by
    funext a
    rw [isFact, isFact, hfacts]
  have heq := hrules js
  rw [hisFact, h.eraseDups_flatMap, ← hrules is] at heq
  calc ofInstances symbols js shown
      = ⟨symbols, (ofInstances symbols js shown).facts, (ofInstances symbols js shown).rules,
          shown⟩ := rfl
    _ = ⟨symbols, (ofInstances symbols is shown).facts, (ofInstances symbols is shown).rules,
          shown⟩ := by rw [hfacts, heq]
    _ = ofInstances symbols is shown := rfl

variable {σ : Type} {handler : Handler σ} {answer : String → List Symbol → Except String Symbol}
  {s : Selection} {r : Rule} {w w₁ : σ} {p : GroundProgram}

theorem ofSelection_of_ok {symbols : List Symbol} {instances : Array Instance} {t : Scratch σ}
    (h : Grounding.ofSelection handler s ⟨w, ∅⟩ = (.ok (symbols, instances), t)) :
    let p := ofInstances symbols instances.toList s.shown
    ofSelection handler s w = (.ok p, ((p.report handler).run t.world).2) := by
  have hrun : (Grounding.ofSelection handler s).run.run ⟨w, ∅⟩ = _ := h
  rw [ofSelection, hrun]

theorem ofSelection_eq_ok (h : ofSelection handler s w = (.ok p, w₁)) :
    ∃ symbols instances t,
      Grounding.ofSelection handler s ⟨w, ∅⟩ = (.ok (symbols, instances), t) ∧
      p = ofInstances symbols instances.toList s.shown ∧
      w₁ = ((p.report handler).run t.world).2 := by
  rw [ofSelection] at h
  split at h
  · cases h
  · next symbols instances t hrun =>
    cases h
    exact ⟨symbols, instances, t, hrun, rfl, rfl⟩

theorem ofSelection_recorded_of_ok (h : ofSelection handler s w = (.ok p, w₁)) :
    ∃ calls, (∀ e ∈ calls, e.IsCall) ∧
      ofSelection handler.recorded s (w, []) = (.ok p, (w₁, calls ++ p.events)) := by
  obtain ⟨symbols, instances, t, hrun, rfl, rfl⟩ := ofSelection_eq_ok h
  obtain ⟨calls, answers, hcalls, hrecorded⟩ := Grounding.ofSelection_recorded hrun
  refine ⟨calls, hcalls, (ofSelection_of_ok hrecorded).trans ?_⟩
  rw [run_report, run_report, Handler.handleAll_recorded]

theorem ofSelection_append_copy (h : handler.AnswersBy answer) (hr : r ∈ s.rules) (span : Span)
    (hp : ofSelection handler s w = (.ok p, w₁)) (w' : σ) :
    ∃ w₂, ofSelection handler { s with rules := s.rules ++ [{ r with span }] } w' =
      (.ok p, w₂) := by
  obtain ⟨symbols, instances, t, hrun, rfl, rfl⟩ := ofSelection_eq_ok hp
  obtain ⟨-, hagain⟩ := Grounding.carries_ofSelection h hr span _ _ _
    (Scratch.consistent_empty w) hrun
  obtain ⟨⟨symbols', instances'⟩, t', hrun', -, hsymbols, hrepeats⟩ :=
    hagain ⟨w', ∅⟩ (Scratch.consistent_empty w')
  obtain rfl : symbols' = symbols := hsymbols
  have hascending := Grounding.ofSelection_ascending handler s _ _ _ hrun
  have hresult := ofSelection_of_ok hrun'
  dsimp only at hresult
  rw [ofInstances_repeats hascending hrepeats] at hresult
  exact ⟨_, hresult⟩

/-- Repeating a rule changes nothing: the ground program is the same, and so are the events that
report it, whatever calls come before them, and which assertions they make ambiguous. -/
theorem ofSelection_repeated (h : handler.AnswersBy answer) (hr : r ∈ s.rules) (span : Span)
    (hp : ofSelection handler s w = (.ok p, w₁)) (w' : σ) :
    let again : Selection := { s with rules := s.rules ++ [{ r with span }] }
    ∃ w₂, ofSelection handler again w' = (.ok p, w₂) ∧
      ∃ calls calls', (∀ e ∈ calls, e.IsCall) ∧ (∀ e ∈ calls', e.IsCall) ∧
        ofSelection handler.recorded s (w, []) = (.ok p, (w₁, calls ++ p.events)) ∧
        ofSelection handler.recorded again (w', []) = (.ok p, (w₂, calls' ++ p.events)) ∧
        ∀ assertion, Tester.Ambiguous (calls ++ p.events) assertion ↔
          Tester.Ambiguous (calls' ++ p.events) assertion := by
  intro again
  obtain ⟨w₂, hagain⟩ := ofSelection_append_copy h hr span hp w'
  obtain ⟨calls, hcalls, hrecorded⟩ := ofSelection_recorded_of_ok hp
  obtain ⟨calls', hcalls', hrecorded'⟩ := ofSelection_recorded_of_ok hagain
  refine ⟨w₂, hagain, calls, calls', hcalls, hcalls', hrecorded, hrecorded', fun assertion => ?_⟩
  rw [Tester.ambiguous_append_of_calls hcalls, Tester.ambiguous_append_of_calls hcalls']

theorem ofSelection_repeated_sample :
    let h : Handler Unit := FunctionTable.empty.handler
    let again : Selection := ⟨[Sample.rule, Sample.rule], [], none⟩
    h.AnswersBy (fun name _ => .error (FunctionTable.unknown name)) ∧
      ofSelection h ⟨[Sample.rule], [], none⟩ () = (.ok Sample.grounded, ()) ∧
      ∃ calls, (∀ e ∈ calls, e.IsCall) ∧ ofSelection h.recorded again ((), []) =
        (.ok Sample.grounded, ((), calls ++ Sample.grounded.events)) := by
  intro h again
  have hanswers : h.AnswersBy fun name _ => .error (FunctionTable.unknown name) :=
    fun _ _ _ => rfl
  have hp : ofSelection h ⟨[Sample.rule], [], none⟩ () = (.ok Sample.grounded, ()) :=
    ofSelection_of_ok (Sample.ofSelection_eq h ())
  obtain ⟨⟨⟩, -, -, calls, -, hcalls, -, hrecorded, -⟩ :=
    ofSelection_repeated hanswers List.mem_cons_self Sample.rule.span hp ()
  exact ⟨hanswers, hp, calls, hcalls, hrecorded⟩

end GroundProgram

end AnswerSetTest
