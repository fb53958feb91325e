import AnswerSetTest.Proofs.Tester.Verdict

/-!
# Histories of testers

Events and models in any order. The count of the last accepted call of `@models` is the number of
models of a passing report, whatever else happened; counts of earlier calls are not looked at.
-/

namespace AnswerSetTest

open Handler (Event)

namespace Tester

inductive Step where
  | event (e : Event)
  | model (m : Model)

def Step.event? : Step → Option Event
  | .event e => some e
  | .model _ => none

def Step.model? : Step → Option Model
  | .event _ => none
  | .model m => some m

def play (t : Tester) : Step → Tester
  | .event e => handler.handle t e
  | .model m => ((onModel m).run t).2

def playAll (t : Tester) (steps : List Step) : Tester := steps.foldl play t

def eventsOf (steps : List Step) : List Event := steps.filterMap Step.event?

def modelsOf (steps : List Step) : List Model := steps.filterMap Step.model?

theorem playAll_append (t : Tester) (steps : List Step) (x : Step) :
    t.playAll (steps ++ [x]) = (t.playAll steps).play x :=
  List.foldl_append

theorem eventsOf_append_event (steps : List Step) (e : Event) :
    eventsOf (steps ++ [.event e]) = eventsOf steps ++ [e] :=
  List.filterMap_append

theorem eventsOf_append_model (steps : List Step) (m : Model) :
    eventsOf (steps ++ [.model m]) = eventsOf steps := by
  rw [eventsOf, List.filterMap_append]
  exact List.append_nil _

theorem modelsOf_append_event (steps : List Step) (e : Event) :
    modelsOf (steps ++ [.event e]) = modelsOf steps := by
  rw [modelsOf, List.filterMap_append]
  exact List.append_nil _

theorem modelsOf_append_model (steps : List Step) (m : Model) :
    modelsOf (steps ++ [.model m]) = modelsOf steps ++ [m] :=
  List.filterMap_append

section Step

variable {t : Tester} {m : Model}

theorem Updates.hasFailed_eq {e : Event} {t' : Tester} (u : Updates e t t') :
    t'.hasFailed = t.hasFailed := by
  have hphase : t'.phase = t.phase := by rw [u.frame]
  rw [hasFailed, hasFailed, hphase]

theorem assertions_subset_addModel {s : Symbol} (h : s ∈ t.index.assertions) :
    s ∈ (t.addModel m).index.assertions := by
  have haccept : s ∈ (t.accept m).index.assertions := mem_accept_assertions.2 (.inl h)
  exact addModel_induction (P := fun u => s ∈ u.index.assertions) h haccept (fun _ => h)
    fun _ => haccept

theorem expected_addModel {n : Nat} (h : t.expected = some n) :
    (t.addModel m).expected = some n := by
  have hcount : (t.countModel m).expected = some n := by rw [countModel, h]
  exact addModel_induction (P := fun u => u.expected = some n) h hcount (fun _ => hcount)
    fun _ => hcount

theorem unit_addModel : (t.addModel m).unit = t.unit :=
  addModel_induction (P := fun u => u.unit = t.unit) rfl rfl (fun _ => rfl) fun _ => rfl

theorem seen_addModel (h : ¬ (t.addModel m).hasFailed) :
    ¬ t.hasFailed ∧ (t.addModel m).seen = t.seen + 1 := by
  have hf : ¬ t.hasFailed := fun hf => h (by rwa [addModel_of_failed hf])
  have hone : ¬ ([m].foldl addModel t).hasFailed := h
  obtain ⟨-, -, heq⟩ := accepted_of_not_failed hone
  rw [heq]
  exact ⟨hf, rfl⟩

end Step

/-- What a tester keeps of its history, however events and models alternate. -/
structure Keeps (unit : String) (steps : List Step) (t : Tester) : Prop where
  unit : t.unit = unit
  assertions : ∀ s, Required (eventsOf steps) s → s ∈ t.index.assertions
  expected : ∀ n, declared (eventsOf steps) = some n → t.expected = some n
  seen : ¬ t.hasFailed → t.seen = (modelsOf steps).length

namespace Keeps

variable {unit : String} {steps : List Step} {t : Tester}

theorem event (h : Keeps unit steps t) (e : Event) :
    Keeps unit (steps ++ [.event e]) (t.play (.event e)) := by
  have u : Updates e t (t.play (.event e)) := updates_handle e t
  refine ⟨?_, fun s hs => ?_, fun n hn => ?_, fun hf => ?_⟩
  · rw [u.frame]
    exact h.unit
  · rw [eventsOf_append_event, required_append] at hs
    exact (u.mem_assertions s).2 (hs.imp_left (h.assertions s))
  · rw [eventsOf_append_event, declared_append] at hn
    rw [u.expected]
    cases hcount : e.count? with
    | some k => rwa [hcount] at hn
    | none =>
      rw [hcount] at hn
      exact h.expected n hn
  · have hseen : (t.play (.event e)).seen = t.seen := by rw [u.frame]
    rw [modelsOf_append_event, hseen]
    exact h.seen (by rwa [u.hasFailed_eq] at hf)

theorem model (h : Keeps unit steps t) (m : Model) :
    Keeps unit (steps ++ [.model m]) (t.play (.model m)) := by
  have hplay : t.play (.model m) = t.addModel m := rfl
  rw [hplay]
  refine ⟨unit_addModel.trans h.unit, fun s hs => ?_, fun n hn => ?_, fun hf => ?_⟩
  · rw [eventsOf_append_model] at hs
    exact assertions_subset_addModel (h.assertions s hs)
  · rw [eventsOf_append_model] at hn
    exact expected_addModel (h.expected n hn)
  · obtain ⟨hbefore, hseen⟩ := seen_addModel hf
    rw [hseen, h.seen hbefore, modelsOf_append_model, List.length_append, List.length_singleton]

theorem playAll (unit file : String) (options : TesterOptions) (steps : List Step) :
    Keeps unit steps (Tester.playAll (.new unit file options) steps) := by
  induction steps using List.reverseRecOn with
  | nil =>
    refine ⟨rfl, fun s hs => ?_, fun n hn => ?_, fun _ => rfl⟩
    · obtain ⟨e, he, -⟩ := hs
      cases he
    · cases hn
  | append_singleton steps x ih =>
    rw [playAll_append]
    cases x with
    | event e => exact ih.event e
    | model m => exact ih.model m

end Keeps

/-- An accepted call of `@models` also registers an assertion. -/
theorem exists_requires_of_count? {e : Event} {n : Nat} (h : e.count? = some n) :
    ∃ s, e.Requires s := by
  unfold Event.count? at h
  split at h
  · next name k =>
    split at h
    · next hk =>
      obtain ⟨rfl, hneg⟩ := hk
      exact ⟨_, .models hneg⟩
    · cases h
  · cases h

theorem exists_required_of_declared {es : List Event} {n : Nat} (h : declared es = some n) :
    ∃ s, Required es s := by
  obtain ⟨e, he, hcount⟩ := List.mem_filterMap.1 (List.mem_of_getLast? h)
  obtain ⟨s, hs⟩ := exists_requires_of_count? hcount
  exact ⟨s, e, he, hs⟩

/-- A passing report of a unit other than the root has as many models as the last accepted call of
`@models` declares. -/
theorem modelCount_eq_declared (unit file : String) (options : TesterOptions) (steps : List Step)
    (hunit : unit ≠ rootUnit) {r : Report}
    (h : (playAll (.new unit file options) steps).report = .ok r) :
    r.modelCount = (modelsOf steps).length ∧
      ∀ n, declared (eventsOf steps) = some n → (modelsOf steps).length = n := by
  have hkeeps := Keeps.playAll unit file options steps
  obtain ⟨hf, hcount, -, rfl⟩ := report_eq_ok_iff.1 h
  have hseen := hkeeps.seen hf
  refine ⟨hseen, fun n hn => ?_⟩
  obtain ⟨s, hs⟩ := exists_required_of_declared hn
  have hexpected := hkeeps.expected n hn
  have hmem := hkeeps.assertions s hs
  rcases hcount with hnil | hroot | ⟨-, hsome⟩
  · rw [hnil] at hmem
    cases hmem
  · exact absurd (hkeeps.unit.symm.trans hroot) hunit
  · rw [hexpected] at hsome
    exact hseen.symm.trans (Option.some.inj hsome).symm

theorem modelCount_eq_declared_sample :
    let m : Model := ⟨1, [.function "assert" [.function "models" [.number 1]]], []⟩
    let steps : List Step := [.model m, .event (.call "models" [.number 1])]
    "test" ≠ rootUnit ∧
      (playAll (.new "test" "t.lp" ⟨["none"], 80⟩) steps).report =
        .ok ⟨"test", "t.lp", ["assert(models(1))"], 1, 1⟩ ∧
      (modelsOf steps).length = 1 := by
  intro m steps
  have hunit : "test" ≠ rootUnit := by decide
  have h : (playAll (.new "test" "t.lp" ⟨["none"], 80⟩) steps).report =
      .ok ⟨"test", "t.lp", ["assert(models(1))"], 1, 1⟩ := rfl
  exact ⟨hunit, h,
    (modelCount_eq_declared "test" "t.lp" ⟨["none"], 80⟩ steps hunit h).2 1 rfl⟩

/-- Two models are declared, then one; there is one, and the unit passes. -/
theorem passes_with_two_counts :
    let ss : List Symbol := [.function "assert" [.function "models" [.number 1]],
      .function "assert" [.function "models" [.number 2]]]
    let steps : List Step := [.event (.call "models" [.number 2]),
      .event (.call "models" [.number 1]), .model ⟨1, ss, ss⟩]
    "test_a" ≠ rootUnit ∧ (eventsOf steps).filterMap Event.count? = [2, 1] ∧
      (modelsOf steps).length = 1 ∧
      ∃ r, (playAll (.new "test_a" "t.lp" ⟨["none", "cannot"], 80⟩) steps).report = .ok r := by
  intro ss steps
  have h : (playAll (.new "test_a" "t.lp" ⟨["none", "cannot"], 80⟩) steps).report =
      .ok ⟨"test_a", "t.lp", ["assert(models(1))", "assert(models(2))"], 2, 1⟩ := rfl
  exact ⟨by decide, rfl, rfl, _, h⟩

end Tester

end AnswerSetTest
