import Mathlib
import AnswerSetTest.Proofs.Tester.History

/-!
# The first failure

A tester fails at the first model that it rejects, however calls, reports and models alternate.
From then on it answers `false` to every model without looking at it, and its verdict is what was
wrong with that model.
-/

namespace AnswerSetTest.Tester

open Handler (Event)

/-- What a tester that has not failed finds wrong with a model. -/
def failureAt? (t : Tester) (m : Model) : Option Failure :=
  match t.index.ambiguous? with
  | some s => some (.ambiguous t.unit s)
  | none =>
    match t.failures m with
    | [] => none
    | failures => some (.assertion t.unit t.file failures (t.rejection m failures))

/-- What a tester answers to the models among steps, the first one first. -/
def answers (t : Tester) : List Step → List Bool
  | [] => []
  | .event e :: steps => answers (t.play (.event e)) steps
  | .model m :: steps => ((onModel m).run t).1 :: answers (t.play (.model m)) steps

variable {t : Tester} {m : Model} {f : Failure}

theorem onModel_run (t : Tester) (m : Model) :
    (onModel m).run t = (!(t.addModel m).hasFailed, t.addModel m) := rfl

theorem answers_append (t : Tester) (steps steps' : List Step) :
    t.answers (steps ++ steps') = t.answers steps ++ (t.playAll steps).answers steps' := by
  induction steps generalizing t with
  | nil => rfl
  | cons x steps ih =>
    cases x with
    | event e => exact ih (t.play (.event e))
    | model m => exact congrArg (((onModel m).run t).1 :: ·) (ih (t.play (.model m)))

theorem hasFailed_of_phase (h : t.phase = .failed f) : t.hasFailed := by rw [hasFailed, h]

/-- A tester that has not failed counts a model, and it accepts the model or fails with what is
wrong with it. -/
theorem addModel_failureAt? (hf : ¬ t.hasFailed) :
    (t.addModel m).seen = t.seen + 1 ∧
      match t.failureAt? m with
      | none => ¬ (t.addModel m).hasFailed
      | some f => (t.addModel m).phase = .failed f := by
  rw [failureAt?]
  cases hambiguous : t.index.ambiguous? with
  | some s =>
    rw [addModel_of_ambiguous hf hambiguous]
    exact ⟨rfl, rfl⟩
  | none =>
    cases hfailures : t.failures m with
    | nil =>
      rw [addModel_of_accepted hf hambiguous hfailures]
      exact ⟨rfl, hasFailed_accept t m⟩
    | cons s failures =>
      have hchecked : ((t.countModel m).absorb m).index.missingFrom m ++
          forbidden ((t.countModel m).absorb m).options.constraints m = s :: failures := hfailures
      rw [addModel_of_clear hf hambiguous, checkModel, hchecked]
      exact ⟨rfl, rfl⟩

theorem phase_play (h : t.phase = .failed f) (x : Step) : (t.play x).phase = .failed f := by
  cases x with
  | event e =>
    have u : Updates e t (t.play (.event e)) := updates_handle e t
    rw [u.frame]
    exact h
  | model m =>
    have hplay : t.play (.model m) = t := addModel_of_failed (hasFailed_of_phase h)
    rwa [hplay]

theorem phase_playAll (h : t.phase = .failed f) (steps : List Step) :
    (t.playAll steps).phase = .failed f := by
  induction steps generalizing t with
  | nil => exact h
  | cons x steps ih => exact ih (phase_play h x)

theorem report_of_phase (h : t.phase = .failed f) : t.report = .error f := by
  rw [report, h]
  rfl

theorem onModel_run_of_failed (h : t.hasFailed) (m : Model) : (onModel m).run t = (false, t) := by
  rw [onModel_run, addModel_of_failed h, h]
  rfl

/-- A tester that fails has answered `false`, and it counts the models up to that answer. -/
structure Counts (given : List Bool) (t : Tester) : Prop where
  failed : t.hasFailed ↔ false ∈ given
  seen : t.seen = (given.take (given.idxOf false + 1)).length

namespace Counts

variable {given : List Bool}

theorem event (h : Counts given t) (e : Event) : Counts given (t.play (.event e)) := by
  have u : Updates e t (t.play (.event e)) := updates_handle e t
  have hseen : (t.play (.event e)).seen = t.seen := by rw [u.frame]
  exact ⟨by rw [u.hasFailed_eq, h.failed], hseen.trans h.seen⟩

theorem model (h : Counts given t) (m : Model) :
    Counts (given ++ [((onModel m).run t).1]) (t.play (.model m)) := by
  have hplay : t.play (.model m) = t.addModel m := rfl
  rw [onModel_run, hplay]
  by_cases hf : t.hasFailed
  · have hmem := h.failed.1 hf
    have hle := List.idxOf_lt_length_iff.2 hmem
    rw [addModel_of_failed hf]
    refine ⟨by simp [hf, hmem], ?_⟩
    rw [List.idxOf_append_of_mem hmem, List.take_append_of_le_length hle, h.seen]
  · have hmem : false ∉ given := fun hmem => hf (h.failed.2 hmem)
    have hidx : given.idxOf false = given.length := List.idxOf_eq_length_iff.2 hmem
    have hseen := h.seen
    rw [hidx, List.take_of_length_le (Nat.le_succ _)] at hseen
    refine ⟨by simp [hmem], ?_⟩
    rw [(addModel_failureAt? hf).1, List.idxOf_append_of_notMem hmem, hseen, Nat.add_assoc,
      List.take_of_length_le]
    · simp
    · simp

theorem playAll (unit file : String) (options : TesterOptions) (steps : List Step) :
    Counts (answers (.new unit file options) steps)
      (Tester.playAll (.new unit file options) steps) := by
  induction steps using List.reverseRecOn with
  | nil => exact ⟨by simp [Tester.playAll, answers, Tester.new, hasFailed], rfl⟩
  | append_singleton steps x ih =>
    rw [playAll_append, answers_append]
    cases x with
    | event e =>
      rw [answers, answers, List.append_nil]
      exact ih.event e
    | model m => exact ih.model m

end Counts

/-- The phase says whether a model was rejected, and models are counted up to the first rejected
one. After it every model is answered `false` and changes nothing, and the report gives what was
wrong with it, whatever else happens. -/
theorem first_failure_final (unit file : String) (options : TesterOptions) (steps : List Step) :
    let start := Tester.new unit file options
    let given := start.answers steps
    ((start.playAll steps).hasFailed ↔ false ∈ given) ∧
      (start.playAll steps).seen = (given.take (given.idxOf false + 1)).length ∧
      ∀ before m after, steps = before ++ .model m :: after → false ∉ start.answers before →
        ((onModel m).run (start.playAll before)).1 = false →
        ∃ f, (start.playAll before).failureAt? m = some f ∧
          (start.playAll (before ++ [.model m])).phase = .failed f ∧
          (start.playAll steps).report = .error f ∧
          ∀ n, (onModel n).run (start.playAll steps) = (false, start.playAll steps) := by
  intro start given
  have hcounts := Counts.playAll unit file options
  refine ⟨(hcounts steps).failed, (hcounts steps).seen, ?_⟩
  rintro before m after rfl hbefore hrejected
  have hf : ¬ (start.playAll before).hasFailed := fun hf => hbefore ((hcounts before).failed.1 hf)
  have hfailed : ((start.playAll before).addModel m).hasFailed := by
    simpa [onModel_run] using hrejected
  have hcause := (addModel_failureAt? hf (m := m)).2
  cases hfailure : (start.playAll before).failureAt? m with
  | none =>
    rw [hfailure] at hcause
    exact absurd hfailed hcause
  | some f =>
    rw [hfailure] at hcause
    have hphase : (start.playAll (before ++ [.model m])).phase = .failed f := by
      rw [playAll_append]
      exact hcause
    have hlast : (start.playAll (before ++ .model m :: after)).phase = .failed f := by
      have hsplit : start.playAll (before ++ .model m :: after) =
          (start.playAll (before ++ [.model m])).playAll after := by
        simp [Tester.playAll]
      rw [hsplit]
      exact phase_playAll hphase after
    exact ⟨f, rfl, hphase, report_of_phase hlast,
      onModel_run_of_failed (hasFailed_of_phase hlast)⟩

/-- The second model has a constraint atom; a call and a third model come after it. -/
theorem first_failure_final_sample :
    let a : Symbol := .function "a" []
    let clash : Symbol := .function "none" [a]
    let start := Tester.new "test" "t.lp" ⟨["none"], 80⟩
    let before : List Step := [.model ⟨1, [a], [a]⟩]
    let after : List Step := [.event (.call "all" [a]), .model ⟨3, [a], [a]⟩]
    let steps := before ++ .model ⟨2, [clash], [clash]⟩ :: after
    start.answers steps = [true, false, false] ∧ (start.playAll steps).seen = 2 ∧
      (start.playAll steps).report = .error (.assertion "test" "t.lp" [clash]
        "MODEL:\nnone(a)\nFailures in t.lp, #program test():\nnone(a)\n") := by
  intro a clash start before after steps
  obtain ⟨-, hseen, hfirst⟩ := first_failure_final "test" "t.lp" ⟨["none"], 80⟩ steps
  have hanswers : start.answers steps = [true, false, false] := by cbv
  have hbefore : start.answers before = [true] := by cbv
  obtain ⟨f, hf, -, hreport, -⟩ := hfirst before _ after rfl (by simp [start, hbefore]) (by cbv)
  have hcause : (start.playAll before).failureAt? ⟨2, [clash], [clash]⟩ =
      some (.assertion "test" "t.lp" [clash]
        "MODEL:\nnone(a)\nFailures in t.lp, #program test():\nnone(a)\n") := by cbv
  rw [hcause, Option.some.injEq] at hf
  refine ⟨hanswers, ?_, hf ▸ hreport⟩
  rw [hseen, hanswers]
  rfl

end AnswerSetTest.Tester
