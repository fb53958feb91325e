import AnswerSetTest.Proofs.Ground.Simulation
import AnswerSetTest.Proofs.GroundProgram.WellFormed

/-!
# Calls before reports

Selecting and instantiating rules only makes calls. The ground program is reported after that, and
only if nothing failed.
-/

namespace AnswerSetTest

open Handler (Event)

variable {σ : Type} {handler : Handler σ} {w w' : σ}

theorem Handler.answersAlike_recorded (h : Handler σ) :
    h.AnswersAlike (fun s r => r.1 = s ∧ ∀ e ∈ r.2, e.IsCall) h.recorded := by
  rintro name args _ ⟨s, es⟩ ⟨rfl, hcalls⟩
  refine ⟨rfl, rfl, fun e he => ?_⟩
  rcases List.mem_append.1 he with he | he
  · exact hcalls e he
  · rw [List.mem_singleton.1 he]
    exact True.intro

namespace Grounding

theorem ofSelection_recorded {s : Selection} {r : Except GroundFault (List Symbol × Array Instance)}
    {scratch : Scratch σ} (h : ofSelection handler s ⟨w, ∅⟩ = (r, scratch)) :
    ∃ calls answers, (∀ e ∈ calls, e.IsCall) ∧
      ofSelection handler.recorded s ⟨(w, []), ∅⟩ = (r, ⟨(scratch.world, calls), answers⟩) := by
  have hagree := agree_ofSelection handler.answersAlike_recorded s
  obtain ⟨hval, ⟨hworld, hcalls⟩, -⟩ := hagree ⟨w, ∅⟩ ⟨(w, []), ∅⟩ ⟨⟨rfl, by simp⟩, rfl⟩
  rw [h] at hval hworld
  cases hrun : ofSelection handler.recorded s ⟨(w, []), ∅⟩ with
  | mk r' t =>
    rw [hrun] at hval hworld hcalls
    obtain rfl : r = r' := hval
    refine ⟨t.world.2, t.answers, hcalls, ?_⟩
    rw [← (hworld : t.world.1 = scratch.world)]

end Grounding

namespace GroundProgram

variable {program : Program} {parts : List Part} {p : GroundProgram} {fault : GroundFault}

theorem ground_recorded_of_error
    (h : ground handler program parts w = (.error fault, w')) :
    ∃ calls, (∀ e ∈ calls, e.IsCall) ∧
      ground handler.recorded program parts (w, []) = (.error fault, (w', calls)) := by
  rw [ground] at h
  split at h
  · next hselect =>
    cases h
    refine ⟨[], by simp, ?_⟩
    rw [ground, hselect]
  · next selection hselect =>
    split at h
    · next scratch hrun =>
      cases h
      obtain ⟨calls, answers, hcalls, hrecorded⟩ := Grounding.ofSelection_recorded hrun
      have hrecorded' : (Grounding.ofSelection handler.recorded selection).run.run
          ⟨(w, []), ∅⟩ = _ := hrecorded
      refine ⟨calls, hcalls, ?_⟩
      rw [ground, hselect]
      dsimp only
      rw [hrecorded']
    · cases h

/-- A grounding that succeeds has made calls first and has reported its ground program then. -/
theorem ground_recorded_of_ok (h : ground handler program parts w = (.ok p, w')) :
    ∃ calls, (∀ e ∈ calls, e.IsCall) ∧
      ground handler.recorded program parts (w, []) = (.ok p, (w', calls ++ p.events)) := by
  obtain ⟨selection, symbols, instances, scratch, hselect, hrun, rfl, rfl⟩ := ground_eq_ok h
  obtain ⟨calls, answers, hcalls, hrecorded⟩ := Grounding.ofSelection_recorded hrun
  have hrecorded' : (Grounding.ofSelection handler.recorded selection).run.run
      ⟨(w, []), ∅⟩ = _ := hrecorded
  refine ⟨calls, hcalls, ?_⟩
  rw [ground, hselect]
  dsimp only
  rw [hrecorded']
  dsimp only
  rw [run_report, run_report, Handler.handleAll_recorded]

end GroundProgram

end AnswerSetTest
