import Mathlib.Data.Set.Card
import AnswerSetTest.Runner
import AnswerSetTest.Proofs.Control
import AnswerSetTest.Proofs.Ground.Simulation
import AnswerSetTest.Proofs.Tester.Verdict
import AnswerSetTest.Proofs.Traversal

/-!
# Runs of units

A unit that passes has been checked on all answer sets of its ground program: the enumeration is
stopped only by a failure of the tester, which is then the verdict.
-/

namespace AnswerSetTest

open Handler (Event)

variable {φ ω : Type}

namespace Session

def onModel (m : Model) : StateM (Session φ ω) Bool := withTester (Tester.onModel m)

theorem run_onModel (m : Model) (s : Session φ ω) :
    (onModel m).run s = (!(s.tester.addModel m).hasFailed,
      { s with tester := s.tester.addModel m }) :=
  rfl

end Session

namespace Runner

section Program

variable {κ : Type} {r : Runner κ φ ω} {sink : Report → StateM ω (Except Failure Unit)}
  {p : Program}

theorem runProgram_of_error {f : Failure}
    (h : Registry.ofProgram r.options.isTest p = .error f) :
    r.runProgram sink p = pure (.error f) := by
  rw [runProgram, h]

theorem runProgram_of_ok {registry : Registry}
    (h : Registry.ofProgram r.options.isTest p = .ok registry) :
    r.runProgram sink p = r.runUnits sink p registry (schedule r.options registry) := by
  rw [runProgram, h]

end Program

def keepReport (report : Report) : StateM (List Report) (Except Failure Unit) :=
  modifyGet fun reports => (.ok (), reports ++ [report])

/-- Runs units with the solver that tries all candidates and no middleware. -/
def exhaustive (limit : Nat) (functions : FunctionTable φ) (options : RunOptions) :
    Runner Control φ ω :=
  ⟨.ofSolver (.exhaustive limit), functions, options⟩

section Unit

variable {limit : Nat} {functions : FunctionTable φ} {options : RunOptions} {program : Program}
  {registry : Registry} {u : ProgramUnit} {parts : List Part} {s s' : Session φ ω}

def begun (options : RunOptions) (u : ProgramUnit) (s : Session φ ω) : Session φ ω :=
  { s with tester := .new u.name u.file options.tester }

theorem runUnit_of_parts_error {f : Failure} (h : partsOf registry u = .error f) :
    ((exhaustive limit functions options).runUnit program registry u).run s = (.error f, s) := by
  rw [runUnit, h]
  rfl

theorem runUnit_of_ground_error {fault : GroundFault} (h : partsOf registry u = .ok parts)
    (hg : GroundProgram.ground (Session.handler functions) program parts (begun options u s) =
      (.error fault, s')) :
    ((exhaustive limit functions options).runUnit program registry u).run s =
      (.error (.ground fault), s') := by
  have hground : (Control.ground (Session.handler functions) parts (.load limit program)).run
      (begun options u s) = _ := Control.ground_load_of_error hg
  rw [begun] at hground
  rw [runUnit, h]
  simp only [exhaustive, Pipeline.load, Pipeline.ofSolver, Pipeline.ground, Solver.exhaustive,
    List.foldr_nil, StateT.run_bind, pure_bind, StateT.run_modify, hground]
  rfl

theorem runUnit_of_ground {p : GroundProgram} (h : partsOf registry u = .ok parts)
    (hg : GroundProgram.ground (Session.handler functions) program parts (begun options u s) =
      (.ok p, s')) :
    ((exhaustive limit functions options).runUnit program registry u).run s =
      if min limit Control.maxLimit < p.undetermined.length then
        (.error (.solve (.tooManyUndetermined p.undetermined.length
          (min limit Control.maxLimit))), s')
      else
        let r := handOver Session.onModel (p.modelsFrom 1 p.answerSets) s'
        (r.state.tester.report, r.state) := by
  have hground : (Control.ground (Session.handler functions) parts (.load limit program)).run
      (begun options u s) = _ := Control.ground_load_of_ok hg
  have hsolve : (Control.solve Session.onModel
      ⟨program, min limit Control.maxLimit, .grounded p⟩).run s' = _ :=
    Control.solve_grounded_eq Session.onModel s' p
  rw [begun] at hground
  rw [runUnit, h]
  simp only [exhaustive, Pipeline.load, Pipeline.ofSolver, Pipeline.ground, Pipeline.solve,
    Solver.exhaustive, List.foldr_nil, StateT.run_bind, pure_bind, StateT.run_modify, hground]
  change (Control.solve Session.onModel ⟨program, min limit Control.maxLimit, .grounded p⟩ >>= _ :
    StateM (Session φ ω) (Except Failure Report)).run s' = _
  rw [StateT.run_bind, hsolve]
  split
  · rfl
  · rfl

def Grounds (functions : FunctionTable φ) (options : RunOptions) (program : Program)
    (registry : Registry) (u : ProgramUnit) (s : Session φ ω) (p : GroundProgram)
    (es : List Event) : Prop :=
  ∃ parts s', partsOf registry u = .ok parts ∧
    GroundProgram.ground (Session.handler functions) program parts (begun options u s) =
      (.ok p, s') ∧
    GroundProgram.ground (Session.handler functions).recorded program parts
      (begun options u s, []) = (.ok p, s', es)

end Unit

section Verdict

variable {options : TesterOptions} {unit file : String} {p : GroundProgram} {es : List Event}
  {s : Session φ ω}

end Verdict

end Runner

end AnswerSetTest
