import AnswerSetTest.Pipeline
import AnswerSetTest.Ground.Simplification
import AnswerSetTest.Search

/-!
# Controls

The life of a loaded program: it is grounded at most once and then solved at most once, and after
that it is spent. A failed grounding leaves it as it was; a search spends it in any case.
-/

namespace AnswerSetTest

inductive Control.Phase where
  | fresh
  | grounded (ground : GroundProgram)
  | spent (ground : GroundProgram)

/-- A search is refused if there are more undetermined atoms than `limit`. -/
structure Control where
  program : Program
  limit : Nat
  phase : Control.Phase

namespace Control

def maxLimit : Nat := 63

def defaultLimit : Nat := 22

def load (limit : Nat) (program : Program) : Control := ⟨program, min limit maxLimit, .fresh⟩

def Phase.ground : Phase → GroundProgram
  | .fresh => .empty
  | .grounded p | .spent p => p

def atoms (c : Control) : List Symbol := c.phase.ground.symbols

variable {ω : Type}

def ground (handler : Handler ω) (parts : List Part) (c : Control) :
    StateM ω (Except Failure Unit × Control) := do
  match c.phase with
  | .spent _ => return (.error .spentControl, c)
  | .grounded _ => return (.error (.ground .alreadyGrounded), c)
  | .fresh =>
    match ← (GroundProgram.ground handler c.program parts).run with
    | .error fault => return (.error (.ground fault), c)
    | .ok p => return (.ok (), { c with phase := .grounded p })

def solve (onModel : Model → StateM ω Bool) (c : Control) :
    StateM ω (Except Failure Summary × Control) := do
  match c.phase with
  | .spent _ => return (.error .spentControl, c)
  | phase =>
    let p := phase.ground
    let spent := { c with phase := .spent p }
    let atoms := p.undetermined.length
    if atoms > c.limit then
      return (.error (.solve (.tooManyUndetermined atoms c.limit)), spent)
    else
      return (.ok (← p.search onModel), spent)

end Control

def Solver.exhaustive (limit : Nat) : Solver Control where
  load program := .ok (.load limit program)
  ground := Control.ground
  solve := Control.solve
  atoms := Control.atoms

end AnswerSetTest
