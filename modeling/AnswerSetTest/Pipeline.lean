import AnswerSetTest.Engine
import AnswerSetTest.Failure
import AnswerSetTest.Syntax.Program

/-!
# Solvers and pipelines

A solver loads a program into a control `κ`, grounds parts of it once, and enumerates the answer
sets once. A pipeline runs a solver behind middlewares. A middleware gets each stage as the rest of
the pipeline would run it, and gives the stage as it is to be run: unchanged, with something before
or after it, or without going on at all.
-/

namespace AnswerSetTest

/-- Grounding and solving give the control that they leave, also when they fail. Whoever uses a
solver brings the state `ω` that handlers and callbacks change. -/
structure Solver (κ : Type) where
  load : Program → Except Failure κ
  ground : {ω : Type} → Handler ω → List Part → κ → StateM ω (Except Failure Unit × κ)
  solve : {ω : Type} → (Model → StateM ω Bool) → κ → StateM ω (Except Failure Summary × κ)
  atoms : κ → List Symbol

inductive Stage where
  | load | ground | solve
deriving DecidableEq

def Stage.name : Stage → String
  | .load => "load"
  | .ground => "ground"
  | .solve => "solve"

abbrev LoadStage (κ ω : Type) := Program → StateM ω (Except Failure κ)

abbrev GroundStage (κ ω : Type) :=
  Handler ω → List Part → κ → StateM ω (Except Failure Unit × κ)

abbrev SolveStage (κ ω : Type) :=
  (Model → StateM ω Bool) → κ → StateM ω (Except Failure Summary × κ)

/-- Each field turns the rest of a stage into the stage; by default it passes it on. -/
structure Middleware (κ ω : Type) where
  name : String
  load : LoadStage κ ω → LoadStage κ ω := id
  ground : GroundStage κ ω → GroundStage κ ω := id
  solve : SolveStage κ ω → SolveStage κ ω := id

/-- The middleware at the head of the list is entered first. -/
structure Pipeline (κ ω : Type) where
  solver : Solver κ
  middlewares : List (Middleware κ ω)

namespace Pipeline

variable {κ ω : Type}

def ofSolver (solver : Solver κ) : Pipeline κ ω := ⟨solver, []⟩

def names (p : Pipeline κ ω) : List String := p.middlewares.map Middleware.name

def push (p : Pipeline κ ω) (m : Middleware κ ω) : Except Failure (Pipeline κ ω) :=
  if m.name ∈ p.names then .error (.config none (.middlewareTwice m.name))
  else .ok { p with middlewares := p.middlewares ++ [m] }

def load (p : Pipeline κ ω) : LoadStage κ ω :=
  p.middlewares.foldr Middleware.load fun program => return p.solver.load program

def ground (p : Pipeline κ ω) : GroundStage κ ω :=
  p.middlewares.foldr Middleware.ground p.solver.ground

def solve (p : Pipeline κ ω) : SolveStage κ ω :=
  p.middlewares.foldr Middleware.solve p.solver.solve

end Pipeline

def Middleware.stageTrace {κ ω : Type} (record : Stage → ω → ω) : Middleware κ ω where
  name := "stage-trace"
  load next program := do
    let r ← next program
    if r.isOk then modify (record .load)
    return r
  ground next handler parts control := do
    let (r, control) ← next handler parts control
    if r.isOk then modify (record .ground)
    return (r, control)
  solve next onModel control := do
    let (r, control) ← next onModel control
    if r.isOk then modify (record .solve)
    return (r, control)

end AnswerSetTest
