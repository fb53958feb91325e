import AnswerSetTest.Pipeline
import AnswerSetTest.Resolution
import AnswerSetTest.Syntax.Parser
import AnswerSetTest.Tester

/-!
# Runs

Runs the units of a program one after another, each with a tester and a control of its own: the
root unit if asked for, and then the test units. Reports go to a sink as they are made, and the
first failure ends the run.
-/

namespace AnswerSetTest

/-- What changes during a run: the tester of the current unit, the state of the functions, and a
state `ω` of whoever runs the units. -/
structure Session (φ ω : Type) where
  tester : Tester
  functions : φ
  outer : ω

structure RunOptions where
  runRoot : Bool
  isTest : String → Bool
  tester : TesterOptions

structure Runner (κ φ ω : Type) where
  pipeline : Pipeline κ (Session φ ω)
  functions : FunctionTable φ
  options : RunOptions

namespace Session

variable {φ ω : Type}

def start (functions : φ) (outer : ω) : Session φ ω :=
  ⟨.new "" "" ⟨[], Text.defaultWidth⟩, functions, outer⟩

def withTester {α : Type} (x : StateM Tester α) : StateM (Session φ ω) α :=
  modifyGet fun s =>
    let (a, tester) := x.run s.tester
    (a, { s with tester })

def withOuter {α : Type} (x : StateM ω α) : StateM (Session φ ω) α :=
  modifyGet fun s =>
    let (a, outer) := x.run s.outer
    (a, { s with outer })

/-- The tester of a session observes grounding, and it has the first word on calls. -/
def handler (functions : FunctionTable φ) : Handler (Session φ ω) where
  call name args := modifyGet fun s =>
    let (a, tester, state) := (Tester.callWith functions name args).run (s.tester, s.functions)
    (a, { s with tester, functions := state })
  rule choice head body := withTester (Tester.handler.rule choice head body)
  output symbol a := withTester (Tester.handler.output symbol a)

end Session

namespace Runner

variable {κ φ ω : Type}

def partsOf (registry : Registry) (u : ProgramUnit) : Except Failure (List Part) :=
  if u.isRoot then .ok [rootPart] else u.resolve registry

def runUnit (r : Runner κ φ ω) (p : Program) (registry : Registry) (u : ProgramUnit) :
    StateM (Session φ ω) (Except Failure Report) := do
  match partsOf registry u with
  | .error f => return .error f
  | .ok parts =>
    modify fun s => { s with tester := .new u.name u.file r.options.tester }
    match ← r.pipeline.load p with
    | .error f => return .error f
    | .ok control =>
      match ← r.pipeline.ground (Session.handler r.functions) parts control with
      | (.error f, _) => return .error f
      | (.ok (), control) =>
        match ← r.pipeline.solve (fun m => Session.withTester (Tester.onModel m)) control with
        | (.error f, _) => return .error f
        | (.ok _, _) => return (← get).tester.report

def inUnit {α : Type} (u : ProgramUnit) : Except Failure α → Except Failure α
  | .error f => .error (.inUnit u.name u.location f)
  | .ok a => .ok a

def runUnits (r : Runner κ φ ω) (sink : Report → StateM ω (Except Failure Unit)) (p : Program)
    (registry : Registry) : List ProgramUnit → StateM (Session φ ω) (Except Failure (List Report))
  | [] => return .ok []
  | u :: us => do
    match inUnit u (← r.runUnit p registry u) with
    | .error f => return .error f
    | .ok report =>
      match inUnit u (← Session.withOuter (sink report)) with
      | .error f => return .error f
      | .ok () =>
        match ← r.runUnits sink p registry us with
        | .error f => return .error f
        | .ok reports => return .ok (report :: reports)

def schedule (options : RunOptions) (registry : Registry) : List ProgramUnit :=
  if options.runRoot then registry.root :: registry.testUnits else registry.testUnits

def runProgram (r : Runner κ φ ω) (sink : Report → StateM ω (Except Failure Unit)) (p : Program) :
    StateM (Session φ ω) (Except Failure (List Report)) := do
  match Registry.ofProgram r.options.isTest p with
  | .error f => return .error f
  | .ok registry => r.runUnits sink p registry (schedule r.options registry)

def runSource (r : Runner κ φ ω) (sink : Report → StateM ω (Except Failure Unit))
    (text file : String) : StateM (Session φ ω) (Except Failure (List Report)) := do
  match Program.parse text (some file) with
  | .error diagnostics => return .error (.parse diagnostics)
  | .ok p => r.runProgram sink p

end Runner

end AnswerSetTest
