import AnswerSetTest.Control
import AnswerSetTest.IgnoreFile
import AnswerSetTest.Invocation
import AnswerSetTest.Runner

/-!
# The command

Runs the tests of the sources that an invocation names and writes their reports. The first failure
ends the command.
-/

namespace AnswerSetTest

/-- What the command is given besides its arguments: files, the directory that it works in, its
standard input, and the number of columns that its environment states. -/
structure Environment where
  files : FileSystem
  directory : String
  input : Except ReadFault String
  columns : Option String

structure Outcome where
  code : Nat
  output : String
  errors : String

namespace Command

inductive Input where
  | standard
  | file (source : SourceFile)

namespace Input

def name : Input → String
  | .standard => "<stdin>"
  | .file source => source.path

def read (env : Environment) (i : Input) : Except Failure String :=
  let text := match i with
    | .standard => env.input
    | .file source => (FileTree.file source.content).text?
  match text with
  | .ok text => .ok text
  | .error fault => .error (.read i.name fault)

end Input

def config (env : Environment) (i : Invocation) : Except Failure Config := do
  let c ← Config.load env.files i.config env.directory
  return { c with
    format := i.format.getD c.format
    width := i.width <|> c.width
    runRoot := c.runRoot && !i.skipRoot }

def inputs (env : Environment) (i : Invocation) (c : Config) : Except Failure (List Input) := do
  let paths := i.paths.filter (· != "-")
  let standard := if i.paths.isEmpty || paths.length < i.paths.length then [.standard] else []
  if paths.isEmpty then return standard
  else
    let filter ← SourceFilter.ofOptions c.scan i.config
    let sources ← Sources.collect env.files filter paths
    return standard ++ sources.map .file

def options (env : Environment) (queried : Option UInt16) (c : Config) : RunOptions :=
  { runRoot := c.runRoot, isTest := c.isTest,
    tester := ⟨c.constraints, c.width.getD (Text.terminalWidth env.columns queried)⟩ }

/-- The command has no functions of its own, and its runs write to a text. -/
abbrev Run := Session Unit String

def write (text : String) : StateM Run Unit := Session.withOuter (modify (· ++ text))

/-- The trace of stages has no place to go to but a log, which is not part of the output. -/
def pipeline (i : Invocation) : Pipeline Control Run :=
  ⟨Solver.exhaustive Control.defaultLimit,
    if i.traceStages then [.stageTrace fun _ s => s] else []⟩

def runInputs (env : Environment) (format : OutputFormat) (runner : Runner Control Unit String) :
    List Input → StateM Run (Except Failure Unit)
  | [] => return .ok ()
  | input :: rest => do
    if format = .text then write ("Reading " ++ input.name ++ ".\n")
    match input.read env with
    | .error f => return .error f
    | .ok text =>
      let sink (r : Report) : StateM String (Except Failure Unit) := do
        modify (· ++ r.line format)
        return .ok ()
      match ← runner.runSource sink text input.name with
      | .error f => return .error f
      | .ok _ => runInputs env format runner rest

def errorText : Failure → String
  | .parse diagnostics => String.join (diagnostics.map fun d => d.display ++ "\n")
  | f => f.code.text ++ ": " ++ f.message ++ "\n"

def outputOf (env : Environment) (queried : Option UInt16) (i : Invocation) :
    Except Failure Unit × String :=
  let prepared : Except Failure (Config × List Input) := do
    let c ← config env i
    return (c, ← inputs env i c)
  match prepared with
  | .error f => (.error f, "")
  | .ok (c, inputs) =>
    let runner : Runner Control Unit String := ⟨pipeline i, .empty, options env queried c⟩
    let (r, s) := (runInputs env c.format runner inputs).run (.start () "")
    (r, s.outer)

def run (env : Environment) (i : Invocation) (queried : Option UInt16 := none) : Outcome :=
  match outputOf env queried i with
  | (.ok (), output) => ⟨0, output, ""⟩
  | (.error f, output) => ⟨1, output, errorText f⟩

end Command

end AnswerSetTest
