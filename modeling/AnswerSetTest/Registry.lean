import AnswerSetTest.Failure
import AnswerSetTest.Syntax.Program

/-!
# Registries

The units of a program in the order of their declarations, and which of them are test units. A
unit reads its parameters as references to the units that it depends on.
-/

namespace AnswerSetTest

structure Dependency where
  target : String
  args : List Symbol
deriving DecidableEq

structure ProgramUnit where
  name : String
  parameters : List String
  dependencies : List Dependency
  file : String
  line : Nat
deriving DecidableEq

namespace ProgramUnit

def root (file : String) : ProgramUnit := ⟨rootUnit, [], [], file, 1⟩

def isRoot (u : ProgramUnit) : Bool := u.name = rootUnit

def location (u : ProgramUnit) : String := u.file ++ ":" ++ toString u.line

def dependency (d : UnitDeclaration) (p : Parameter) : Except Failure Dependency :=
  match Term.values? p.args with
  | some args => .ok ⟨p.name, args⟩
  | none => .error (.parse [⟨.dependency, .variableArguments p.name d.name, some p.span⟩])

def ofDeclaration (defaultFile : String) (d : UnitDeclaration) : Except Failure ProgramUnit := do
  return {
    name := d.name
    parameters := d.parameterNames
    dependencies := ← d.parameters.mapM (dependency d)
    file := d.span.file.getD defaultFile
    line := d.span.line }

end ProgramUnit

/-- The root unit comes first. -/
structure Registry where
  units : List ProgramUnit
  tests : List String

namespace Registry

def new (rootFile : String) : Registry := ⟨[.root rootFile], []⟩

def get? (r : Registry) (name : String) : Option ProgramUnit :=
  r.units.find? fun u => u.name == name

def contains (r : Registry) (name : String) : Bool := (r.get? name).isSome

def root (r : Registry) : ProgramUnit := (r.get? rootUnit).getD (.root "")

/-- Adds a unit, whose name has to be new. The root unit may be declared again, which changes
nothing. -/
def register (r : Registry) (u : ProgramUnit) (isTest : Bool) : Except Failure Registry :=
  if u.isRoot then .ok r
  else if r.contains u.name then .error (.duplicateUnit u.name u.file)
  else .ok ⟨r.units ++ [u], if isTest then r.tests ++ [u.name] else r.tests⟩

def ofProgram (isTest : String → Bool) (p : Program) : Except Failure Registry :=
  p.declarations.foldlM (fun r d => do
    let u ← ProgramUnit.ofDeclaration p.sourceName d
    r.register u (isTest u.name)) (new p.sourceName)

/-- The test units by file, and in order of registration within a file. -/
def testUnits (r : Registry) : List ProgramUnit :=
  (r.tests.filterMap r.get?).mergeSort fun u v => decide (u.file ≤ v.file)

end Registry

end AnswerSetTest
