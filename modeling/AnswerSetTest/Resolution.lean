import AnswerSetTest.Ground.Lists
import AnswerSetTest.Registry

/-!
# Resolution

The parts that have to be grounded for a unit: the root unit, the unit itself, and the units that
it depends on directly.
-/

namespace AnswerSetTest

/-- The value of a unit's own parameter is the constant of its name, so that putting it in leaves
the unit's text as it is. -/
def placeholder (parameter : String) : Symbol := .constant parameter

def rootPart : Part := ⟨rootUnit, []⟩

namespace ProgramUnit

def ownPart (u : ProgramUnit) : Part := ⟨u.name, u.parameters.map placeholder⟩

def dependencyPart (r : Registry) (u : ProgramUnit) (d : Dependency) : Except Failure Part :=
  match r.get? d.target with
  | none => .error (.unknownDependency u.name d.target)
  | some target =>
    if target.parameters.length ≠ d.args.length then
      .error (.argumentMismatch u.name d.target target.parameters d.args)
    else .ok ⟨target.name, d.args⟩

def resolve (r : Registry) (u : ProgramUnit) : Except Failure (List Part) := do
  return firstOccurrences (rootPart :: u.ownPart :: (← u.dependencies.mapM (dependencyPart r u)))

end ProgramUnit

end AnswerSetTest
