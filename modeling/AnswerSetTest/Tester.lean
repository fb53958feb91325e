import AnswerSetTest.AssertionIndex
import AnswerSetTest.Failure
import AnswerSetTest.FunctionTable
import AnswerSetTest.Report
import AnswerSetTest.Syntax.Program
import AnswerSetTest.Text.Columns

/-!
# Testers

The checks of one unit. While the unit is grounded its tester takes the calls `@all`, `@any` and
`@models` and notes the ground program; then it checks each model; at the end it gives a report or
the failure. The first failure of a model is final.
-/

namespace AnswerSetTest

/-- No model may contain an atom of a constraint predicate with one or two arguments. Models in
messages are set in columns of a terminal of the given width. -/
structure TesterOptions where
  constraints : List String
  width : Nat

def TesterOptions.defaultConstraints : List String := ["none", "cannot"]

inductive Tester.Phase where
  | collecting
  | solving
  | failed (failure : Failure)
deriving DecidableEq

/-- The tester of one unit. `pending` are the `@any` assertions that no model had yet, in ascending
order. -/
structure Tester where
  unit : String
  file : String
  options : TesterOptions
  index : AssertionIndex
  pending : List Symbol
  seen : Nat
  expected : Option Nat
  warnings : List String
  phase : Tester.Phase

namespace Tester

def new (unit file : String) (options : TesterOptions) : Tester :=
  { unit, file, options, index := .empty, pending := [], seen := 0, expected := none,
    warnings := [], phase := .collecting }

def all (args : List Symbol) : StateM Tester (Except String Symbol) := do
  match createAssertion args with
  | .error message => return .error message
  | .ok (value, assertion) =>
    modify fun t => { t with index := t.index.insert assertion }
    return .ok value

def any (args : List Symbol) : StateM Tester (Except String Symbol) := do
  match createAssertion args with
  | .error message => return .error message
  | .ok (value, assertion) =>
    modify fun t =>
      if assertion ∈ t.pending then
        let warning := "duplicate assert: " ++ assertion.display ++ " in " ++ t.unit
        { t with warnings := t.warnings ++ [warning] }
      else { t with pending := Atoms.insert assertion t.pending }
    return .ok value

def models : List Symbol → StateM Tester (Except String Symbol)
  | [.number n] => do
    if n < 0 then
      return .error ("@models expects a non-negative count, got " ++ toString n.toInt)
    else
      modify fun t => { t with expected := some n.toInt.toNat }
      all [.function "models" [.number n]]
  | _ => return .error "@models expects a single integer argument"

def function? (name : String) : Option (Function Tester) :=
  match name with
  | "all" => some all
  | "any" => some any
  | "models" => some models
  | _ => none

def call (name : String) (args : List Symbol) : StateM Tester (Except String Symbol) :=
  match function? name with
  | some f => f args
  | none => return .error (FunctionTable.unknown name)

def fail (t : Tester) (f : Failure) : Tester := { t with phase := .failed f }

def hasFailed (t : Tester) : Bool :=
  match t.phase with
  | .failed _ => true
  | _ => false

def statedCount? (m : Model) : Option Nat :=
  match (m.withSignature "models" 1).findSome? fun s => s.args.head?.bind Symbol.number? with
  | some n => if n < 0 then none else some n.toInt.toNat
  | none => none

def ensured (m : Model) : List Symbol :=
  (m.withSignature "ensure" 1).filterMap fun s => s.args.head?

def forbidden (constraints : List String) (m : Model) : List Symbol :=
  constraints.flatMap fun name => m.withSignature name 1 ++ m.withSignature name 2

def rejection (t : Tester) (m : Model) (failures : List Symbol) : String :=
  "MODEL:\n" ++ Text.columns t.options.width (m.shown.map Symbol.display) ++ "\nFailures in " ++
    t.file ++ ", #program " ++ t.unit ++ "():\n" ++ Symbol.displayAll ", " failures ++ "\n"

def countModel (t : Tester) (m : Model) : Tester :=
  { t with
    phase := .solving
    seen := t.seen + 1
    expected := match t.expected with
      | some n => some n
      | none => statedCount? m }

/-- Adds the assertions that a model ensures, and drops the pending ones that it has. -/
def absorb (t : Tester) (m : Model) : Tester :=
  { t with
    index := (ensured m).foldl AssertionIndex.insert t.index
    pending := t.pending.filter fun s => !m.contains s }

def checkModel (t : Tester) (m : Model) : Tester :=
  let t := t.absorb m
  match t.index.missingFrom m ++ forbidden t.options.constraints m with
  | [] => t
  | failures => t.fail (.assertion t.unit t.file failures (t.rejection m failures))

def addModel (t : Tester) (m : Model) : Tester :=
  if t.hasFailed then t
  else
    let t := t.countModel m
    match t.index.ambiguous? with
    | some assertion => t.fail (.ambiguous t.unit assertion)
    | none => t.checkModel m

def onModel (m : Model) : StateM Tester Bool := do
  modify fun t => t.addModel m
  return !(← get).hasFailed

def countFailure? (t : Tester) : Option Failure :=
  if t.seen = 0 then some (.noModels t.unit t.file)
  else
    match t.expected with
    | none => some (.modelCountUndeclared t.unit t.file t.seen)
    | some n => if n = t.seen then none else some (.modelCount n t.seen)

/-- The verdict once there are no more models. The number of models matters only if there are
assertions and the unit is not the root. -/
def report (t : Tester) : Except Failure Report := do
  if let .failed f := t.phase then throw f
  unless t.index.assertions.isEmpty || t.unit = rootUnit do
    if let some f := t.countFailure? then throw f
  unless t.pending.isEmpty do throw (.missingAny t.seen t.pending)
  return {
    unit := t.unit
    file := t.file
    assertions := t.index.assertions.map Symbol.display
    assertionCount := t.index.assertions.length
    modelCount := t.seen }

def handler : Handler Tester where
  call := call
  rule _ head body := modify fun t => { t with index := t.index.recordRule head body }
  output symbol a := modify fun t => { t with index := t.index.recordOutput symbol a }

def callWith {φ : Type} (functions : FunctionTable φ) (name : String) (args : List Symbol) :
    StateM (Tester × φ) (Except String Symbol) := fun (t, state) =>
  match function? name with
  | some f =>
    let (answer, t) := (f args).run t
    (answer, t, state)
  | none =>
    let (answer, state) := (functions.call name args).run state
    (answer, t, state)

end Tester

end AnswerSetTest
