import Std.Data.TreeMap.Basic
import AnswerSetTest.Engine
import AnswerSetTest.Ground.Lists

/-!
# Assertion indices

The assertions that have to hold in every model, together with what was reported of the ground
program: the distinct non-empty bodies from which each atom is derived, and the symbol of each
atom. An assertion is ambiguous if its atom is derived from two bodies or more.
-/

namespace AnswerSetTest

def createAssertion : List Symbol → Except String (Symbol × Symbol)
  | [] => .error "assertion needs at least one argument"
  | [value] => .ok (value, .function "assert" [value])
  | args => .ok (.tuple args, .function "assert" [.tuple args])

/-- Assertions are in ascending order. A body is an ascending list of literals. -/
structure AssertionIndex where
  assertions : List Symbol
  bodies : Std.TreeMap AtomId (List (List SignedAtom))
  outputs : Std.TreeMap AtomId Symbol

namespace AssertionIndex

def empty : AssertionIndex := ⟨[], ∅, ∅⟩

def contains (x : AssertionIndex) (assertion : Symbol) : Bool := assertion ∈ x.assertions

def insert (x : AssertionIndex) (assertion : Symbol) : AssertionIndex :=
  { x with assertions := Atoms.insert assertion x.assertions }

def bodySet (body : List SignedAtom) : List SignedAtom :=
  ascending (fun a b => decide (a ≤ b)) body

def addBody (body : List SignedAtom) (bodies : Std.TreeMap AtomId (List (List SignedAtom)))
    (a : AtomId) : Std.TreeMap AtomId (List (List SignedAtom)) :=
  bodies.insert a (appendNew (bodies.getD a []) body)

/-- Notes the body of a rule for each head atom; rules without a body are not counted. -/
def recordRule (x : AssertionIndex) (head : List AtomId) (body : List SignedAtom) :
    AssertionIndex :=
  if body.isEmpty then x else { x with bodies := head.foldl (addBody (bodySet body)) x.bodies }

def recordOutput (x : AssertionIndex) (symbol : Symbol) (a : AtomId) : AssertionIndex :=
  { x with outputs := x.outputs.insert a symbol }

def distinctBodies (x : AssertionIndex) (a : AtomId) : Nat := (x.bodies.getD a []).length

/-- The assertion of the least atom that is derived from two bodies or more. -/
def ambiguous? (x : AssertionIndex) : Option Symbol :=
  (x.outputs.toList.find? fun (a, s) => 1 < x.distinctBodies a && x.contains s).map Prod.snd

def missingFrom (x : AssertionIndex) (m : Model) : List Symbol :=
  x.assertions.filter fun s => !m.contains s

end AssertionIndex

end AnswerSetTest
