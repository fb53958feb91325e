import AnswerSetTest.Symbol

/-!
# The interface of solvers

What a solver is asked for and what it hands over: it grounds parts of a program, and tells a
handler of ground rules and of the symbols of atoms, and has it answer calls of functions; then it
hands over models. The handler's effects are changes of a state `σ`.
-/

namespace AnswerSetTest

/-- A unit name with the values bound to the unit's parameters. -/
structure Part where
  name : String
  args : List Symbol
deriving DecidableEq, Hashable

def Part.display (p : Part) : String := p.name ++ "(" ++ Symbol.displayAll "," p.args ++ ")"

abbrev AtomId := Nat

/-- An atom's number, negative under default negation. -/
abbrev SignedAtom := Int

structure Handler (σ : Type) where
  call : String → List Symbol → StateM σ (Except String Symbol)
  rule : (choice : Bool) → (head : List AtomId) → (body : List SignedAtom) → StateM σ Unit
  output : Symbol → AtomId → StateM σ Unit

/-- The answer to a call depends on the function's name and arguments alone. -/
def Handler.AnswersBy {σ : Type} (h : Handler σ)
    (answer : String → List Symbol → Except String Symbol) : Prop :=
  ∀ name args state, ((h.call name args).run state).1 = answer name args

/-- An answer set with its number in the enumeration. The atoms are in ascending order. -/
structure Model where
  number : Nat
  atoms : List Symbol
  shown : List Symbol

def Model.contains (m : Model) (s : Symbol) : Bool := s ∈ m.atoms

def Model.withSignature (m : Model) (name : String) (arity : Nat) : List Symbol :=
  m.atoms.filter fun s => s.hasSignature name arity

structure Summary where
  models : Nat
  exhausted : Bool
deriving DecidableEq

end AnswerSetTest
