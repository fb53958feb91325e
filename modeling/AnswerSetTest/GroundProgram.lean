import AnswerSetTest.Engine
import AnswerSetTest.Ground.Lists
import AnswerSetTest.Ground.Instance

/-!
# Ground programs

Rules over numbered atoms. The atoms of a ground program are numbered from one in the order of
their symbols.
-/

namespace AnswerSetTest

/-- Compares the number of true atoms among those listed with a bound. -/
structure CountAtom where
  atoms : List AtomId
  op : Comparison
  bound : Symbol
deriving DecidableEq, Hashable

structure GroundRule where
  kind : HeadKind
  head : List AtomId
  positives : List AtomId
  negatives : List AtomId
  counts : List CountAtom
deriving DecidableEq, Hashable

/-- The entry of `facts` at an atom's number tells whether the atom is a fact. -/
structure GroundProgram where
  symbols : List Symbol
  facts : Array Bool
  rules : List GroundRule
  shown : Option (List Signature)

structure Clause where
  head : AtomId
  body : List AtomId

namespace Clause

/-- Adds the head to a set of atoms that has the body but not the head, and notes the change. -/
def apply : Array Bool × Bool → Clause → Array Bool × Bool
  | (atoms, changed), c =>
    if c.body.all (fun a => atoms.getD a false) && !atoms.getD c.head false then
      (atoms.setIfInBounds c.head true, true)
    else (atoms, changed)

def saturate (clauses : List Clause) : (limit : Nat) → Array Bool → Array Bool
  | 0, atoms => atoms
  | limit + 1, atoms =>
    match clauses.foldl apply (atoms, false) with
    | (atoms, true) => saturate clauses limit atoms
    | (atoms, false) => atoms

/-- The least set of atoms below `size` that is closed under the clauses. Every turn but the last
adds an atom. -/
def leastModel (size : Nat) (clauses : List Clause) : Array Bool :=
  saturate clauses size (Array.replicate size false)

end Clause

namespace GroundProgram

def empty : GroundProgram := ⟨[], #[false], [], none⟩

instance : Inhabited GroundProgram := ⟨empty⟩

def isFact (p : GroundProgram) (a : AtomId) : Bool := p.facts.getD a false

def undetermined (p : GroundProgram) : List AtomId :=
  ascending (fun a b => decide (a ≤ b))
    ((p.rules.flatMap GroundRule.head).filter fun a => !p.isFact a)

end GroundProgram

end AnswerSetTest
