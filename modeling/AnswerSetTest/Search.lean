import AnswerSetTest.AnswerSet
import AnswerSetTest.Engine

/-!
# Search

Every set of undetermined atoms, together with the facts, is a candidate. Candidates are the
numbers below a power of two: bit `i` stands for the atom at place `i` in ascending order. The
search goes through them in order and hands on those that are answer sets.
-/

namespace AnswerSetTest

def places (size : Nat) (listed : List AtomId) : Array (Option Nat) :=
  listed.zipIdx.foldl (fun places (a, i) => places.setIfInBounds a (some i))
    (Array.replicate size none)

/-- The facts and the atoms whose place is a bit of `mask`. -/
def Interpretation.ofMask (facts : Array Bool) (places : Array (Option Nat)) (mask : Nat) :
    Interpretation := fun a =>
  facts.getD a false ||
    match places.getD a none with
    | some i => mask.testBit i
    | none => false

def anyFrom (test : Nat → Bool) : (count first : Nat) → Bool
  | 0, _ => false
  | count + 1, first => test first || anyFrom test count (first + 1)

namespace GroundProgram

def isMinimal (p : GroundProgram) (undetermined : List AtomId) (I : Interpretation) : Bool :=
  let chosen := undetermined.filter I
  let places := places p.facts.size chosen
  let reduct := p.reduct I
  !anyFrom (fun mask =>
    reduct.all fun r => r.isSatisfiedWithin I (.ofMask p.facts places mask))
    (Nat.pow 2 chosen.length - 1) 0

def consequences (p : GroundProgram) (I : Interpretation) : Array Bool :=
  Clause.leastModel p.facts.size ((p.reduct I).flatMap (GroundRule.clausesWithin I))

def isFounded (p : GroundProgram) (I : Interpretation) : Bool :=
  let atoms := p.consequences I
  (List.range atoms.size).all fun a => atoms.getD a false == I a

def isDisjunctive (p : GroundProgram) : Bool :=
  p.rules.any fun r => r.kind = .disjunction

def isStable (p : GroundProgram) (undetermined : List AtomId) (I : Interpretation) : Bool :=
  if p.isDisjunctive then p.isMinimal undetermined I else p.isFounded I

/-- The model of an interpretation. Without a show statement every atom is shown. -/
def model (p : GroundProgram) (number : Nat) (I : Interpretation) : Model :=
  let atoms := (p.symbols.zipIdx 1).filterMap fun (s, a) => if I a then some s else none
  { number
    atoms
    shown := match p.shown with
      | none => atoms
      | some signatures => atoms.filter fun s => s.signature?.any fun f => f ∈ signatures }

variable {ω : Type}

/-- Goes through `count` candidates from `mask` on, after `found` models, until the callback
answers `false`. -/
def searchFrom (p : GroundProgram) (undetermined : List AtomId) (places : Array (Option Nat))
    (onModel : Model → StateM ω Bool) : (count mask found : Nat) → ω → Summary × ω
  | 0, _, found, world => (⟨found, true⟩, world)
  | count + 1, mask, found, world =>
    let I := Interpretation.ofMask p.facts places mask
    if p.isModel I && p.isStable undetermined I then
      match (onModel (p.model (found + 1) I)).run world with
      | (true, world) => searchFrom p undetermined places onModel count (mask + 1) (found + 1) world
      | (false, world) => (⟨found + 1, false⟩, world)
    else searchFrom p undetermined places onModel count (mask + 1) found world

def search (p : GroundProgram) (onModel : Model → StateM ω Bool) : StateM ω Summary :=
  let undetermined := p.undetermined
  searchFrom p undetermined (places p.facts.size undetermined) onModel
    (Nat.pow 2 undetermined.length) 0 0

end GroundProgram

end AnswerSetTest
