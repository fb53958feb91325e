import AnswerSetTest.GroundProgram

/-!
# Tests of answer sets

An interpretation says which atoms are true. The search tests whether it satisfies every rule, and
whether another one satisfies its reduct: the rules whose negative literals and counts it makes
true, where a choice forces only those of its atoms that it contains.
-/

namespace AnswerSetTest

abbrev Interpretation := AtomId → Bool

def CountAtom.holds (c : CountAtom) (I : Interpretation) : Bool :=
  c.op.holds (.number (Int64.ofNat (c.atoms.countP I))) c.bound

namespace GroundRule

def survives (r : GroundRule) (I : Interpretation) : Bool :=
  r.negatives.all (fun a => !I a) && r.counts.all fun c => c.holds I

def bodyHolds (r : GroundRule) (I : Interpretation) : Bool :=
  r.positives.all I && r.survives I

def isSatisfied (r : GroundRule) (I : Interpretation) : Bool :=
  !r.bodyHolds I ||
    match r.kind with
    | .normal | .disjunction => r.head.any I
    | .choice => true
    | .falsity => false

def isSatisfiedWithin (r : GroundRule) (I J : Interpretation) : Bool :=
  !r.positives.all J ||
    match r.kind with
    | .normal | .disjunction => r.head.any J
    | .choice => r.head.all fun a => !I a || J a
    | .falsity => true

/-- The clauses of a rule of the reduct: its head atoms from its positive body, those of a choice
only if they are in `I`. -/
def clausesWithin (I : Interpretation) (r : GroundRule) : List Clause :=
  (r.head.filter fun a => r.kind = .normal || I a).map fun a => ⟨a, r.positives⟩

end GroundRule

namespace GroundProgram

def isModel (p : GroundProgram) (I : Interpretation) : Bool :=
  p.rules.all fun r => r.isSatisfied I

def reduct (p : GroundProgram) (I : Interpretation) : List GroundRule :=
  p.rules.filter fun r => r.kind ≠ .falsity && r.survives I

def satisfiesReduct (p : GroundProgram) (I J : Interpretation) : Bool :=
  (p.reduct I).all fun r => r.isSatisfiedWithin I J

end GroundProgram

end AnswerSetTest
