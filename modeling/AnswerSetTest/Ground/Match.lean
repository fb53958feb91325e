import AnswerSetTest.Ground.Evaluation
import AnswerSetTest.Ground.Matching

/-!
# Matches

A match of a rule gives values to its variables and an atom to each of its positive literals.
Matches are found from left to right: each positive literal is matched with the known atoms, and
each comparison is applied as soon as its variables are bound, either to drop matches or, if it
equates a variable with a term, to bind the variable.
-/

namespace AnswerSetTest

/-- The atoms are those of the positive literals, in order. -/
structure Match where
  binding : Binding
  positives : List Symbol
deriving DecidableEq, Hashable, Inhabited

structure Constraint where
  left : Term
  op : Comparison
  right : Term

/-- Matches found so far, which bind exactly the variables listed. -/
structure Matches where
  bound : List String
  found : List Match

namespace Constraint

inductive Readiness where
  /-- all variables are bound -/
  | check
  /-- the variable is not bound, and the term has only bound variables -/
  | assign (v : String) (t : Term)
  | wait

def isReady (bound : List String) (t : Term) : Bool := t.vars.all fun v => v ∈ bound

/-- The side that is a variable to be bound, with the term that gives its values. -/
def assignment? (bound : List String) (c : Constraint) : Option (String × Term) :=
  match c.op, c.left, c.right with
  | .eq, .variable v, t =>
    if !isReady bound (.variable v) && isReady bound t then some (v, t)
    else
      match t with
      | .variable w =>
        if !isReady bound t && isReady bound (.variable v) then some (w, .variable v) else none
      | _ => none
  | .eq, t, .variable v =>
    if !isReady bound (.variable v) && isReady bound t then some (v, t) else none
  | _, _, _ => none

def readiness (bound : List String) (c : Constraint) : Readiness :=
  if isReady bound c.left && isReady bound c.right then .check
  else
    match c.assignment? bound with
    | some (v, t) => .assign v t
    | none => .wait

end Constraint

section

open Term (Evaluation eval)

variable {σ : Type} (answer : String → List Symbol → Evaluation σ Symbol)

namespace Constraint

def holds (c : Constraint) (b : Binding) : Evaluation σ Bool := do
  let lefts ← eval answer b c.left
  let rights ← eval answer b c.right
  return lefts.any fun l => rights.any fun r => c.op.holds l r

def keepOnto (c : Constraint) (before : List Match) : List Match → Evaluation σ (List Match)
  | [] => pure before.reverse
  | x :: xs => do
    if ← c.holds answer x.binding then keepOnto c (x :: before) xs else keepOnto c before xs

def keep (c : Constraint) (xs : List Match) : Evaluation σ (List Match) :=
  c.keepOnto answer [] xs

def bindOnto (v : String) (t : Term) (before : List Match) :
    List Match → Evaluation σ (List Match)
  | [] => pure before.reverse
  | x :: xs => do
    let values ← eval answer x.binding t
    let extended := values.map fun s => { x with binding := x.binding.insert v s }
    bindOnto v t (extended.reverse ++ before) xs

def bind (v : String) (t : Term) (xs : List Match) : Evaluation σ (List Match) :=
  bindOnto answer v t [] xs

/-- Goes once through the comparisons and applies those that are ready. Gives the others. -/
def sweep (ms : Matches) : List Constraint → Evaluation σ (List Constraint × Matches)
  | [] => pure ([], ms)
  | c :: cs =>
    match c.readiness ms.bound with
    | .check => do sweep { ms with found := ← c.keep answer ms.found } cs
    | .assign v t => do sweep ⟨v :: ms.bound, ← bind answer v t ms.found⟩ cs
    | .wait => do
      let (rest, ms) ← sweep ms cs
      return (c :: rest, ms)

def settleUpTo (ms : Matches) (cs : List Constraint) :
    (limit : Nat) → Evaluation σ (List Constraint × Matches)
  | 0 => pure (cs, ms)
  | limit + 1 => do
    let (rest, ms) ← sweep answer ms cs
    if rest.length = cs.length then return (rest, ms) else settleUpTo ms rest limit

/-- Applies comparisons until none is ready. Each sweep but the last applies one. -/
def settle (ms : Matches) (cs : List Constraint) : Evaluation σ (List Constraint × Matches) :=
  settleUpTo answer ms cs cs.length

end Constraint

def Match.extend (known : List Symbol) (atom : Term) (x : Match) : List Match :=
  known.filterMap fun s =>
    (atom.matchSymbol x.binding s).map fun b => ⟨b, x.positives ++ [s]⟩

namespace Rule

def constraints (r : Rule) : List Constraint :=
  r.body.filterMap fun
    | .comparison left op right => some ⟨left, op, right⟩
    | _ => none

def positives (r : Rule) : List Term :=
  r.body.filterMap fun
    | .atom false t => some t
    | _ => none

def unboundIn (bound : List String) (c : Constraint) : List String :=
  (c.left.vars ++ c.right.vars).filter fun v => v ∉ bound

/-- Matches the remaining positive literals. Without a match for one of them, the literals and
comparisons behind it are not looked at. -/
def matchesFrom (known : List Symbol) (ms : Matches) (cs : List Constraint) :
    List Term → Evaluation σ (List Match)
  | [] =>
    match cs with
    | [] => pure ms.found
    | c :: _ => throw (.unsafeComparison (unboundIn ms.bound c))
  | atom :: atoms => do
    if atom.hasCall then throw .callInPositiveLiteral
    else
      match ms.found.flatMap (Match.extend known atom) with
      | [] => return []
      | found => do
        let (cs, ms) ← Constraint.settle answer ⟨atom.vars ++ ms.bound, found⟩ cs
        matchesFrom known ms cs atoms

def findMatches (known : List Symbol) (r : Rule) : Evaluation σ (List Match) := do
  let (cs, ms) ← Constraint.settle answer ⟨[], [⟨.empty, []⟩]⟩ r.constraints
  matchesFrom answer known ms cs r.positives

end Rule

end

end AnswerSetTest
