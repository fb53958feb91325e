import AnswerSetTest.Engine
import AnswerSetTest.Ground.Match

/-!
# Instances

The instance of a rule under one match: its atoms are symbols, and its counts wait until all atoms
are known.
-/

namespace AnswerSetTest

inductive HeadKind where
  | normal | disjunction | choice | falsity
deriving DecidableEq, Hashable

/-- A count whose elements are matched with the known atoms later, under the binding. -/
structure PendingCount where
  elements : List Term
  binding : Binding
  op : Comparison
  bound : Symbol

/-- A normal instance with several head atoms stands for one rule for each of them. -/
structure Instance where
  kind : HeadKind
  head : List Symbol
  positives : List Symbol
  negatives : List Symbol
  counts : List PendingCount

section

open Term (Evaluation eval)

def requireAtoms {σ : Type} : List Symbol → Evaluation σ Unit
  | [] => pure ()
  | s :: ss => if s.isAtom then requireAtoms ss else throw (.notAnAtom s)

def Head.kind : Head → HeadKind
  | .atom _ => .normal
  | .disjunction _ => .disjunction
  | .choice _ => .choice
  | .falsity => .falsity

def Head.atoms : Head → List Term
  | .atom t => [t]
  | .disjunction ts | .choice ts => ts
  | .falsity => []

namespace Instance

variable {σ : Type} (answer answerOnce : String → List Symbol → Evaluation σ Symbol)

def headAtoms (b : Binding) (before : List Symbol) : List Term → Evaluation σ (List Symbol)
  | [] => pure before
  | t :: ts => do
    let values ← eval answer b t
    requireAtoms values
    headAtoms b (values.foldl appendNew before) ts

/-- A disjunction of one atom is a normal head. -/
def kindOf (head : Head) (atoms : List Symbol) : HeadKind :=
  if head.kind = .disjunction ∧ atoms.length = 1 then .normal else head.kind

def addBody (b : Binding) (i : Instance) : List Literal → Evaluation σ Instance
  | [] => pure i
  | .atom true t :: rest => do
    let values ← eval answer b t
    addBody b { i with negatives := i.negatives ++ values } rest
  | .count elements op bound :: rest => do
    match ← eval answerOnce b bound with
    | [bound] => addBody b { i with counts := i.counts ++ [⟨elements, b, op, bound⟩] } rest
    | _ => throw .countBound
  | .atom false _ :: rest | .comparison .. :: rest => addBody b i rest

/-- The instance of a rule under a match. Calls in the head and in negative literals are answered
by `answer`, those in count bounds by `answerOnce`. -/
def ofMatch (r : Rule) (x : Match) : Evaluation σ Instance := do
  let head ← headAtoms answer x.binding [] r.head.atoms
  addBody answer answerOnce x.binding ⟨kindOf r.head head, head, x.positives, [], []⟩ r.body

end Instance

end

end AnswerSetTest
