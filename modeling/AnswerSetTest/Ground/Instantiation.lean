import Std.Data.HashMap.Basic
import Std.Data.HashSet.Basic
import AnswerSetTest.Ground.Lists
import AnswerSetTest.Ground.Instance
import AnswerSetTest.Ground.Selection

/-!
# Instantiation

The instances of a selection's rules. Starting from the externals, each round matches every rule
with the atoms known so far, makes an instance for each match that is new, and adds the heads of
the new instances to the known atoms, until a round adds none. Negation and counts are left open,
so the known atoms are those that may become true.
-/

namespace AnswerSetTest

/-- A call in a comparison or a count bound of a rule, which is made once. -/
structure CallKey where
  rule : Nat
  name : String
  args : List Symbol
deriving DecidableEq, Hashable

structure Scratch (σ : Type) where
  world : σ
  answers : Std.HashMap CallKey Symbol

abbrev Grounding (σ : Type) := ExceptT GroundFault (StateM (Scratch σ))

namespace Grounding

open Term (Evaluation)

variable {σ : Type} (handler : Handler σ)

def answer (name : String) (args : List Symbol) : Evaluation (Scratch σ) Symbol := fun scratch =>
  match (handler.call name args).run scratch.world with
  | (.ok value, world) => (.ok value, { scratch with world })
  | (.error message, world) => (.error (.call name message), { scratch with world })

/-- Has a call answered by the handler, unless the rule made the same call before. -/
def answerOnce (rule : Nat) (name : String) (args : List Symbol) :
    Evaluation (Scratch σ) Symbol := do
  let key : CallKey := ⟨rule, name, args⟩
  match (← get).answers[key]? with
  | some value => return value
  | none =>
    let value ← answer handler name args
    modify fun scratch => { scratch with answers := scratch.answers.insert key value }
    return value

def locate {α : Type} (span : Span) (x : Evaluation (Scratch σ) α) : Grounding σ α :=
  ExceptT.adapt (.rule span) x

/-- The matches that have been instantiated, the instances, and the head atoms of those that the
current round made. -/
structure Progress where
  seen : Std.HashSet (Nat × Match)
  instances : Array Instance
  derived : List Symbol

def Progress.empty : Progress := ⟨∅, #[], []⟩

def instantiateMatches (rule : Rule) (index : Nat) (p : Progress) :
    List Match → Grounding σ Progress
  | [] => pure p
  | x :: xs =>
    if p.seen.contains (index, x) then instantiateMatches rule index p xs
    else do
      let i ← locate rule.span
        (Instance.ofMatch (answer handler) (answerOnce handler index) rule x)
      instantiateMatches rule index
        ⟨p.seen.insert (index, x), p.instances.push i, i.head ++ p.derived⟩ xs

def instantiateRule (known : List Symbol) (p : Progress) (rule : Rule × Nat) :
    Grounding σ Progress := do
  let found ← locate rule.1.span (rule.1.findMatches (answerOnce handler rule.2) known)
  instantiateMatches handler rule.1 rule.2 p found

def round (rules : List Rule) (known : List Symbol) (p : Progress) : Grounding σ Progress :=
  rules.zipIdx.foldlM (instantiateRule handler known) { p with derived := [] }

def instantiateUpTo (rules : List Rule) (known : List Symbol) (p : Progress) :
    (limit : Nat) → Grounding σ (List Symbol × Array Instance)
  | 0 => throw .tooManyAtoms
  | limit + 1 => do
    let p ← round handler rules known p
    let all := Atoms.union known (Atoms.ofList p.derived)
    if all.length > maxAtoms then throw .tooManyAtoms
    else if all.length = known.length then return (known, p.instances)
    else instantiateUpTo rules all p limit

/-- The known atoms and the instances of rules. Every round but the last adds an atom, so there
are not more rounds than atoms allowed and one. -/
def instantiate (rules : List Rule) (known : List Symbol) :
    Grounding σ (List Symbol × Array Instance) :=
  instantiateUpTo handler rules known .empty (maxAtoms + 1)

def externals (before : List Symbol) : List (Term × Span) → Grounding σ (List Symbol)
  | [] => pure (Atoms.ofList before)
  | (t, span) :: rest => do
    let values ← locate span do
      let values ← t.eval (answer handler) .empty
      requireAtoms values
      return values
    externals (values ++ before) rest

def ofSelection (s : Selection) : Grounding σ (List Symbol × Array Instance) := do
  let known ← externals handler [] s.externals
  instantiate handler s.rules known

end Grounding

end AnswerSetTest
