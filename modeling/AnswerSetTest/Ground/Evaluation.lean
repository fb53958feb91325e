import AnswerSetTest.Failure
import AnswerSetTest.Ground.Binding
import AnswerSetTest.Ground.Lists
import AnswerSetTest.Syntax.Program

/-!
# Evaluation

The values of a term under a binding. Intervals and pools have several values and so have the
terms around them; calls are answered by a given function, from left to right.
-/

namespace AnswerSetTest.Term

def maxInterval : Int := 10000

def interval.values (low high : Int64) : List Symbol :=
  (List.range (high.toInt + 1 - low.toInt).toNat).map fun (i : Nat) =>
    .number (Int64.ofInt (low.toInt + i))

section

variable {σ : Type}

/-- What an evaluation gives, or why there is no value, and how calls change the state. -/
abbrev Evaluation (σ : Type) := ExceptT RuleFault (StateM σ)

def singleNumber : List Symbol → Evaluation σ Int64
  | [.number n] => pure n
  | _ => throw .intervalBounds

def expandInterval (low high : Int64) : Evaluation σ (List Symbol) :=
  if high.toInt - low.toInt > maxInterval then throw (.intervalTooLarge low high)
  else pure (interval.values low high)

mutual

def eval (answer : String → List Symbol → Evaluation σ Symbol) (b : Binding) :
    Term → Evaluation σ (List Symbol)
  | .number n => pure [.number n]
  | .text s => pure [.text s]
  | .variable v =>
    match b.get? v with
    | some s => pure [s]
    | none => throw (.unsafeVariable v)
  | .function name args => do
    return (product (← evalAll answer b args)).map (.function name)
  | .call name args => do
    (product (← evalAll answer b args)).mapM (answer name)
  | .interval low high => do
    let low ← singleNumber (← eval answer b low)
    let high ← singleNumber (← eval answer b high)
    expandInterval low high
  | .pool alternatives => do
    return (← evalAll answer b alternatives).flatten

def evalAll (answer : String → List Symbol → Evaluation σ Symbol) (b : Binding) :
    List Term → Evaluation σ (List (List Symbol))
  | [] => pure []
  | t :: ts => do
    let values ← eval answer b t
    return values :: (← evalAll answer b ts)

end

end

end AnswerSetTest.Term
