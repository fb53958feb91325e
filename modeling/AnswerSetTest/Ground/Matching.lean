import AnswerSetTest.Ground.Binding
import AnswerSetTest.Syntax.Program

/-!
# Matching

Matching a term with a symbol extends a binding so that the term stands for the symbol. The
variable `_` matches everything and is never bound, an interval matches the integers between
bounds that are known, and a call matches nothing.
-/

namespace AnswerSetTest.Term

def boundNumber? (b : Binding) : Term → Option Int64
  | .number n => some n
  | .variable v => (b.get? v).bind Symbol.number?
  | _ => none

def matchVariable (b : Binding) (v : String) (value : Symbol) : Option Binding :=
  if v = "_" then some b
  else
    match b.get? v with
    | some s => if s = value then some b else none
    | none => some (b.insert v value)

def matchInterval (b : Binding) (low high : Option Int64) (n : Int64) : Option Binding :=
  match low, high with
  | some l, some h => if l ≤ n ∧ n ≤ h then some b else none
  | _, _ => none

mutual

/-- Extends a binding so that the term stands for the symbol, if that can be done. -/
def matchSymbol (b : Binding) : Term → Symbol → Option Binding
  | .variable v, value => matchVariable b v value
  | .number n, .number m => if n = m then some b else none
  | .text s, .text t => if s = t then some b else none
  | .function f args, .function g values =>
    if f = g ∧ args.length = values.length then matchAll b args values else none
  | .interval low high, .number n => matchInterval b (low.boundNumber? b) (high.boundNumber? b) n
  | .pool alternatives, value => matchAny b alternatives value
  | _, _ => none

def matchAll (b : Binding) : List Term → List Symbol → Option Binding
  | t :: ts, s :: ss =>
    match matchSymbol b t s with
    | some b' => matchAll b' ts ss
    | none => none
  | _, _ => some b

def matchAny (b : Binding) : List Term → Symbol → Option Binding
  | [], _ => none
  | t :: ts, value =>
    match matchSymbol b t value with
    | some b' => some b'
    | none => matchAny b ts value

end

end AnswerSetTest.Term
