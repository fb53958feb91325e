import AnswerSetTest.Ground.Lists
import AnswerSetTest.Syntax.Program

/-!
# Unpooling

A pool stands for its alternatives. In the head of a rule and in its literals a pool splits the
rule; in the elements of a disjunction, a choice or a count it adds elements.
-/

namespace AnswerSetTest

namespace Term

mutual

def unpool : Term → List Term
  | .pool alternatives => (unpoolAll alternatives).flatten
  | .function name args => (product (unpoolAll args)).map (.function name)
  | .call name args => (product (unpoolAll args)).map (.call name)
  | .interval low high =>
    let highs := high.unpool
    low.unpool.flatMap fun l => highs.map fun h => .interval l h
  | .number n => [.number n]
  | .text s => [.text s]
  | .variable v => [.variable v]

def unpoolAll : List Term → List (List Term)
  | [] => []
  | t :: ts => t.unpool :: unpoolAll ts

end

end Term

def Head.unpool : Head → List Head
  | .atom t => t.unpool.map .atom
  | .disjunction ts => [.disjunction (ts.flatMap Term.unpool)]
  | .choice ts => [.choice (ts.flatMap Term.unpool)]
  | .falsity => [.falsity]

def Literal.unpool : Literal → List Literal
  | .atom negated t => t.unpool.map (.atom negated)
  | .comparison left op right =>
    left.unpool.flatMap fun l => right.unpool.map fun r => .comparison l op r
  | .count elements op bound =>
    let elements := elements.flatMap Term.unpool
    bound.unpool.map fun b => .count elements op b

def Rule.unpool (r : Rule) : List Rule :=
  let bodies := product (r.body.map Literal.unpool)
  r.head.unpool.flatMap fun head => bodies.map fun body => { r with head, body }

end AnswerSetTest
