import AnswerSetTest.Failure
import AnswerSetTest.Ground.Unpooling

/-!
# Selections

The statements of a program that belong to given parts, with the parameters of each part's unit
replaced by the part's values and all pools expanded.
-/

namespace AnswerSetTest

/-- Values for parameter names. A name that is given twice has its last value. -/
abbrev Substitution := List (String × Symbol)

def Substitution.value? (σ : Substitution) (name : String) : Option Symbol :=
  (σ.reverse.find? fun e => e.1 == name).map Prod.snd

namespace Term

mutual

def substitute (σ : Substitution) : Term → Term
  | .function name [] =>
    match σ.value? name with
    | some value => ofSymbol value
    | none => .function name []
  | .function name (t :: ts) => .function name (t.substitute σ :: substituteAll σ ts)
  | .call name args => .call name (substituteAll σ args)
  | .interval low high => .interval (low.substitute σ) (high.substitute σ)
  | .pool alternatives => .pool (substituteAll σ alternatives)
  | .number n => .number n
  | .text s => .text s
  | .variable v => .variable v

def substituteAll (σ : Substitution) : List Term → List Term
  | [] => []
  | t :: ts => t.substitute σ :: substituteAll σ ts

end

mutual

/-- Replaces the parameters in an atom, whose own name is no parameter. -/
def substituteAtom (σ : Substitution) : Term → Term
  | .function name args => .function name (substituteAll σ args)
  | .pool alternatives => .pool (substituteAtoms σ alternatives)
  | .call name args => .call name (substituteAll σ args)
  | .interval low high => .interval (low.substitute σ) (high.substitute σ)
  | .number n => .number n
  | .text s => .text s
  | .variable v => .variable v

def substituteAtoms (σ : Substitution) : List Term → List Term
  | [] => []
  | t :: ts => t.substituteAtom σ :: substituteAtoms σ ts

end

end Term

def Head.substitute (σ : Substitution) : Head → Head
  | .atom t => .atom (t.substituteAtom σ)
  | .disjunction ts => .disjunction (Term.substituteAtoms σ ts)
  | .choice ts => .choice (Term.substituteAtoms σ ts)
  | .falsity => .falsity

def Literal.substitute (σ : Substitution) : Literal → Literal
  | .atom negated t => .atom negated (t.substituteAtom σ)
  | .comparison left op right => .comparison (left.substitute σ) op (right.substitute σ)
  | .count elements op bound => .count (Term.substituteAtoms σ elements) op (bound.substitute σ)

def Rule.substitute (σ : Substitution) (r : Rule) : Rule :=
  { r with head := r.head.substitute σ, body := r.body.map (Literal.substitute σ) }

/-- The shown signatures, if any statement shows or hides atoms. -/
structure Selection where
  rules : List Rule
  externals : List (Term × Span)
  shown : Option (List Signature)

namespace Selection

def empty : Selection := ⟨[], [], none⟩

def add (σ : Substitution) (s : Selection) : Statement → Selection
  | .rule r => { s with rules := s.rules ++ (r.substitute σ).unpool }
  | .external atom span =>
    { s with externals := s.externals ++ (atom.substituteAtom σ).unpool.map fun t => (t, span) }
  | .showing signature _ => { s with shown := some (s.shown.getD [] ++ signature.toList) }
  | .defined .. | .unit _ => s

end Selection

namespace Program

/-- The parameters of a unit's first declaration. The root unit has none, nor has a unit that is
not declared. -/
def parametersOf (p : Program) (name : String) : List String :=
  if name = rootUnit then []
  else
    match p.declarations.find? fun d => d.name == name with
    | some d => d.parameterNames
    | none => []

def statementsOf (p : Program) (name : String) : List Statement :=
  (p.statementsByUnit.filter fun s => s.1 == name).map Prod.snd

def selectPart (p : Program) (s : Selection) (part : Part) : Except GroundFault Selection :=
  let parameters := p.parametersOf part.name
  if parameters.length ≠ part.args.length then
    .error (.partArity part parameters.length)
  else
    .ok ((p.statementsOf part.name).foldl (Selection.add (parameters.zip part.args)) s)

def select (p : Program) (parts : List Part) : Except GroundFault Selection :=
  (firstOccurrences parts).foldlM p.selectPart .empty

end Program

end AnswerSetTest
