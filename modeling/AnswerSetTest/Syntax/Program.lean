import AnswerSetTest.Source.Span
import AnswerSetTest.Syntax.Token

/-!
# Programs

Terms, rules and the other statements of a program, and the units into which `#program`
statements divide it.
-/

namespace AnswerSetTest

inductive Term where
  | number (value : Int64)
  | text (value : String)
  | variable (name : String)
  | function (name : String) (args : List Term)
  | call (name : String) (args : List Term)
  | interval (low high : Term)
  | pool (alternatives : List Term)
deriving Inhabited

namespace Term

def constant (name : String) : Term := .function name []

mutual

def isGround : Term → Bool
  | .number _ | .text _ => true
  | .variable _ => false
  | .function _ args | .call _ args => areGround args
  | .interval low high => low.isGround && high.isGround
  | .pool alternatives => areGround alternatives

def areGround : List Term → Bool
  | [] => true
  | t :: ts => t.isGround && areGround ts

end

mutual

/-- Appends the named variables of a term that are not listed yet, in order of occurrence. The
variable `_` has no name. -/
def addVariables (found : List String) : Term → List String
  | .number _ | .text _ => found
  | .variable v => if v = "_" ∨ v ∈ found then found else found ++ [v]
  | .function _ args | .call _ args => addAllVariables found args
  | .interval low high => high.addVariables (low.addVariables found)
  | .pool alternatives => addAllVariables found alternatives

def addAllVariables (found : List String) : List Term → List String
  | [] => found
  | t :: ts => addAllVariables (t.addVariables found) ts

end

def vars (t : Term) : List String := t.addVariables []

mutual

def hasCall : Term → Bool
  | .number _ | .text _ | .variable _ => false
  | .function _ args => anyCall args
  | .call _ _ => true
  | .interval low high => low.hasCall || high.hasCall
  | .pool alternatives => anyCall alternatives

def anyCall : List Term → Bool
  | [] => false
  | t :: ts => t.hasCall || anyCall ts

end

def isNamed : Term → Bool
  | .function name _ => name != ""
  | _ => false

/-- What may stand where an atom is expected: a function term with a name, or a pool of them. -/
def isAtom : Term → Bool
  | .pool alternatives => alternatives.all isNamed
  | t => t.isNamed

mutual

def value? : Term → Option Symbol
  | .number n => some (.number n)
  | .text s => some (.text s)
  | .function name args => (values? args).map (.function name)
  | .variable _ | .call _ _ | .interval _ _ | .pool _ => none

def values? : List Term → Option (List Symbol)
  | [] => some []
  | t :: ts =>
    match t.value?, values? ts with
    | some v, some vs => some (v :: vs)
    | _, _ => none

end

mutual

def ofSymbol : Symbol → Term
  | .number n => .number n
  | .text s => .text s
  | .function name args => .function name (ofSymbols args)

def ofSymbols : List Symbol → List Term
  | [] => []
  | s :: ss => ofSymbol s :: ofSymbols ss

end

end Term

inductive Head where
  | atom (atom : Term)
  | disjunction (atoms : List Term)
  | choice (atoms : List Term)
  | falsity
deriving Inhabited

inductive Literal where
  | atom (negated : Bool) (atom : Term)
  | comparison (left : Term) (op : Comparison) (right : Term)
  | count (elements : List Term) (op : Comparison) (bound : Term)

structure Rule where
  head : Head
  body : List Literal
  span : Span
deriving Inhabited

/-- A parameter of a unit. A test unit reads its parameters as references to other units, whose
own parameters are bound to `args`. -/
structure Parameter where
  name : String
  args : List Term
  span : Span

structure UnitDeclaration where
  name : String
  parameters : List Parameter
  span : Span

def UnitDeclaration.parameterNames (d : UnitDeclaration) : List String :=
  d.parameters.map Parameter.name

/-- Without a signature, `showing` hides every atom. -/
inductive Statement where
  | unit (declaration : UnitDeclaration)
  | rule (rule : Rule)
  | external (atom : Term) (span : Span)
  | showing (signature : Option Signature) (span : Span)
  | defined (signature : Signature) (span : Span)

def Statement.span : Statement → Span
  | .unit d => d.span
  | .rule r => r.span
  | .external _ span | .showing _ span | .defined _ span => span

def rootUnit : String := "base"

structure Program where
  sourceName : String
  statements : List Statement

namespace Program

def declarations (p : Program) : List UnitDeclaration :=
  p.statements.filterMap fun
    | .unit d => some d
    | _ => none

/-- Pairs each statement with its unit, the one declared last before it. -/
def withUnits (current : String) : List Statement → List (String × Statement)
  | [] => []
  | .unit d :: rest => withUnits d.name rest
  | s :: rest => (current, s) :: withUnits current rest

def statementsByUnit (p : Program) : List (String × Statement) :=
  withUnits rootUnit p.statements

end Program

end AnswerSetTest
