import AnswerSetTest.Syntax.Cursor
import AnswerSetTest.Syntax.Lexer
import AnswerSetTest.Syntax.Program

/-!
# Parsing

Statements are read one after another, each up to its dot. Where a statement cannot be read on,
the tokens through the next dot are skipped, so that every bad statement gives a diagnostic of its
own.
-/

namespace AnswerSetTest

open Reading

namespace Term

def ofAlternatives (build : List Term → Term) : List (List Term) → Term
  | [args] => build args
  | alternatives => .pool (alternatives.map build)

def readAlternatives (term : Reading Term) : Reading (List (List Term)) :=
  separated (take? .semicolon) do
    match ← next? with
    | some .rightParen | some .semicolon => return []
    | _ => separated (take? .comma) term

def readPrimary (term : Reading Term) : Reading Term := do
  match ← next? with
  | some (.number n) =>
    advance
    return .number n
  | some (.text s) =>
    advance
    return .text s
  | some (.variable v) =>
    advance
    return .variable v
  | some (.identifier name) =>
    advance
    if ← take? .leftParen then
      let alternatives ← readAlternatives term
      expect .rightParen "')'"
      return ofAlternatives (.function name) alternatives
    else
      return .constant name
  | some (.call name) =>
    advance
    if ← take? .leftParen then
      if ← take? .rightParen then
        return .call name []
      else
        let args ← separated (take? .comma) term
        expect .rightParen "')'"
        return .call name args
    else
      return .call name []
  | some .leftParen =>
    advance
    let alternatives ← readAlternatives term
    expect .rightParen "')'"
    match alternatives with
    | [[t]] => return t
    | _ => return ofAlternatives (.function "") alternatives
  | _ => unexpected "a term"

/-- A term with less than `depth` terms around any of its subterms. -/
def readWithin : (depth : Nat) → Reading Term
  | 0 => unexpected "a term"
  | depth + 1 => do
    let low ← readPrimary (readWithin depth)
    if ← take? .dots then
      return .interval low (← readPrimary (readWithin depth))
    else
      return low

/-- A term. As a subterm stands behind a parenthesis, the depth is less than the number of
tokens. -/
def read : Reading Term := do
  readWithin ((← get).rest.length + 1)

def requireAtom (t : Term) : Reading Unit := do
  unless t.isAtom do
    let start := match (← get).last with
      | some token => token.start
      | none => 0
    throw ⟨.parse, .notAnAtom, some (Span.locate (← MonadReader.read) start start)⟩

def readAtom : Reading Term := do
  let t ← read
  requireAtom t
  return t

end Term

def readElements : Reading (List Term) := do
  if ← take? .rightBrace then
    return []
  else
    let elements ← separated (take? .semicolon) Term.readAtom
    expect .rightBrace "'\x7d'"
    return elements

def Signature.read : Reading Signature := do
  let name ← identifier "a predicate name"
  expect .slash "'/'"
  match ← next? with
  | some (.number n) =>
    if n < 0 then
      unexpected "an arity"
    else
      advance
      return ⟨name, n.toInt.toNat⟩
  | _ => unexpected "an arity"

namespace Literal

/-- Whether `not` before this token is a predicate of its own and no negation. -/
def isAfterName : Option Token.Kind → Bool
  | some .leftParen | some .comma | some .dot | some .semicolon | some (.comparison _) => true
  | _ => false

def isNegation : Reading Bool := do
  match (← get).rest with
  | t :: ts => return t.kind = .identifier "not" && !isAfterName (ts.head?.map Token.kind)
  | [] => return false

def readCount : Reading Literal := do
  let elements ← readElements
  match ← comparison? with
  | some op => return .count elements op (← Term.read)
  | none => unexpected "a comparison after the count aggregate"

def read : Reading Literal := do
  if ← isNegation then
    advance
    return .atom true (← Term.readAtom)
  else
    let _ ← take? (.directive "count")
    if ← take? .leftBrace then
      readCount
    else
      let t ← Term.read
      match ← comparison? with
      | some op => return .comparison t op (← Term.read)
      | none =>
        Term.requireAtom t
        return .atom false t

end Literal

def Head.read : Reading Head := do
  if (← next?) = some .implies then
    return .falsity
  else if ← take? .leftBrace then
    return .choice (← readElements)
  else
    let first ← Term.readAtom
    if ← take? .semicolon then
      return .disjunction (first :: (← separated (take? .semicolon) Term.readAtom))
    else
      return .atom first

def readBody : Reading (List Literal) := do
  if ← take? .implies then
    if (← next?) = some .dot then
      return []
    else
      separated (do if ← take? .comma then return true else take? .semicolon) Literal.read
  else
    return []

def Rule.read (start : Nat) : Reading Rule := do
  let head ← Head.read
  let body ← readBody
  expect .dot "'.'"
  return ⟨head, body, ← spanFrom start⟩

def Parameter.read : Reading Parameter := do
  let start ← position
  let name ← identifier "a parameter name"
  if ← take? .leftParen then
    let args ← separated (take? .comma) Term.read
    expect .rightParen "')'"
    return ⟨name, args, ← spanFrom start⟩
  else
    return ⟨name, [], ← spanFrom start⟩

def UnitDeclaration.read (start : Nat) : Reading UnitDeclaration := do
  let name ← identifier "a program name"
  let parameters ← do
    if ← take? .leftParen then
      let parameters ← separated (take? .comma) Parameter.read
      expect .rightParen "')'"
      pure parameters
    else
      pure []
  expect .dot "'.'"
  return ⟨name, parameters, ← spanFrom start⟩

namespace Statement

def readDirective (start : Nat) (name : String) : Reading Statement := do
  match name with
  | "program" => return .unit (← UnitDeclaration.read start)
  | "external" =>
    let atom ← Term.readAtom
    expect .dot "'.'"
    return .external atom (← spanFrom start)
  | "show" =>
    if ← take? .dot then
      return .showing none (← spanFrom start)
    else
      let signature ← Signature.read
      expect .dot "'.'"
      return .showing (some signature) (← spanFrom start)
  | "defined" =>
    let signature ← Signature.read
    expect .dot "'.'"
    return .defined signature (← spanFrom start)
  | _ => throw ⟨.parse, .unsupportedDirective name, some (← spanFrom start)⟩

def read : Reading Statement := do
  let start ← position
  match ← next? with
  | some (.directive name) =>
    advance
    readDirective start name
  | _ => return .rule (← Rule.read start)

def skip (tokens : List Token) : List Token :=
  (tokens.dropWhile fun t => t.kind ≠ .dot).drop 1

/-- Reads at most `limit` statements, each from the tokens that the one before it left, or from
behind the next dot after the token at which that one could not be read on. -/
def readUpTo (source : Source) : (limit : Nat) → List Token → List (Except Diagnostic Statement)
  | 0, _ => []
  | _, [] => []
  | limit + 1, tokens =>
    match (read source).run.run ⟨none, tokens⟩ with
    | (.ok statement, cursor) => .ok statement :: readUpTo source limit cursor.rest
    | (.error d, cursor) => .error d :: readUpTo source limit (skip cursor.rest)

/-- Every statement takes a token, so there are no more of them than tokens. -/
def readAll (source : Source) (tokens : List Token) : List (Except Diagnostic Statement) :=
  readUpTo source tokens.length tokens

end Statement

namespace Program

def ofOutcomes (sourceName : String) (outcomes : List (Except Diagnostic Statement)) :
    Except (List Diagnostic) Program :=
  match outcomes.filterMap fun
      | .error d => some d
      | .ok _ => none with
  | [] =>
    .ok ⟨sourceName, outcomes.filterMap fun
      | .ok statement => some statement
      | .error _ => none⟩
  | problems => .error problems

def ofTokens (source : Source) (tokens : List Token) : Except (List Diagnostic) Program :=
  ofOutcomes (source.file.getD "<string>") (Statement.readAll source tokens)

/-- Reads a program, or gives a diagnostic for every lexical fault, or else for every statement
that cannot be read. -/
def parse (text : String) (file : Option String) : Except (List Diagnostic) Program := do
  let source : Source := ⟨text.toList, file⟩
  let tokens ← Token.scan source
  ofTokens source tokens

end Program

end AnswerSetTest
