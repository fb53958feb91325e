import AnswerSetTest.Source.Diagnostic

/-!
# Reading tokens

A cursor stands between the tokens read and those to be read. A `Reading` moves a cursor and gives
a result, or stops with a diagnostic and leaves the cursor where it stopped. Readings are put
together from `next?`, `take?` and `separated`, which repeats a reading as long as separators
follow.
-/

namespace AnswerSetTest

structure Cursor where
  last : Option Token
  rest : List Token

abbrev Reading := ReaderT Source (ExceptT Diagnostic (StateM Cursor))

namespace Reading

def next? : Reading (Option Token.Kind) := do
  return (← get).rest.head?.map Token.kind

def advance : Reading Unit :=
  modify fun c =>
    match c.rest with
    | [] => c
    | t :: ts => ⟨some t, ts⟩

def take? (kind : Token.Kind) : Reading Bool := do
  if (← next?) = some kind then
    advance
    return true
  else
    return false

def position : Reading Nat := do
  match (← get).rest with
  | t :: _ => return t.start
  | [] => return byteSize (← read).chars

def spanFrom (start : Nat) : Reading Span := do
  let stop := match (← get).last with
    | some t => t.stop
    | none => start
  return Span.locate (← read) start (max start stop)

def unexpected {α : Type} (what : String) : Reading α := do
  let source ← read
  let size := byteSize source.chars
  match (← get).rest with
  | t :: _ =>
    throw ⟨.parse, .expected what (some t.kind), some (Span.locate source t.start t.stop)⟩
  | [] => throw ⟨.parse, .expected what none, some (Span.locate source size size)⟩

def expect (kind : Token.Kind) (what : String) : Reading Unit := do
  unless ← take? kind do unexpected what

def identifier (what : String) : Reading String := do
  match ← next? with
  | some (.identifier name) =>
    advance
    return name
  | _ => unexpected what

def comparison? : Reading (Option Comparison) := do
  match ← next? with
  | some (.comparison op) =>
    advance
    return some op
  | _ => return none

def separatedUpTo {α : Type} (separator : Reading Bool) (item : Reading α) :
    (limit : Nat) → Reading (List α)
  | 0 => return [← item]
  | limit + 1 => do
    let first ← item
    if ← separator then
      return first :: (← separatedUpTo separator item limit)
    else
      return [first]

/-- One or more items with separators between them. As a separator takes a token, there are no
more of them than tokens. -/
def separated {α : Type} (separator : Reading Bool) (item : Reading α) : Reading (List α) := do
  separatedUpTo separator item (← get).rest.length

end Reading

end AnswerSetTest
