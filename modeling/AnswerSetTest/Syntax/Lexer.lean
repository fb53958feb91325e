import AnswerSetTest.Source.Diagnostic

/-!
# Lexemes

A text is cut into pieces from left to right. A piece is blank (white space or a comment), a
token, or a fault. The tokens of a text are those of its pieces if there is no fault among them.
-/

namespace AnswerSetTest

inductive Piece.Outcome where
  | blank
  | token (kind : Token.Kind)
  | fault (problem : Problem)

/-- The first piece of a text, the characters it takes, and the rest of the text. -/
structure Piece where
  outcome : Piece.Outcome
  taken : List Char
  rest : List Char

namespace Piece

/-- White space between tokens is ASCII white space other than the vertical tab. -/
def isSpace (c : Char) : Bool :=
  c == ' ' || c == '\t' || c == '\n' || c == '\x0c' || c == '\r'

def isWordChar (c : Char) : Bool := c.isAlphanum || c == '_'

def blockComment? : List Char → Option (List Char × List Char)
  | [] => none
  | '*' :: '%' :: rest => some (['*', '%'], rest)
  | c :: cs => (blockComment? cs).map fun (taken, rest) => (c :: taken, rest)

structure Quoted where
  value : List Char
  taken : List Char
  rest : List Char

def unescape (c : Char) : Char :=
  if c = 'n' then '\n' else if c = 't' then '\t' else c

def quoted? : List Char → Option Quoted
  | [] => none
  | '"' :: cs => some ⟨[], ['"'], cs⟩
  | ['\\'] => none
  | '\\' :: c :: cs =>
    (quoted? cs).map fun q => ⟨unescape c :: q.value, '\\' :: c :: q.taken, q.rest⟩
  | c :: cs => (quoted? cs).map fun q => ⟨c :: q.value, c :: q.taken, q.rest⟩

def integer? (negative : Bool) (digits : List Char) : Option Int64 :=
  let magnitude : Int := Nat.ofDigitChars 10 digits 0
  let n := if negative then -magnitude else magnitude
  if Int64.minValue.toInt ≤ n ∧ n ≤ Int64.maxValue.toInt then some (Int64.ofInt n) else none

def number (negative : Bool) (c : Char) (cs : List Char) : Piece :=
  let taken := c :: cs.takeWhile Char.isDigit
  let rest := cs.dropWhile Char.isDigit
  match integer? negative (if negative then taken.drop 1 else taken) with
  | some n => ⟨.token (.number n), taken, rest⟩
  | none => ⟨.fault (.integerOutOfRange (String.ofList taken)), taken, rest⟩

def sigiled (kind : String → Token.Kind) (c : Char) (cs : List Char) : Piece :=
  let name := cs.takeWhile isWordChar
  let rest := cs.dropWhile isWordChar
  if name.isEmpty then ⟨.fault (.missingName c), [c], rest⟩
  else ⟨.token (kind (String.ofList name)), c :: name, rest⟩

def word (c : Char) (cs : List Char) : Piece :=
  let taken := c :: cs.takeWhile isWordChar
  let name := String.ofList taken
  let kind := if c.isUpper || c == '_' then Token.Kind.variable name else .identifier name
  ⟨.token kind, taken, cs.dropWhile isWordChar⟩

def comment (cs : List Char) : Piece :=
  match cs with
  | '*' :: body =>
    match blockComment? body with
    | some (taken, rest) => ⟨.blank, '%' :: '*' :: taken, rest⟩
    | none => ⟨.fault .unterminatedComment, '%' :: cs, []⟩
  | _ => ⟨.blank, '%' :: cs.takeWhile (· != '\n'), cs.dropWhile (· != '\n')⟩

def read (c : Char) (cs : List Char) : Piece :=
  match c, cs with
  | '%', _ => comment cs
  | '(', _ => ⟨.token .leftParen, [c], cs⟩
  | ')', _ => ⟨.token .rightParen, [c], cs⟩
  | '{', _ => ⟨.token .leftBrace, [c], cs⟩
  | '}', _ => ⟨.token .rightBrace, [c], cs⟩
  | ',', _ => ⟨.token .comma, [c], cs⟩
  | ';', _ => ⟨.token .semicolon, [c], cs⟩
  | '/', _ => ⟨.token .slash, [c], cs⟩
  | '=', _ => ⟨.token (.comparison .eq), [c], cs⟩
  | '.', '.' :: rest => ⟨.token .dots, [c, '.'], rest⟩
  | '.', _ => ⟨.token .dot, [c], cs⟩
  | ':', '-' :: rest => ⟨.token .implies, [c, '-'], rest⟩
  | ':', _ => ⟨.token .colon, [c], cs⟩
  | '!', '=' :: rest => ⟨.token (.comparison .ne), [c, '='], rest⟩
  | '<', '=' :: rest => ⟨.token (.comparison .le), [c, '='], rest⟩
  | '<', _ => ⟨.token (.comparison .lt), [c], cs⟩
  | '>', '=' :: rest => ⟨.token (.comparison .ge), [c, '='], rest⟩
  | '>', _ => ⟨.token (.comparison .gt), [c], cs⟩
  | '"', _ =>
    match quoted? cs with
    | some q => ⟨.token (.text (String.ofList q.value)), c :: q.taken, q.rest⟩
    | none => ⟨.fault .unterminatedText, c :: cs, []⟩
  | '-', d :: _ =>
    if d.isDigit then number true c cs else ⟨.fault (.unexpectedCharacter c), [c], cs⟩
  | '@', _ => sigiled .call c cs
  | '#', _ => sigiled .directive c cs
  | _, _ =>
    if isSpace c then ⟨.blank, [c], cs⟩
    else if c.isDigit then number false c cs
    else if c.isAlpha || c == '_' then word c cs
    else ⟨.fault (.unexpectedCharacter c), [c], cs⟩

def all : (length : Nat) → (offset : Nat) → List Char → List (Nat × Piece)
  | 0, _, _ => []
  | _, _, [] => []
  | n + 1, offset, c :: cs =>
    let piece := read c cs
    (offset, piece) :: all n (offset + byteSize piece.taken) piece.rest

end Piece

namespace Token

def pieces (source : Source) : List (Nat × Piece) :=
  Piece.all source.chars.length 0 source.chars

def faults (source : Source) : List Diagnostic :=
  (pieces source).filterMap fun (offset, piece) =>
    match piece.outcome with
    | .fault problem =>
      some ⟨.parse, problem, some (Span.locate source offset (offset + byteSize piece.taken))⟩
    | _ => none

def tokens (source : Source) : List Token :=
  (pieces source).filterMap fun (offset, piece) =>
    match piece.outcome with
    | .token kind => some ⟨kind, offset, offset + byteSize piece.taken⟩
    | _ => none

def scan (source : Source) : Except (List Diagnostic) (List Token) :=
  match faults source with
  | [] => .ok (tokens source)
  | problems => .error problems

end Token

end AnswerSetTest
