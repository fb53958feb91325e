import AnswerSetTest.Glob.Basic

/-!
# Reading globs

`?`, `*`, `**`, sets between brackets, alternatives between braces, and a backslash in front of a
character that stands for itself. A text that is no glob gives `none`.
-/

namespace AnswerSetTest.Glob

/-! ### Sets -/

/-- How a set ends: with its bracket and what follows it, nowhere, or in a range that goes down. -/
inductive SetReading where
  | closed (ranges : List (Char × Char)) (rest : List Char)
  | unclosed
  | invalid

/-- The ranges of a set, last first; `inRange` after a hyphen that may extend the last one. A
bracket or a hyphen in the first place stands for itself. -/
def readSet (ranges : List (Char × Char)) (first inRange : Bool) : List Char → SetReading
  | [] => .unclosed
  | c :: cs =>
    if c = ']' && !first then
      .closed ((if inRange then ('-', '-') :: ranges else ranges).reverse) cs
    else if c = '-' && !first && !inRange then readSet ranges false true cs
    else
      match ranges with
      | (low, _) :: before =>
        if inRange then
          if c < low then .invalid else readSet ((low, c) :: before) false false cs
        else readSet ((c, c) :: ranges) false false cs
      | [] => readSet [(c, c)] false false cs

/-! ### Tokens -/

/-- What was read so far, last first: the tokens of the current branch, the finished branches next
to it, and the same of the braces around it. -/
structure Progress where
  tokens : List Token
  branches : List (List Token)
  outer : List (List Token × List (List Token))

namespace Progress

def push (p : Progress) (t : Token) : Progress := { p with tokens := t :: p.tokens }

def openBrace (p : Progress) : Progress := ⟨[], [], (p.tokens, p.branches) :: p.outer⟩

def nextBranch (p : Progress) : Progress :=
  if p.outer.isEmpty then p.push (.literal ',')
  else { p with tokens := [], branches := p.tokens.reverse :: p.branches }

def closeBrace? (p : Progress) : Option Progress :=
  match p.outer with
  | [] => none
  | (tokens, branches) :: outer =>
    some ⟨.alternates (p.tokens.reverse :: p.branches).reverse :: tokens, branches, outer⟩

def twoStars (p : Progress) : Progress := (p.push .star).push .star

def replaceLast (p : Progress) (t : Token) : Progress :=
  match p.tokens with
  | .anyPrefix :: _ | .anySuffix :: _ => p
  | tokens => { p with tokens := t :: tokens.drop 1 }

/-- Reads on behind `**`, with the character in front of it. It stands for directories only where
slashes or the ends of the branch are around it. -/
def readDoubleStar (p : Progress) (before : Option Char) (cs : List Char) :
    Progress × Option Char × List Char :=
  let nested := !p.outer.isEmpty
  if p.tokens.isEmpty then
    match cs with
    | [] => (p.push .anyPrefix, some '*', [])
    | '/' :: cs => (p.push .anyPrefix, some '/', cs)
    | cs => (p.twoStars, some '*', cs)
  else if before = some '/' || nested && (before = some ',' || before = some '{') then
    match cs with
    | [] => (p.replaceLast .anySuffix, some '*', [])
    | '/' :: cs => (p.replaceLast .anyBetween, some '/', cs)
    | c :: cs =>
      if nested && (c = ',' || c = '}') then (p.replaceLast .anySuffix, some '*', c :: cs)
      else (p.twoStars, some '*', c :: cs)
  else (p.twoStars, some '*', cs)

end Progress

/-- Reads tokens; `before` is the character in front. If `lenient`, a bracket that is never closed
stands for itself, as do those after it; `sets` says whether brackets still open sets. -/
def readTokens (lenient sets : Bool) (p : Progress) (before : Option Char) :
    (limit : Nat) → List Char → Option (List Token)
  | 0, _ => none
  | _ + 1, [] => if p.outer.isEmpty then some p.tokens.reverse else none
  | limit + 1, c :: cs =>
    match c, cs with
    | '?', cs => readTokens lenient sets (p.push .one) (some c) limit cs
    | '*', '*' :: cs =>
      let (p, before, cs) := p.readDoubleStar before cs
      readTokens lenient sets p before limit cs
    | '*', cs => readTokens lenient sets (p.push .star) (some c) limit cs
    | '{', cs => readTokens lenient sets p.openBrace (some c) limit cs
    | ',', cs => readTokens lenient sets p.nextBranch (some c) limit cs
    | '}', cs => do readTokens lenient sets (← p.closeBrace?) (some c) limit cs
    | '\\', [] => none
    | '\\', d :: cs => readTokens lenient sets (p.push (.literal d)) (some d) limit cs
    | '[', cs =>
      if !sets then readTokens lenient sets (p.push (.literal c)) (some c) limit cs
      else
        let negated := cs.head? = some '!' ∨ cs.head? = some '^'
        match readSet [] true false (if negated then cs.drop 1 else cs) with
        | .closed ranges rest =>
          readTokens lenient sets (p.push (.set negated ranges)) (some ']') limit rest
        | .unclosed =>
          if lenient then readTokens lenient false (p.push (.literal c)) (some c) limit cs
          else none
        | .invalid => none
    | c, cs => readTokens lenient sets (p.push (.literal c)) (some c) limit cs

def parse? (slashIsLiteral lenient : Bool) (text : String) : Option Glob := do
  let cs := text.toList
  return ⟨← readTokens lenient true ⟨[], [], []⟩ none (cs.length + 1) cs, slashIsLiteral⟩

end AnswerSetTest.Glob
