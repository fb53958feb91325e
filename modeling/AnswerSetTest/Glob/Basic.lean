import AnswerSetTest.Pattern.Basic

/-!
# Globs

Globs are patterns for paths. They are matched with the bytes of a path: a set or `?` stands for
one byte. `**` between slashes stands for any directories, and whether `*` and `?` may stand for a
slash depends on where the glob is used.
-/

namespace AnswerSetTest

/-- A part of a glob. `anyPrefix`, `anySuffix` and `anyBetween` are `**` at the beginning, at the
end, and in between, with the slashes next to it. -/
inductive Glob.Token where
  | literal (c : Char)
  | one
  | star
  | anyPrefix
  | anySuffix
  | anyBetween
  | set (negated : Bool) (ranges : List (Char × Char))
  | alternates (branches : List (List Glob.Token))

structure Glob where
  tokens : List Glob.Token
  /-- whether only a slash stands for a slash -/
  slashIsLiteral : Bool

namespace Glob

/-- The bytes of a text, each as a character of its own. -/
def bytes (cs : List Char) : List Char :=
  cs.flatMap fun c => (String.utf8EncodeChar c).map fun b => Char.ofNat b.toNat

/-- The ranges of bytes that a range of characters stands for: the last byte of its beginning
starts a range that the first byte of its end closes. -/
def byteRanges (low high : Char) : List (Nat × Nat) :=
  let single := (bytes [low]).map fun b => (b.toNat, b.toNat)
  if low = high then single
  else
    match (bytes [low]).getLast?, bytes [high] with
    | some l, h :: hs => single.dropLast ++ (l.toNat, h.toNat) :: hs.map fun b => (b.toNat, b.toNat)
    | _, _ => single

def seq : Pattern → Pattern → Pattern
  | .empty, q => q
  | p, .empty => p
  | p, q => .seq p q

def anything : Pattern := .times (.char .full) 0 none

def slash : Pattern := .char (.single '/')

def single (slashIsLiteral : Bool) : Pattern :=
  .char (if slashIsLiteral then .complement (.single '/') else .full)

def oneOf : List Pattern → Pattern
  | [] => .empty
  | .empty :: ps => oneOf ps
  | p :: ps =>
    match oneOf ps with
    | .empty => p
    | q => .alt p q

mutual

def Token.pattern (slashIsLiteral : Bool) : Token → Pattern
  | .literal c => (bytes [c]).foldr (fun b p => seq (.char (.single b)) p) .empty
  | .one => single slashIsLiteral
  | .star => .times (single slashIsLiteral) 0 none
  | .anyPrefix => .alt (.times slash 0 (some 1)) (.seq anything slash)
  | .anySuffix => .seq slash anything
  | .anyBetween => .alt slash (.seq slash (.seq anything slash))
  | .set negated ranges =>
    let s : Pattern.CharSet := .ranges (ranges.flatMap fun (low, high) => byteRanges low high)
    .char (if negated then .complement s else s)
  | .alternates branches => oneOf (Token.patterns slashIsLiteral branches)

def Token.sequence (slashIsLiteral : Bool) : List Token → Pattern
  | [] => .empty
  | t :: ts => seq (t.pattern slashIsLiteral) (Token.sequence slashIsLiteral ts)

def Token.patterns (slashIsLiteral : Bool) : List (List Token) → List Pattern
  | [] => []
  | ts :: branches =>
    Token.sequence slashIsLiteral ts :: Token.patterns slashIsLiteral branches

end

def pattern (g : Glob) : Pattern :=
  match g.tokens with
  | [.anyPrefix] => anything
  | tokens => Token.sequence g.slashIsLiteral tokens

def covers (g : Glob) (path : String) : Bool := g.pattern.coversAll (bytes path.toList).toArray

end Glob

end AnswerSetTest
