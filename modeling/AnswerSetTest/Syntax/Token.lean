import AnswerSetTest.Symbol

/-!
# Tokens

The comparison operators and the tokens of the language, with the byte range of each.
-/

namespace AnswerSetTest

inductive Comparison where
  | eq | ne | lt | le | gt | ge
deriving DecidableEq, Hashable, Repr

def Comparison.holds (op : Comparison) (left right : Symbol) : Bool :=
  let o := compare left right
  match op with
  | .eq => o.isEq
  | .ne => o.isNe
  | .lt => o.isLT
  | .le => o.isLE
  | .gt => o.isGT
  | .ge => o.isGE

namespace Token

inductive Kind where
  | identifier (name : String)
  | variable (name : String)
  | number (value : Int64)
  | text (value : String)
  | call (name : String)
  | directive (name : String)
  | leftParen | rightParen | leftBrace | rightBrace
  | comma | semicolon | dot | dots | implies | colon | slash
  | comparison (op : Comparison)
deriving DecidableEq

def Kind.describe : Kind → String
  | .identifier name => "identifier '" ++ name ++ "'"
  | .variable name => "variable '" ++ name ++ "'"
  | .number n => "number " ++ toString n.toInt
  | .text s => "string \"" ++ s ++ "\""
  | .call name => "'@" ++ name ++ "'"
  | .directive name => "'#" ++ name ++ "'"
  | .leftParen => "'('"
  | .rightParen => "')'"
  | .leftBrace => "'\x7b'"
  | .rightBrace => "'\x7d'"
  | .comma => "','"
  | .semicolon => "';'"
  | .dot => "'.'"
  | .dots => "'..'"
  | .implies => "':-'"
  | .colon => "':'"
  | .slash => "'/'"
  | .comparison _ => "comparison"

end Token

structure Token where
  kind : Token.Kind
  start : Nat
  stop : Nat
deriving DecidableEq

end AnswerSetTest
