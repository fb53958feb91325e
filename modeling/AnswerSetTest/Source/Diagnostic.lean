import AnswerSetTest.Source.Span
import AnswerSetTest.Syntax.Token

/-!
# Diagnostics

What can be wrong with a program text, where, and under which code it is reported.
-/

namespace AnswerSetTest

inductive Code where
  | io | parse | unit | dependency | ground | solve | config | assertion | warning
  | other (text : String)
deriving DecidableEq

namespace Code

def text : Code → String
  | .io => "E-IO"
  | .parse => "E-PARSE"
  | .unit => "E-UNIT"
  | .dependency => "E-DEPENDENCY"
  | .ground => "E-GROUND"
  | .solve => "E-SOLVE"
  | .config => "E-CONFIG"
  | .assertion => "E-ASSERT"
  | .warning => "E-WARNING"
  | .other text => text

def named : List Code :=
  [io, parse, unit, dependency, ground, solve, config, assertion, warning]

def ofText (text : String) : Code :=
  match named.find? fun code => code.text == text with
  | some code => code
  | none => .other text

theorem text_ofText (s : String) : (ofText s).text = s := by
  unfold ofText
  split
  · next h => simpa using List.find?_some h
  · rfl

def hint? : Code → Option String
  | .io => some "check the input paths and read permissions"
  | .parse => some "check statement terminators, brackets and directive syntax"
  | .unit => some "every #program name except 'base' must be declared once"
  | .dependency =>
    some "dependencies must name a declared #program with matching parameter count"
  | .ground => some "check variable safety and the @-functions used by the program"
  | .solve => some "reduce the number of undetermined atoms in the test unit"
  | .config => some "check aspunit.toml: TOML syntax, regex and glob patterns"
  | .assertion | .warning | .other _ => none

end Code

inductive Problem where
  | unterminatedComment
  | unterminatedText
  | integerOutOfRange (digits : String)
  | missingName (sigil : Char)
  | unexpectedCharacter (c : Char)
  | expected (what : String) (found : Option Token.Kind)
  | unsupportedDirective (name : String)
  | notAnAtom
  | variableArguments (dependency unit : String)
  | other (message : String)
deriving DecidableEq

def Problem.message : Problem → String
  | .unterminatedComment => "unterminated block comment"
  | .unterminatedText => "unterminated string"
  | .integerOutOfRange digits => "integer out of range: " ++ digits
  | .missingName sigil => "expected a name after '" ++ sigil.toString ++ "'"
  | .unexpectedCharacter c => "unexpected character '" ++ c.toString ++ "'"
  | .expected what (some kind) => "expected " ++ what ++ ", found " ++ kind.describe
  | .expected what none => "expected " ++ what ++ ", found end of input"
  | .unsupportedDirective name => "unsupported directive: #" ++ name
  | .notAnAtom => "expected an atom"
  | .variableArguments dependency unit =>
    "arguments of dependency '" ++ dependency ++ "' in '" ++ unit ++ "' must be constant values"
  | .other message => message

structure Diagnostic where
  code : Code
  problem : Problem
  span : Option Span
deriving DecidableEq

namespace Diagnostic

def message (d : Diagnostic) : String := d.problem.message

def display (d : Diagnostic) : String :=
  d.code.text ++ ": " ++ d.message ++
  (match d.span with
    | some span => " at " ++ span.display
    | none => "") ++
  (match d.code.hint? with
    | some hint => " (hint: " ++ hint ++ ")"
    | none => "")

end Diagnostic

end AnswerSetTest
