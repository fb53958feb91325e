import AnswerSetTest.Engine
import AnswerSetTest.Source.Diagnostic
import AnswerSetTest.Text.Quoted

/-!
# Failures

Why a test could not be run or did not pass. Every failure has a code, a kind and a message. A
failure inside a unit keeps its cause, which alone decides code and kind.
-/

namespace AnswerSetTest

inductive RuleFault where
  | unsafeVariable (name : String)
  | unsafeComparison (names : List String)
  | intervalTooLarge (low high : Int64)
  | intervalBounds
  | countBound
  | notAnAtom (value : Symbol)
  | callInPositiveLiteral
  | call (name message : String)
deriving DecidableEq

def RuleFault.message : RuleFault → String
  | .unsafeVariable name => "unsafe variable " ++ name
  | .unsafeComparison names =>
    "unsafe variables in comparison: " ++ ", ".intercalate names
  | .intervalTooLarge low high =>
    "interval " ++ toString low.toInt ++ ".." ++ toString high.toInt ++ " is too large"
  | .intervalBounds => "interval bounds must be integers"
  | .countBound => "count bound must be a single value"
  | .notAnAtom value => value.display ++ " is not an atom"
  | .callInPositiveLiteral => "external calls are not supported in positive body literals"
  | .call name message => "error in @" ++ name ++ ": " ++ message

def maxAtoms : Nat := 100000

inductive GroundFault where
  | alreadyGrounded
  | partArity (part : Part) (parameters : Nat)
  | tooManyAtoms
  | rule (span : Span) (fault : RuleFault)
  | other (message : String)
deriving DecidableEq

def GroundFault.message : GroundFault → String
  | .alreadyGrounded => "control is already grounded"
  | .partArity part parameters =>
    "part " ++ part.display ++ " does not match the " ++ toString parameters ++
      " parameter(s) of #program " ++ part.name
  | .tooManyAtoms => "grounding exceeds " ++ toString maxAtoms ++ " atoms"
  | .rule span fault =>
    span.fileName ++ ":" ++ toString span.line ++ ":" ++ toString span.column ++ ": " ++
      fault.message
  | .other message => message

inductive SolveFault where
  | tooManyUndetermined (atoms limit : Nat)
  | other (message : String)
deriving DecidableEq

def SolveFault.message : SolveFault → String
  | .tooManyUndetermined atoms limit =>
    toString atoms ++ " undetermined atoms exceed the limit of " ++ toString limit ++
      " for exhaustive search"
  | .other message => message

inductive ReadFault where
  | notFound
  | isDirectory
  | notADirectory
  | invalidEncoding
  | noSources
  | other (message : String)
deriving DecidableEq

def ReadFault.message : ReadFault → String
  | .notFound => "No such file or directory (os error 2)"
  | .isDirectory => "Is a directory (os error 21)"
  | .notADirectory => "Not a directory (os error 20)"
  | .invalidEncoding => "stream did not contain valid UTF-8"
  | .noSources => "no source files matched the scan filters"
  | .other message => message

/-- What is wrong with a configuration. An ignore file is at fault in a line that is no glob or that
cannot be read. -/
inductive ConfigFault where
  | functionTwice (name : String)
  | middlewareTwice (name : String)
  | invalidToml
  | invalidPattern (pattern : String)
  | invalidGlob (glob : String)
  | invalidIgnoreFile (path : String) (line : Nat) (fault : Option ReadFault)
  | other (message : String)
deriving DecidableEq

def ConfigFault.message : ConfigFault → String
  | .functionTwice name => "function @" ++ name ++ " registered twice"
  | .middlewareTwice name => "middleware '" ++ name ++ "' added twice"
  | .invalidToml => "invalid TOML: not a configuration"
  | .invalidPattern pattern =>
    "invalid test pattern " ++ Text.quoted pattern ++ ": regex parse error"
  | .invalidGlob glob => "invalid glob " ++ glob ++ ": error parsing glob '" ++ glob ++ "'"
  | .invalidIgnoreFile path line fault =>
    "cannot parse .gitignore: " ++ path ++ ": line " ++ toString line ++ ": " ++
      match fault with
      | some fault => fault.message
      | none => "error parsing glob"
  | .other message => message

inductive Failure where
  | duplicateUnit (name file : String)
  | unknownDependency (unit dependency : String)
  | argumentMismatch (unit dependency : String) (required : List String) (given : List Symbol)
  | assertion (unit file : String) (failures : List Symbol) (message : String)
  | ambiguous (unit : String) (assertion : Symbol)
  | noModels (unit file : String)
  | modelCount (expected found : Nat)
  | modelCountUndeclared (unit file : String) (found : Nat)
  | missingAny (models : Nat) (missing : List Symbol)
  | parse (diagnostics : List Diagnostic)
  | ground (fault : GroundFault)
  | solve (fault : SolveFault)
  | spentControl
  | config (path : Option String) (fault : ConfigFault)
  | read (path : String) (fault : ReadFault)
  | inUnit (unit location : String) (cause : Failure)
deriving DecidableEq

namespace Failure

inductive Kind where
  | configuration | assertion | warning | engine | io
deriving DecidableEq

def message : Failure → String
  | .duplicateUnit name file => "Duplicate program name: '" ++ name ++ "' found in " ++ file ++ "."
  | .unknownDependency unit dependency =>
    "Dependency '" ++ dependency ++ "' of '" ++ unit ++ "' not found."
  | .argumentMismatch unit dependency required given =>
    "Argument mismatch in '" ++ unit ++ "' for dependency '" ++ dependency ++ "'. Required: [" ++
      ", ".intercalate (required.map fun name => "'" ++ name ++ "'") ++ "], given: [" ++
      Symbol.displayAll ", " given ++ "]."
  | .assertion _ _ _ message => message
  | .ambiguous unit symbol =>
    "Duplicate: " ++ symbol.display ++ " (disjunction found) in " ++ unit ++ "."
  | .noModels unit file => file ++ ": " ++ unit ++ ": no models found."
  | .modelCount expected found =>
    "Expected " ++ toString expected ++ " models, found " ++ toString found ++ "."
  | .modelCountUndeclared unit file found =>
    file ++ ": " ++ unit ++
      ": model count not declared (use @models(N) or a models(N) fact), found " ++
      toString found ++ "."
  | .missingAny models missing =>
    "Asserts not in any of the " ++ toString models ++ " models:\n" ++
      Symbol.displayAll "\n" missing
  | .parse diagnostics => "\n".intercalate (diagnostics.map Diagnostic.display)
  | .ground fault => fault.message
  | .solve fault => fault.message
  | .spentControl => "control already used; a fresh control is required for every test unit"
  | .config (some path) fault => path ++ ": " ++ fault.message
  | .config none fault => fault.message
  | .read path fault => "failed to read " ++ path ++ ": " ++ fault.message
  | .inUnit unit location cause =>
    cause.message ++ "\n  while running '" ++ unit ++ "' from " ++ location

def root : Failure → Failure
  | .inUnit _ _ cause => cause.root
  | f => f

def kind : Failure → Kind
  | .duplicateUnit .. | .unknownDependency .. | .argumentMismatch .. | .parse _ | .config .. =>
    .configuration
  | .assertion .. | .noModels .. | .modelCount .. | .modelCountUndeclared .. | .missingAny .. =>
    .assertion
  | .ambiguous .. => .warning
  | .ground _ | .solve _ | .spentControl => .engine
  | .read .. => .io
  | .inUnit _ _ cause => cause.kind

def code : Failure → Code
  | .duplicateUnit .. => .unit
  | .unknownDependency .. | .argumentMismatch .. => .dependency
  | .ambiguous .. => .warning
  | .assertion .. | .noModels .. | .modelCount .. | .modelCountUndeclared .. | .missingAny .. =>
    .assertion
  | .parse _ => .parse
  | .ground _ => .ground
  | .solve _ | .spentControl => .solve
  | .config .. => .config
  | .read .. => .io
  | .inUnit _ _ cause => cause.code

def isWarning (f : Failure) : Bool := f.kind = .warning

theorem kind_root (f : Failure) : f.root.kind = f.kind := by
  induction f <;> simp_all [root, kind]

theorem code_root (f : Failure) : f.root.code = f.code := by
  induction f <;> simp_all [root, code]

end Failure

end AnswerSetTest
