import AnswerSetTest.FileTree
import AnswerSetTest.Pattern.Reader
import AnswerSetTest.Report
import AnswerSetTest.Tester
import AnswerSetTest.Toml.Reader

/-!
# Configurations

A configuration is a TOML document with the tables `tests`, `output` and `scan`. What it does not
set keeps its default, and what is no setting is refused.
-/

namespace AnswerSetTest

structure ScanOptions where
  included : List String
  excluded : List String
  useIgnoreFile : Bool

structure Config where
  /-- the names of test units match this pattern -/
  pattern : String
  runRoot : Bool
  constraints : List String
  format : OutputFormat
  width : Option Nat
  scan : ScanOptions

namespace Config

def default : Config :=
  { pattern := "^test_", runRoot := true, constraints := TesterOptions.defaultConstraints,
    format := .text, width := none, scan := ⟨["**/*.lp"], [], true⟩ }

/-! ### Values of settings -/

def text? : Toml.Value → Option String
  | .text s => some s
  | _ => none

def boolean? : Toml.Value → Option Bool
  | .boolean b => some b
  | _ => none

def texts? : Toml.Value → Option (List String)
  | .array vs => vs.mapM text?
  | _ => none

def width? : Toml.Value → Option Nat
  | .integer n => if 0 ≤ n ∧ n < UInt64.size then some n.toNat else none
  | _ => none

/-- A format is given by its name, also as the only key of a table with nothing in it. -/
def format? : Toml.Value → Option OutputFormat
  | .text s => ofName? s
  | .table _ [(name, .table _ [])] => ofName? name
  | .table _ [(name, .array [])] => ofName? name
  | _ => none
where
  ofName? (name : String) : Option OutputFormat :=
    if name = "text" then some .text else if name = "json" then some .json else none

/-! ### Settings -/

structure Setting where
  name : String
  set : Toml.Value → Config → Option Config

/-- Applies a table with the given settings. Instead of the table there may be an array with the
values of the first settings in order. -/
def apply (settings : List Setting) (v : Toml.Value) (c : Config) : Option Config :=
  match v with
  | .table _ entries =>
    entries.foldlM (fun c (name, v) => do (← settings.find? (·.name = name)).set v c) c
  | .array vs => (settings.zip vs).foldlM (fun c (s, v) => s.set v c) c
  | _ => none

def testSettings : List Setting :=
  [⟨"pattern", fun v c => do return { c with pattern := ← text? v }⟩,
    ⟨"run_base", fun v c => do return { c with runRoot := ← boolean? v }⟩,
    ⟨"constraint_predicates", fun v c => do return { c with constraints := ← texts? v }⟩]

def outputSettings : List Setting :=
  [⟨"format", fun v c => do return { c with format := ← format? v }⟩,
    ⟨"terminal_width", fun v c => do return { c with width := some (← width? v) }⟩]

def scanSettings : List Setting :=
  [⟨"include", fun v c => do return { c with scan.included := ← texts? v }⟩,
    ⟨"exclude", fun v c => do return { c with scan.excluded := ← texts? v }⟩,
    ⟨"use_gitignore", fun v c => do return { c with scan.useIgnoreFile := ← boolean? v }⟩]

def settings : List Setting :=
  [⟨"tests", apply testSettings⟩, ⟨"output", apply outputSettings⟩, ⟨"scan", apply scanSettings⟩]

def parse (path : Option String) (text : String) : Except Failure Config := do
  let c ← match (Toml.parse? text).bind fun v => apply settings v default with
    | some c => pure c
    | none => throw (.config path .invalidToml)
  match Pattern.parse? c.pattern with
  | some _ => return c
  | none => throw (.config path (.invalidPattern c.pattern))

def defaultPath (directory : String) : String := SourcePath.join directory "aspunit.toml"

def readAt (files : FileSystem) (path : String) : Except Failure Config :=
  match (files path).bind FileTree.text? with
  | .ok text => parse (some path) text
  | .error fault => .error (.read path fault)

/-- A configuration that is given has to be there; without one, the directory's own is used if there
is one, and else the default. -/
def load (files : FileSystem) (explicit : Option String) (directory : String) :
    Except Failure Config :=
  match explicit with
  | some path => readAt files path
  | none =>
    let path := defaultPath directory
    if (files path).isOk then readAt files path else .ok default

def isTest (c : Config) : String → Bool :=
  match Pattern.parse? c.pattern with
  | some p => p.isMatch
  | none => fun _ => false

end Config

end AnswerSetTest
