import AnswerSetTest.Report
import AnswerSetTest.Text.Columns

/-!
# Invocations

What the arguments of a command line ask for. Arguments that ask for nothing the program knows are
rejected as a whole.
-/

namespace AnswerSetTest

structure Invocation where
  config : Option String
  format : Option OutputFormat
  width : Option Nat
  skipRoot : Bool
  traceStages : Bool
  verbosity : Nat
  paths : List String

namespace Invocation

def empty : Invocation := ⟨none, none, none, false, false, 0, []⟩

def once {α : Type} (old : Option α) (new : Option α) : Option (Option α) :=
  match old, new with
  | none, some a => some (some a)
  | _, _ => none

def nonempty? (text : String) : Option String := if text.isEmpty then none else some text

def format? (text : String) : Option OutputFormat :=
  if text = "text" then some .text else if text = "json" then some .json else none

def set? (i : Invocation) (name value : String) : Option Invocation :=
  match name with
  | "config" => do return { i with config := ← once i.config (nonempty? value) }
  | "format" => do return { i with format := ← once i.format (format? value) }
  | "width" => do return { i with width := ← once i.width (Text.readColumns? value.toList) }
  | _ => none

/-- Sets an option without a value. Only `verbose` may come more than once. -/
def setFlag? (i : Invocation) (name : String) : Option Invocation :=
  match name with
  | "no-base" => if i.skipRoot then none else some { i with skipRoot := true }
  | "trace-stages" => if i.traceStages then none else some { i with traceStages := true }
  | "verbose" => some { i with verbosity := i.verbosity + 1 }
  | _ => none

def addPath? (i : Invocation) (path : String) : Option Invocation := do
  return { i with paths := i.paths ++ [← nonempty? path] }

def isOption (name : String) : Bool := ["config", "format", "width"].contains name

/-- What an argument is: the end of the options, a long option with its value if it has one, short
options, or a path. A single hyphen is a path. -/
inductive Argument where
  | terminator
  | long (name : String) (value : Option String)
  | short (names : List Char)
  | path

def Argument.ofString (arg : String) : Argument :=
  match arg.toList with
  | ['-', '-'] => .terminator
  | '-' :: '-' :: cs =>
    let name := String.ofList (cs.takeWhile (· != '='))
    match cs.dropWhile (· != '=') with
    | [] => .long name none
    | _ :: value => .long name (some (String.ofList value))
  | '-' :: c :: cs => .short (c :: cs)
  | _ => .path

def read (i : Invocation) : List String → Option Invocation
  | [] => some i
  | arg :: args =>
    match Argument.ofString arg with
    | .terminator => args.foldlM addPath? i
    | .long name (some value) => do read (← i.set? name value) args
    | .long name none =>
      if isOption name then
        match args with
        | [] => none
        | value :: args =>
          match Argument.ofString value with
          | .path => do read (← i.set? name value) args
          | _ => none
      else do read (← i.setFlag? name) args
    | .short names =>
      if names.all (· = 'v') then read { i with verbosity := i.verbosity + names.length } args
      else none
    | .path => do read (← i.addPath? arg) args

def parse? (args : List String) : Option Invocation := empty.read args

end Invocation

end AnswerSetTest
