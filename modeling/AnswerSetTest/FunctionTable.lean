import AnswerSetTest.Failure
import AnswerSetTest.Engine
import AnswerSetTest.Text.Quoted

/-!
# Function tables

The functions that programs may call as `@name(...)`, each registered under a name of its own. A
call may change a state `φ` that all functions share.
-/

namespace AnswerSetTest

abbrev Function (φ : Type) := List Symbol → StateM φ (Except String Symbol)

/-- The functions in ascending order of their names. -/
structure FunctionTable (φ : Type) where
  entries : List (String × Function φ)

namespace FunctionTable

variable {φ : Type}

def empty : FunctionTable φ := ⟨[]⟩

def get? (t : FunctionTable φ) (name : String) : Option (Function φ) :=
  (t.entries.find? fun e => e.1 == name).map Prod.snd

def insertEntry (name : String) (f : Function φ) :
    List (String × Function φ) → List (String × Function φ)
  | [] => [(name, f)]
  | e :: es => if name < e.1 then (name, f) :: e :: es else e :: insertEntry name f es

def register (t : FunctionTable φ) (name : String) (f : Function φ) :
    Except Failure (FunctionTable φ) :=
  match t.get? name with
  | some _ => .error (.config none (.functionTwice name))
  | none => .ok ⟨insertEntry name f t.entries⟩

def names (t : FunctionTable φ) : List String := t.entries.map Prod.fst

def unknown (name : String) : String := "unknown function @" ++ name

def call (t : FunctionTable φ) (name : String) (args : List Symbol) :
    StateM φ (Except String Symbol) :=
  match t.get? name with
  | some f => f args
  | none => return .error (unknown name)

def display (t : FunctionTable φ) : String :=
  "[" ++ ", ".intercalate (t.names.map Text.quoted) ++ "]"

/-- The handler that has the table's functions answer calls and ignores what is reported. -/
def handler (t : FunctionTable φ) : Handler φ where
  call := t.call
  rule _ _ _ := pure ()
  output _ _ := pure ()

end FunctionTable

end AnswerSetTest
