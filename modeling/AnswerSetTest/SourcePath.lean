/-!
# Paths

Paths are texts with slashes between their segments. Empty segments and single dots in a path lead
nowhere, so paths that differ in these alone are equal in the order of paths. A dot in front of a
path counts, though.
-/

namespace AnswerSetTest.SourcePath

def segments : List Char → List (List Char)
  | [] => [[]]
  | c :: cs =>
    if c = '/' then [] :: segments cs
    else
      match segments cs with
      | [] => [[c]]
      | s :: ss => (c :: s) :: ss

def ofSegments (ss : List (List Char)) : List Char := ['/'].intercalate ss

inductive Step where
  | root | current | parent
  | name (cs : List Char)
deriving DecidableEq

def Step.ofSegment? (s : List Char) : Option Step :=
  if s = [] ∨ s = ['.'] then none
  else if s = ['.', '.'] then some .parent
  else some (.name s)

def steps (path : String) : List Step :=
  let ss := segments path.toList
  let first := match path.toList, ss with
    | '/' :: _, _ => [.root]
    | _, ['.'] :: _ => [.current]
    | _, _ => []
  first ++ ss.filterMap Step.ofSegment?

/-- Steps are ordered as these lists are. -/
def Step.key : Step → List Nat
  | .root => [0]
  | .current => [1]
  | .parent => [2]
  | .name cs => 3 :: cs.map Char.toNat

def key (path : String) : List (List Nat) := (steps path).map Step.key

def isBefore (p q : String) : Bool := (key p).lex (key q) fun s t => s.lex t

def join (directory name : String) : String :=
  if directory.isEmpty || directory.endsWith "/" then directory ++ name
  else directory ++ "/" ++ name

/-- The paths of the directories around a relative path, innermost first; the last one is empty. -/
def ancestors (path : String) : List String :=
  if path.isEmpty then []
  else (prefixes (segments path.toList)).map fun ss => String.ofList (ofSegments ss)
where
  prefixes (ss : List (List Char)) : List (List (List Char)) :=
    ((List.range ss.length).map fun n => ss.take n).reverse

end AnswerSetTest.SourcePath
