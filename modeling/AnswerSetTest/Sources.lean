import AnswerSetTest.FileTree

/-!
# Sources

The source files that paths stand for. Files are taken as they are given. Of the files below a
directory those are taken that the filter lets through. The sources are in the order of their paths,
and none comes twice.
-/

namespace AnswerSetTest

structure SourceFile where
  path : String
  content : ByteArray

/-- Reads what the ignore file of a directory holds: which paths below the directory it ignores. -/
abbrev IgnoreReader := (directory : String) → Except ReadFault ByteArray →
  Except Failure (String → Bool)

/-- Patterns for paths below a directory, and how ignore files are read if they are used. -/
structure SourceFilter where
  included : List (String → Bool)
  excluded : List (String → Bool)
  ignoreReader : Option IgnoreReader

def SourceFilter.selects (f : SourceFilter) (path : String) : Bool :=
  f.included.any (· path) && !f.excluded.any (· path)

namespace Sources

def ignored (filter : SourceFilter) (directory : String) (entries : List (String × FileTree)) :
    Except Failure (String → Bool) :=
  match filter.ignoreReader, entries.lookup ".gitignore" with
  | some read, some tree => read directory tree.content?
  | _, _ => .ok fun _ => false

def scan (filter : SourceFilter) (directory : String) (entries : List (String × FileTree)) :
    Except Failure (List SourceFile) := do
  let ignores ← ignored filter directory entries
  let found := (FileTree.filesIn "" entries).filter fun (path, _) =>
    filter.selects path && !ignores path
  return found.map fun (path, content) => ⟨SourcePath.join directory path, content⟩

def ofPath (files : FileSystem) (filter : SourceFilter) (path : String) :
    Except Failure (List SourceFile) :=
  match files path with
  | .error fault => .error (.read path fault)
  | .ok (.file content) => .ok [⟨path, content⟩]
  | .ok (.directory entries) => scan filter path entries

def dedup : List SourceFile → List SourceFile
  | [] => []
  | f :: fs =>
    match dedup fs with
    | [] => [f]
    | g :: gs => if SourcePath.key f.path = SourcePath.key g.path then f :: gs else f :: g :: gs

def sort (fs : List SourceFile) : List SourceFile :=
  dedup (fs.mergeSort fun f g => !SourcePath.isBefore g.path f.path)

def collect (files : FileSystem) (filter : SourceFilter) (paths : List String) :
    Except Failure (List SourceFile) := do
  let found ← paths.mapM (ofPath files filter)
  match sort found.flatten with
  | [] => throw (.read (paths.headD "") .noSources)
  | sources => return sources

end Sources

end AnswerSetTest
