import AnswerSetTest.Failure
import AnswerSetTest.SourcePath

/-!
# File trees

Files and directories with all that is in them, and the way along a path through a tree.
-/

namespace AnswerSetTest

inductive FileTree where
  | file (content : ByteArray)
  | directory (entries : List (String × FileTree))

abbrev FileSystem := String → Except ReadFault FileTree

namespace FileTree

def content? : FileTree → Except ReadFault ByteArray
  | .directory _ => .error .isDirectory
  | .file content => .ok content

def text? (tree : FileTree) : Except ReadFault String := do
  match String.fromUTF8? (← tree.content?) with
  | some text => return text
  | none => throw .invalidEncoding

/-- Follows segments of a path from a tree, with the directories around it. -/
def follow (outer : List FileTree) (tree : FileTree) :
    List (List Char) → Except ReadFault FileTree
  | [] => .ok tree
  | s :: ss =>
    match tree with
    | .file _ => .error .notADirectory
    | .directory entries =>
      if s = [] ∨ s = ['.'] then follow outer tree ss
      else if s = ['.', '.'] then
        match outer with
        | [] => .error .notFound
        | t :: outer => follow outer t ss
      else
        match entries.lookup (String.ofList s) with
        | none => .error .notFound
        | some t => follow (tree :: outer) t ss

def find (tree : FileTree) : FileSystem := fun path =>
  if path.isEmpty || path.startsWith "/" then .error .notFound
  else tree.follow [] (SourcePath.segments path.toList)

mutual

/-- The files below a directory with their paths from `path`. Directories named `.git` are left
out. -/
def filesIn (path : String) : List (String × FileTree) → List (String × ByteArray)
  | [] => []
  | (name, tree) :: entries => entryFiles path name tree ++ filesIn path entries

def entryFiles (path name : String) : FileTree → List (String × ByteArray)
  | .file content => [(SourcePath.join path name, content)]
  | .directory entries =>
    if name = ".git" then [] else filesIn (SourcePath.join path name) entries

end

end FileTree

end AnswerSetTest
