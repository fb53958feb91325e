import AnswerSetTest.Config
import AnswerSetTest.Glob.Reader
import AnswerSetTest.Sources
import AnswerSetTest.Text.Characters

/-!
# Ignore files

An ignore file has a rule on each line that says which paths below its directory are ignored, or
are not ignored after all. The last rule that covers a path decides; where none does, the
directories around the path are asked in turn. The filter of a configuration has the ignore file of
a directory decide what its globs let through.
-/

namespace AnswerSetTest

structure IgnoreRule where
  glob : Glob
  /-- whether paths are taken back -/
  restores : Bool
  directoriesOnly : Bool

namespace IgnoreRule

/-- The marks at the beginning of a rule: `!` for paths that are taken back, and a slash for paths
that begin in the directory itself. A backslash takes the meaning of `!` and `#` away. -/
def readMarks (cs : List Char) : Bool × Bool × List Char :=
  match cs with
  | '\\' :: '!' :: cs => (false, false, '!' :: cs)
  | '\\' :: '#' :: cs => (false, false, '#' :: cs)
  | _ =>
    let (restores, cs) := match cs with
      | '!' :: cs => (true, cs)
      | cs => (false, cs)
    match cs with
    | '/' :: cs => (restores, true, cs)
    | cs => (restores, false, cs)

/-- Drops the slash at the end of a rule for directories, with a backslash in front of it. -/
def readEnd (cs : List Char) : Bool × List Char :=
  match cs.reverse with
  | '/' :: '\\' :: before => (true, before.reverse)
  | '/' :: before => (true, before.reverse)
  | _ => (false, cs)

/-- A rule without a slash holds at any depth, and one that ends in `/**` for what is inside of a
directory alone. -/
def globText (anchored : Bool) (cs : List Char) : List Char :=
  let anyDepth := "**/".toList
  let cs :=
    if anchored || cs.contains '/' || cs = "**".toList then cs else anyDepth ++ cs
  if "/**".toList.isSuffixOf cs then cs ++ "/*".toList else cs

def ofLine? (line : List Char) : Option (List IgnoreRule) :=
  if line.head? = some '#' then some []
  else
    let cs := if "\\ ".toList.isSuffixOf line then line else Text.trimEnd line
    if cs.isEmpty then some []
    else do
      let (restores, anchored, cs) := readMarks cs
      let (directoriesOnly, cs) := readEnd cs
      let glob ← Glob.parse? true true (String.ofList (globText anchored cs))
      return [⟨glob, restores, directoriesOnly⟩]

end IgnoreRule

abbrev IgnoreFile := List IgnoreRule

namespace IgnoreFile

/-- The lines of a file without their ends; a carriage return belongs to the end of a line only in
front of a line feed. -/
def lines : List UInt8 → List (List UInt8)
  | [] => [[]]
  | [13] => [[13]]
  | 13 :: 10 :: bs => [] :: lines bs
  | 10 :: bs => [] :: lines bs
  | b :: bs =>
    match lines bs with
    | [] => [[b]]
    | l :: ls => (b :: l) :: ls

/-- Reads lines from the given number on. Byte order marks in front of the first one are skipped. -/
def ofLines (path : String) (number : Nat) : List (List UInt8) → Except ConfigFault IgnoreFile
  | [] => .ok []
  | l :: ls => do
    match String.fromUTF8? ⟨l.toArray⟩ with
    | none => throw (.invalidIgnoreFile path number (some .invalidEncoding))
    | some text =>
      let cs := if number = 1 then text.toList.dropWhile (· = '\uFEFF') else text.toList
      match IgnoreRule.ofLine? cs with
      | none => throw (.invalidIgnoreFile path number none)
      | some rules => return rules ++ (← ofLines path (number + 1) ls)

def read (path : String) (content : Except ReadFault ByteArray) : Except Failure IgnoreFile :=
  Except.mapError (.config (some path)) <| match content with
    | .error fault => .error (.invalidIgnoreFile path 1 (some fault))
    | .ok content => ofLines path 1 (lines content.toList)

def decide? (rules : IgnoreFile) (path : String) (isDirectory : Bool) : Option Bool :=
  (rules.reverse.find? fun r => (isDirectory || !r.directoriesOnly) && r.glob.covers path).map
    fun r => !r.restores

/-- A path as rules see it: without a dot and a slash in front, and without the directory's own name
in front of one that has a slash. -/
def strip (directory path : String) : String :=
  let drop (start : String) (cs : List Char) : List Char :=
    if start.toList.isPrefixOf cs then cs.drop start.length else cs
  let root := String.ofList (drop "./" directory.toList)
  let cs := drop "./" path.toList
  let cs :=
    if root != "." && cs.contains '/' && root.toList.isPrefixOf cs then
      drop "/" (drop root cs)
    else cs
  String.ofList cs

def ignores (rules : IgnoreFile) (directory path : String) : Bool :=
  let path := strip directory path
  let around := (SourcePath.ancestors path).map fun p => (p, true)
  let decision := ((path, false) :: around).findSome? fun (p, isDirectory) =>
    rules.decide? p isDirectory
  decision.getD false

def reader : IgnoreReader := fun directory content => do
  let rules ← read (SourcePath.join directory ".gitignore") content
  return rules.ignores directory

end IgnoreFile

namespace SourceFilter

def readGlobs (origin : Option String) (globs : List String) :
    Except Failure (List (String → Bool)) :=
  globs.mapM fun text =>
    match Glob.parse? false false text with
    | some g => .ok g.covers
    | none => .error (.config origin (.invalidGlob text))

def ofOptions (options : ScanOptions) (origin : Option String) : Except Failure SourceFilter := do
  let included ← readGlobs origin options.included
  let excluded ← readGlobs origin options.excluded
  return ⟨included, excluded, if options.useIgnoreFile then some IgnoreFile.reader else none⟩

end SourceFilter

end AnswerSetTest
