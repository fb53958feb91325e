import AnswerSetTest.Command

/-!
# The program

Takes a snapshot of the files that the arguments name, runs the command on it, and writes what it
leaves behind.
-/

namespace AnswerSetTest

def readFault : IO.Error → ReadFault
  | .noFileOrDirectory .. => .notFound
  | .inappropriateType .. => .notADirectory
  | e => .other (toString e)

/-- The tree at a path. Below it, what is neither a file nor a directory is left out, and so is what
cannot be read. -/
partial def snapshot (path : String) : IO FileTree := do
  let place := System.mkFilePath [path]
  if (← place.metadata).type == .dir then
    let entries ← place.readDir
    let trees ← entries.toList.filterMapM fun entry => do
      try
        let inner := System.mkFilePath [SourcePath.join path entry.fileName]
        match (← inner.symlinkMetadata).type with
        | .dir | .file => return some (entry.fileName, ← snapshot inner.toString)
        | _ => return none
      catch _ => return none
    return .directory trees
  else
    return .file (← IO.FS.readBinFile place)

def fileSystem (paths : List String) : IO FileSystem := do
  let found : List (String × Except ReadFault FileTree) ← paths.mapM fun path => do
    try return (path, .ok (← snapshot path))
    catch e => return (path, .error (readFault e))
  return fun path => (found.lookup path).getD (.error .notFound)

def standardInput : IO (Except ReadFault String) := do
  let content ← (← IO.getStdin).readBinToEnd
  return (FileTree.file content).text?

/-- The environment of an invocation. Standard input is read only if it is a source. -/
def environment (i : Invocation) : IO Environment := do
  let directory := (← IO.currentDir).toString
  let files ← fileSystem (i.config.getD (Config.defaultPath directory) :: i.paths)
  let input ← if i.paths.isEmpty || i.paths.contains "-" then standardInput else pure (.ok "")
  return ⟨files, directory, input, ← IO.getEnv "COLUMNS"⟩

def runCommand (args : List String) : IO UInt32 := do
  match Invocation.parse? args with
  | none =>
    IO.eprintln "error: invalid arguments"
    return 2
  | some i =>
    let outcome := Command.run (← environment i) i
    IO.print outcome.output
    IO.eprint outcome.errors
    return outcome.code.toUInt32

end AnswerSetTest

def main (args : List String) : IO UInt32 := AnswerSetTest.runCommand args
