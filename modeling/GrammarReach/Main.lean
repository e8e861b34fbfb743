import GrammarReach.Command.Run

/-!
# Command line

Runs the arguments on the files of the machine and prints the outcome.
-/

namespace GrammarReach

namespace DiskStorage

/-- The reason of a failed operation on the disk. -/
def fileError : IO.Error → FileError
  | .noFileOrDirectory _ _ _ => .notFound
  | .alreadyExists _ _ _ => .alreadyExists
  | .inappropriateType _ code _ => if code = 21 then .isADirectory else .notADirectory
  | .permissionDenied _ _ _ => .permissionDenied
  | .invalidArgument _ 36 _ => .nameTooLong
  | reason => .other (toString reason)

/-- Runs an operation and returns its failure as a value. -/
def attempt {α : Type} (operation : IO α) : IO (Except FileError α) := do
  match ← operation.toBaseIO with
  | .ok value => return .ok value
  | .error reason => return .error (fileError reason)

/-- The parts of the paths of all files below a directory.  What cannot be listed
is skipped. -/
partial def filesBelow (directory : IO.FS.DirEntry) (parts : List String) :
    IO (List (List String)) := do
  let listing ← attempt directory.path.readDir
  let entries := match listing with
    | .ok entries => entries.toList
    | .error _ => []
  let found ← entries.mapM fun entry => do
    let here := parts ++ [entry.fileName]
    match ← attempt entry.path.symlinkMetadata with
    | .error _ => return []
    | .ok metadata =>
        match metadata.type with
        | .dir => filesBelow entry here
        | .file => return [here]
        | _ => return []
  return found.flatten

def storage : Storage IO where
  isDirectory path := do
    match ← attempt (IO.FS.DirEntry.mk path "").root.metadata with
    | .ok metadata => return metadata.type == .dir
    | .error _ => return false
  filesBelow path := filesBelow ⟨path, ""⟩ []
  readBytes path := attempt (IO.FS.readBinFile path)
  createDirectories path := attempt (IO.FS.createDirAll path)
  writeText path content := attempt (IO.FS.writeFile path content)

end DiskStorage

end GrammarReach

def main (arguments : List String) : IO UInt32 := do
  let outcome ← GrammarReach.CommandLine.runArguments GrammarReach.DiskStorage.storage arguments
  IO.print outcome.output
  IO.eprint outcome.notices
  return outcome.exitCode.toUInt32
