import GrammarReach.Text.Utf8

/-!
# File storage

What commands need from files: reading, writing, making directories and listing
them.  Each of these can fail.
-/

namespace GrammarReach

/-- Why files could not be used. -/
inductive FileError where
  | notFound
  | permissionDenied
  | alreadyExists
  | notADirectory
  | isADirectory
  | nameTooLong
  /-- The content of a file is not UTF-8. -/
  | invalidText
  | other (description : String)
deriving DecidableEq, Repr

namespace FileError

def description : FileError → String
  | .notFound => "No such file or directory"
  | .permissionDenied => "Permission denied"
  | .alreadyExists => "File exists"
  | .notADirectory => "Not a directory"
  | .isADirectory => "Is a directory"
  | .nameTooLong => "File name too long"
  | .invalidText => "stream did not contain valid UTF-8"
  | .other description => description

/-- The number of a reason, if the system has one for it. -/
def number? : FileError → Option Nat
  | .notFound => some 2
  | .permissionDenied => some 13
  | .alreadyExists => some 17
  | .notADirectory => some 20
  | .isADirectory => some 21
  | .nameTooLong => some 36
  | .invalidText => none
  | .other _ => none

/-- The wording of each reason, with its number. -/
def message (reason : FileError) : String :=
  match reason.number? with
  | some number => reason.description ++ " (os error " ++ Text.decimal number ++ ")"
  | none => reason.description

end FileError

/-- A storage of files whose operations run in `m`. -/
structure Storage (m : Type → Type) where
  isDirectory : String → m Bool
  /-- The parts of the paths of all files below a directory. -/
  filesBelow : String → m (List (List String))
  readBytes : String → m (Except FileError ByteArray)
  /-- Makes a directory and those around it, as far as they are missing. -/
  createDirectories : String → m (Except FileError Unit)
  /-- Replaces the content of a file or makes a new one. -/
  writeText : String → String → m (Except FileError Unit)

namespace Storage

variable {m : Type → Type} [Monad m]

def readText (storage : Storage m) (path : String) : m (Except FileError String) := do
  match ← storage.readBytes path with
  | .error reason => return .error reason
  | .ok bytes =>
      match Text.ofUtf8 bytes with
      | .ok text => return .ok text
      | .error _ => return .error .invalidText

end Storage

end GrammarReach
