import GrammarReach.Files.Path
import GrammarReach.TextFilter.Copying
import GrammarReach.TextFilter.Substitution
import GrammarReach.TextFilter.Template

/-!
# The filters by name

The filters that can be named as a grammar normalizer: one copies its input and
files, one substitutes bytes, one prints a template and two only succeed or fail.
-/

namespace GrammarReach

namespace TextFilter

/-- The filters. -/
inductive Filter where
  | copy
  | substitute
  | printTemplate
  | succeed
  | fail
deriving DecidableEq, Repr

namespace Filter

def named : List (String × Filter) :=
  [("cat", copy), ("tr", substitute), ("printf", printTemplate), ("true", succeed),
    ("false", fail)]

def directories : List (List String) :=
  [["bin"], ["usr", "bin"]]

def ofPath? (path : Path) : Option Filter :=
  if path.absolute && !path.slashed && directories.contains path.parts.dropLast then
    path.parts.getLast?.bind fun name => named.lookup name
  else
    none

variable {m : Type → Type} [Monad m]

/-- The filter that a program name stands for.  A name with slashes is the path of
a file; files besides the filters cannot be run.  The working directory and the one
around it stand in every directory, but cannot be run either. -/
def find (storage : Storage m) (program : String) : m (Except FileError Filter) := do
  if program.toList.contains '/' then
    match ofPath? (Path.read program) with
    | some filter => return .ok filter
    | none =>
        match ← storage.readBytes program with
        | .ok _ => return .error .permissionDenied
        | .error .isADirectory => return .error .permissionDenied
        | .error reason => return .error reason
  else if program = "." ∨ program = ".." then
    return .error .permissionDenied
  else
    match named.lookup program with
    | some filter => return .ok filter
    | none =>
        return .error (if Path.isPartTooLong program then .nameTooLong else .notFound)

/-- Runs a filter under the name by which it was called. -/
def run (storage : Storage m) (filter : Filter) (program : String) (arguments : List String)
    (input : List UInt8) : m FilterOutcome :=
  match filter with
  | copy => TextFilter.copy storage program arguments input
  | substitute => return TextFilter.substitute program arguments input
  | printTemplate => return TextFilter.printTemplate program arguments
  | succeed => return .printed []
  | fail => return .failed []

end Filter

end TextFilter

end GrammarReach
