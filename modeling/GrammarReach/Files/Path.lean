import GrammarReach.Text.Pieces

/-!
# Paths

A path is a text of parts between slashes.  Empty parts do not count, `.` stays
where it is and `..` leads one directory up.
-/

namespace GrammarReach

/-- The parts of a path, and what its slashes say. -/
structure Path where
  /-- The path starts at the root of all files. -/
  absolute : Bool := false
  parts : List String := []
  /-- The path ends with a slash and so names a directory. -/
  slashed : Bool := false
deriving DecidableEq, Repr

namespace Path

def read (text : String) : Path where
  absolute := text.toList.head? == some '/'
  parts := (Text.fields (· == '/') text.toList).map String.ofList
  slashed := text.toList.getLast? == some '/'

/-- The steps that lead to what the path names. -/
def steps (path : Path) : List String :=
  path.parts ++ if path.slashed then ["."] else []

/-- The number of bytes that a part can have. -/
def longestPart : Nat := 255

/-- The number of bytes that a path can have. -/
def longestText : Nat := 4095

/-- The part has more bytes than a file system takes. -/
def isPartTooLong (part : String) : Bool :=
  longestPart < part.utf8ByteSize

/-- The text has more bytes than a path can have. -/
def isTextTooLong (text : String) : Bool :=
  longestText < text.utf8ByteSize

/-- The parts without those that stay where they are, except for the first part of
a path from the working directory. -/
def tidyParts (path : Path) : List String :=
  match path.absolute, path.parts with
  | false, first :: rest => first :: rest.filter (· ≠ ".")
  | _, parts => parts.filter (· ≠ ".")

/-- The directory around the path, if it has one. -/
def parent (path : Path) : Path :=
  { absolute := path.absolute, parts := path.tidyParts.dropLast }

/-- The name of the file that the path leads to, unless the last part leads up or
stays. -/
def fileName? (path : Path) : Option String :=
  match path.tidyParts.getLast? with
  | some name => if name = "." ∨ name = ".." then none else some name
  | none => none

def join (directory : String) (parts : List String) : String :=
  parts.foldl
    (fun path part =>
      if path.toList.getLast? = some '/' then path ++ part else path ++ "/" ++ part)
    directory

/-- The part of a file name behind its last full stop, unless nothing stands
before it. -/
def extension? (name : String) : Option String :=
  let backwards := name.toList.reverse
  let ending := backwards.takeWhile (· != '.')
  match backwards.dropWhile (· != '.') with
  | '.' :: _ :: _ => some (String.ofList ending.reverse)
  | _ => none

end Path

end GrammarReach
