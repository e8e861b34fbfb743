import GrammarReach.Files.Path
import GrammarReach.Files.Storage
import Std.Data.TreeMap.Lemmas

/-!
# File trees

A tree of files and directories with a working directory in it.  Besides what is
put there it holds a file that is always empty.
-/

namespace GrammarReach

/-- A file with its content, a directory, or a file that stays empty whatever is
written to it. -/
inductive FileNode where
  | file (content : ByteArray)
  | directory
  | sink

/-- The names that lead from the root to a file or directory. -/
abbrev Location := List String

/-- Files and directories, and the place of a working directory. -/
structure FileTree where
  nodes : Std.TreeMap Location FileNode := ∅
  workingDirectory : Location := []

namespace FileTree

def surroundings : List (Location × FileNode) :=
  [(["dev"], .directory), (["dev", "null"], .sink), (["dev", "stdin"], .sink),
    (["tmp"], .directory), (["tmp", "work"], .directory)]

def empty : FileTree where
  nodes := .ofList surroundings
  workingDirectory := ["tmp", "work"]

instance : Inhabited FileTree := ⟨empty⟩

/-- What stands at a location; the root is a directory. -/
def node? (tree : FileTree) (location : Location) : Option FileNode :=
  if location.isEmpty then some .directory else tree.nodes[location]?

/-- The tree with something else at a location. -/
def put (tree : FileTree) (location : Location) (node : FileNode) : FileTree :=
  { tree with nodes := tree.nodes.insert location node }

/-- Takes one step from a directory.  The root is its own parent. -/
def enter (tree : FileTree) (location : Location) (part : String) :
    Except FileError Location :=
  match tree.node? location with
  | some .directory =>
      if part = "." then .ok location
      else if part = ".." then .ok location.dropLast
      else if Path.isPartTooLong part then .error .nameTooLong
      else if (tree.node? (location ++ [part])).isSome then .ok (location ++ [part])
      else .error .notFound
  | some _ => .error .notADirectory
  | none => .error .notFound

def follow (tree : FileTree) (location : Location) : List String → Except FileError Location
  | [] => .ok location
  | part :: rest =>
      match tree.enter location part with
      | .ok next => tree.follow next rest
      | .error reason => .error reason

def origin (tree : FileTree) (path : Path) : Location :=
  if path.absolute then [] else tree.workingDirectory

/-- The path that a text spells, unless there is none. -/
def readPath (text : String) : Except FileError Path :=
  let path := Path.read text
  if Path.isTextTooLong text then .error .nameTooLong
  else if !path.absolute && path.parts.isEmpty then .error .notFound
  else .ok path

def locate (tree : FileTree) (text : String) : Except FileError Location :=
  (readPath text).bind fun path => tree.follow (tree.origin path) path.steps

def isDirectory (tree : FileTree) (path : String) : Bool :=
  match tree.locate path with
  | .ok location =>
      match tree.node? location with
      | some .directory => true
      | _ => false
  | .error _ => false

/-- The content of the file that a path names. -/
def readBytes (tree : FileTree) (path : String) : Except FileError ByteArray :=
  match tree.locate path with
  | .error reason => .error reason
  | .ok location =>
      match tree.node? location with
      | some (.file content) => .ok content
      | some .sink => .ok .empty
      | some .directory => .error .isADirectory
      | none => .error .notFound

/-- The rest of a location behind the given beginning. -/
def behind : Location → Location → Option Location
  | [], rest => some rest
  | _ :: _, [] => none
  | first :: start, part :: rest => if first = part then behind start rest else none

/-- The locations of all files below a directory, seen from there. -/
def filesBelow (tree : FileTree) (path : String) : List Location :=
  match tree.locate path with
  | .error _ => []
  | .ok directory =>
      tree.nodes.toList.filterMap fun (location, node) =>
        match node with
        | .file _ => behind directory location
        | _ => none

/-- The directory in which the last part of a path is to be found, and that
part. -/
def placeFor (tree : FileTree) (path : Path) : Except FileError (Location × String) :=
  match path.parts.getLast? with
  | none => .ok ([], ".")
  | some name =>
      match tree.follow (tree.origin path) path.parts.dropLast with
      | .error reason => .error reason
      | .ok location =>
          match tree.node? location with
          | some .directory => .ok (location, name)
          | some _ => .error .notADirectory
          | none => .error .notFound

/-- Replaces the content of a file or makes a new one. -/
def writeBytes (tree : FileTree) (text : String) (content : ByteArray) :
    Except FileError FileTree :=
  match readPath text with
  | .error reason => .error reason
  | .ok path =>
      match tree.placeFor path with
      | .error reason => .error reason
      | .ok (location, name) =>
          if path.slashed ∨ name = "." ∨ name = ".." then .error .isADirectory
          else if Path.isPartTooLong name then .error .nameTooLong
          else
            match tree.node? (location ++ [name]) with
            | some .directory => .error .isADirectory
            | some .sink => .ok tree
            | _ => .ok (tree.put (location ++ [name]) (.file content))

def makeDirectory (tree : FileTree) (path : Path) : Except FileError FileTree :=
  match tree.placeFor path with
  | .error reason => .error reason
  | .ok (location, name) =>
      if name = "." ∨ name = ".." then .error .alreadyExists
      else if Path.isPartTooLong name then .error .nameTooLong
      else if (tree.node? (location ++ [name])).isSome then .error .alreadyExists
      else .ok (tree.put (location ++ [name]) .directory)

def ensureDirectory (tree : FileTree) (path : Path) : Except FileError FileTree :=
  match tree.makeDirectory path with
  | .ok tree => .ok tree
  | .error reason =>
      match tree.follow (tree.origin path) path.parts with
      | .error _ => .error reason
      | .ok location =>
          match tree.node? location with
          | some .directory => .ok tree
          | _ => .error reason

/-- Makes a directory and those around it, as far as they are missing.  There are
at most `bound` of them. -/
def ensureDirectories (tree : FileTree) : Nat → Path → Except FileError FileTree
  | 0, _ => .ok tree
  | bound + 1, path =>
      if path.parts.isEmpty then
        .ok tree
      else
        match tree.ensureDirectory path with
        | .ok tree => .ok tree
        | .error .notFound =>
            match tree.ensureDirectories bound path.parent with
            | .ok tree => tree.ensureDirectory path
            | .error reason => .error reason
        | .error reason => .error reason

/-- Makes the directory that a path names and those around it, as far as they are
missing. -/
def createDirectories (tree : FileTree) (text : String) : Except FileError FileTree :=
  match readPath text with
  | .error reason => .error reason
  | .ok path => tree.ensureDirectories path.parts.length path

/-- The location of some parts in the working directory. -/
def inWorkingDirectory (tree : FileTree) (parts : List String) : Location :=
  tree.workingDirectory ++ parts

/-- The tree with a directory in the working directory and with those around it. -/
def withDirectory (tree : FileTree) (parts : List String) : FileTree :=
  ((List.range parts.length).map fun length => parts.take (length + 1)).foldl
    (fun tree directory =>
      { tree with
        nodes := tree.nodes.insertIfNew (tree.inWorkingDirectory directory) .directory })
    tree

/-- The tree with a file in the working directory and with the directories around
it. -/
def withFile (tree : FileTree) (parts : List String) (content : ByteArray) : FileTree :=
  let tree := tree.withDirectory parts.dropLast
  tree.put (tree.inWorkingDirectory parts) (.file content)

/-- The files in the working directory and below it, with their contents. -/
def files (tree : FileTree) : List (List String × ByteArray) :=
  tree.nodes.toList.filterMap fun (location, node) =>
    match node, behind tree.workingDirectory location with
    | .file content, some parts => some (parts, content)
    | _, _ => none

/-- Replaces the tree by a changed one unless the change failed. -/
def change (edit : FileTree → Except FileError FileTree) :
    StateM FileTree (Except FileError Unit) := do
  match edit (← get) with
  | .ok tree =>
      set tree
      return .ok ()
  | .error reason => return .error reason

def storage : Storage (StateM FileTree) where
  isDirectory path := return (← get).isDirectory path
  filesBelow path := return (← get).filesBelow path
  readBytes path := return (← get).readBytes path
  createDirectories path := change fun tree => tree.createDirectories path
  writeText path content := change fun tree => tree.writeBytes path content.toUTF8

end FileTree

end GrammarReach
