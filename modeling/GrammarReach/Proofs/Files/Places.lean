import GrammarReach.Files.Tree
import Mathlib.Tactic.SplitIfs

/-!
# Places of files

A path leads to a place through directories.  Making directories leaves all files as they are, so
whatever was found by a path before is found by it afterwards.  A file is written to the place of
its path, or it is refused whatever its content is.
-/

namespace GrammarReach

namespace FileTree

variable {tree other third : FileTree} {location target : Location} {text : String}

/-! ## Nodes -/

theorem node?_put_self (nonempty : location ≠ []) (node : FileNode) :
    (tree.put location node).node? location = some node := by
  simp [node?, put, nonempty]

theorem node?_put_of_ne (different : location ≠ target) (node : FileNode) :
    (tree.put location node).node? target = tree.node? target := by
  simp only [node?, put, Std.TreeMap.getElem?_insert, Std.compare_eq_iff_eq]
  rw [if_neg different]

/-! ## Larger trees -/

/-- The other tree has the directories of the tree, and something wherever the tree has. -/
structure Covers (other tree : FileTree) : Prop where
  workingDirectory : other.workingDirectory = tree.workingDirectory
  directory {location : Location} : tree.node? location = some .directory →
    other.node? location = some .directory
  some {location : Location} : (tree.node? location).isSome → (other.node? location).isSome

/-- The other tree has everything that the tree has. -/
structure Extends (other tree : FileTree) : Prop where
  workingDirectory : other.workingDirectory = tree.workingDirectory
  node {location : Location} {node : FileNode} : tree.node? location = some node →
    other.node? location = some node

theorem Covers.refl (tree : FileTree) : Covers tree tree :=
  ⟨rfl, id, id⟩

theorem Covers.trans (later : Covers third other) (covers : Covers other tree) :
    Covers third tree :=
  ⟨later.workingDirectory.trans covers.workingDirectory,
    fun found => later.directory (covers.directory found),
    fun found => later.some (covers.some found)⟩

theorem Extends.refl (tree : FileTree) : Extends tree tree :=
  ⟨rfl, id⟩

theorem Extends.trans (later : Extends third other) (larger : Extends other tree) :
    Extends third tree :=
  ⟨later.workingDirectory.trans larger.workingDirectory,
    fun found => later.node (larger.node found)⟩

theorem Extends.covers (larger : Extends other tree) : Covers other tree := by
  refine ⟨larger.workingDirectory, larger.node, fun found => ?_⟩
  obtain ⟨node, isNode⟩ := Option.isSome_iff_exists.mp found
  rw [larger.node isNode]
  rfl

/-! ## Following paths -/

theorem enter_of_directory {part : String} (isDirectory : tree.node? location = some .directory)
    (some : (tree.node? (location ++ [part])).isSome) (stays : part ≠ ".") (up : part ≠ "..")
    (fits : Path.isPartTooLong part = false) :
    tree.enter location part = .ok (location ++ [part]) := by
  simp [enter, isDirectory, some, stays, up, fits]

theorem directory_of_enter {part : String} (entered : tree.enter location part = .ok target) :
    tree.node? location = some .directory := by
  unfold enter at entered
  split at entered
  · assumption
  · cases entered
  · cases entered

theorem Covers.enter (covers : Covers other tree) {part : String}
    (entered : tree.enter location part = .ok target) :
    other.enter location part = .ok target := by
  have isDirectory := directory_of_enter entered
  simp only [FileTree.enter, isDirectory, covers.directory isDirectory] at entered ⊢
  cases found : (tree.node? (location ++ [part])).isSome with
  | true => simpa only [found, covers.some found] using entered
  | false =>
      rw [found] at entered
      grind

theorem follow_cons_eq_ok_iff {part : String} {parts : List String} :
    tree.follow location (part :: parts) = .ok target ↔
      ∃ next, tree.enter location part = .ok next ∧ tree.follow next parts = .ok target := by
  rw [follow]
  cases tree.enter location part <;> simp

theorem Covers.follow (covers : Covers other tree) {parts : List String}
    (followed : tree.follow location parts = .ok target) :
    other.follow location parts = .ok target := by
  induction parts generalizing location with
  | nil => exact followed
  | cons part parts induction =>
      obtain ⟨next, entered, later⟩ := follow_cons_eq_ok_iff.mp followed
      exact follow_cons_eq_ok_iff.mpr ⟨next, covers.enter entered, induction later⟩

theorem follow_concat {around : List String} (followed : tree.follow location around = .ok target)
    (part : String) : tree.follow location (around ++ [part]) = tree.enter target part := by
  induction around generalizing location with
  | nil =>
      cases followed
      rw [List.nil_append, FileTree.follow]
      cases entered : tree.enter target part <;> simp [FileTree.follow]
  | cons first around induction =>
      obtain ⟨next, entered, later⟩ := follow_cons_eq_ok_iff.mp followed
      rw [List.cons_append, FileTree.follow, entered]
      exact induction later

theorem directory_of_follow {parts : List String}
    (followed : tree.follow location parts = .ok target)
    (isDirectory : tree.node? target = some .directory) :
    tree.node? location = some .directory := by
  cases parts with
  | nil =>
      cases followed
      exact isDirectory
  | cons part parts =>
      obtain ⟨_, entered, _⟩ := follow_cons_eq_ok_iff.mp followed
      exact directory_of_enter entered

theorem Covers.origin (covers : Covers other tree) (path : Path) :
    other.origin path = tree.origin path := by
  rw [FileTree.origin, FileTree.origin, covers.workingDirectory]

theorem locate_eq_ok_iff : tree.locate text = .ok location ↔
    ∃ path, readPath text = .ok path ∧
      tree.follow (tree.origin path) path.steps = .ok location := by
  unfold locate
  cases readPath text <;> simp [Except.bind]

theorem Covers.locate (covers : Covers other tree) (found : tree.locate text = .ok location) :
    other.locate text = .ok location := by
  obtain ⟨path, isPath, followed⟩ := locate_eq_ok_iff.mp found
  refine locate_eq_ok_iff.mpr ⟨path, isPath, ?_⟩
  rw [covers.origin]
  exact covers.follow followed

/-! ## Reading files -/

/-- What is read from a file. -/
def content? : FileNode → Option ByteArray
  | .file content => some content
  | .sink => some .empty
  | .directory => none

theorem readBytes_eq_ok_iff {content : ByteArray} : tree.readBytes text = .ok content ↔
    ∃ location node, tree.locate text = .ok location ∧ tree.node? location = some node ∧
      content? node = some content := by
  unfold readBytes
  cases tree.locate text with
  | error reason => simp
  | ok location =>
      rcases isNode : tree.node? location with _ | _ | _ | _ <;> simp [isNode, content?]

theorem Extends.readBytes (larger : Extends other tree) {content : ByteArray}
    (read : tree.readBytes text = .ok content) : other.readBytes text = .ok content := by
  obtain ⟨location, node, found, isNode, holds⟩ := readBytes_eq_ok_iff.mp read
  exact readBytes_eq_ok_iff.mpr
    ⟨location, node, larger.covers.locate found, larger.node isNode, holds⟩

theorem located_of_read {content : ByteArray} (read : tree.readBytes text = .ok content) :
    ∃ location, tree.locate text = .ok location ∧ (tree.node? location).isSome := by
  obtain ⟨location, node, found, isNode, _⟩ := readBytes_eq_ok_iff.mp read
  exact ⟨location, found, by rw [isNode]; rfl⟩

/-! ## Making directories -/

theorem extends_put (empty : tree.node? location = none) (node : FileNode) :
    Extends (tree.put location node) tree := by
  refine ⟨rfl, fun {other found} isNode => ?_⟩
  have different : location ≠ other := by
    rintro rfl
    rw [empty] at isNode
    cases isNode
  rw [node?_put_of_ne different, isNode]

theorem extends_makeDirectory {path : Path} (made : tree.makeDirectory path = .ok other) :
    Extends other tree := by
  unfold makeDirectory at made
  split at made
  · cases made
  · split_ifs at made with inPlace tooLong existing
    cases made
    exact extends_put (by simpa using existing) .directory

theorem extends_ensureDirectory {path : Path} (made : tree.ensureDirectory path = .ok other) :
    Extends other tree := by
  unfold ensureDirectory at made
  split at made
  · rename_i new isMade
    cases made
    exact extends_makeDirectory isMade
  · split at made
    · cases made
    · split at made
      · cases made
        exact Extends.refl tree
      · cases made

theorem extends_ensureDirectories {bound : Nat} {path : Path}
    (made : tree.ensureDirectories bound path = .ok other) : Extends other tree := by
  induction bound generalizing tree other path with
  | zero =>
      cases made
      exact Extends.refl tree
  | succ bound induction =>
      unfold ensureDirectories at made
      split at made
      · cases made
        exact Extends.refl tree
      · split at made
        · rename_i new isMade
          cases made
          exact extends_ensureDirectory isMade
        · split at made
          · rename_i around aroundMade
            exact (extends_ensureDirectory made).trans (induction aroundMade)
          · cases made
        · cases made

theorem extends_createDirectories (made : tree.createDirectories text = .ok other) :
    Extends other tree := by
  unfold createDirectories at made
  split at made
  · cases made
  · exact extends_ensureDirectories made

theorem nonempty_of_createDirectories (made : tree.createDirectories text = .ok other) :
    text ≠ "" := by
  rintro rfl
  have refused : tree.createDirectories "" = .error .notFound := rfl
  cases made.symm.trans refused

/-! ## Places to write to -/

/-- A text leads to a name in a directory at which a file stands or can be made. -/
structure LeadsTo (tree : FileTree) (text : String) (directory : Location) (name : String) :
    Prop where
  steps : ∃ path around, readPath text = .ok path ∧ path.slashed = false ∧
    path.parts = around ++ [name] ∧ tree.follow (tree.origin path) around = .ok directory
  isDirectory : tree.node? directory = some .directory
  stays : name ≠ "."
  up : name ≠ ".."
  fits : Path.isPartTooLong name = false
  noDirectory : tree.node? (directory ++ [name]) ≠ some .directory

/-- The place where the content of a file would be written, unless writing would fail. -/
def place? (tree : FileTree) (text : String) : Option Location :=
  match readPath text with
  | .error _ => none
  | .ok path =>
      match tree.placeFor path with
      | .error _ => none
      | .ok (location, name) =>
          if path.slashed ∨ name = "." ∨ name = ".." then none
          else if Path.isPartTooLong name then none
          else
            match tree.node? (location ++ [name]) with
            | some .directory => none
            | _ => some (location ++ [name])

/-- The tree with a content at a place, unless nothing is kept there. -/
def store (tree : FileTree) (location : Location) (content : ByteArray) : FileTree :=
  match tree.node? location with
  | some .sink => tree
  | _ => tree.put location (.file content)

/-- Writing changes what is at the place of a text, or it fails whatever is written. -/
theorem writeBytes_cases (tree : FileTree) (text : String) :
    (∃ location, tree.place? text = some location ∧
      ∀ content, tree.writeBytes text content = .ok (tree.store location content)) ∨
    (tree.place? text = none ∧
      ∃ reason, ∀ content, tree.writeBytes text content = .error reason) := by
  unfold place? writeBytes store
  cases readPath text with
  | error reason => exact .inr ⟨rfl, reason, fun _ => rfl⟩
  | ok path =>
      dsimp only
      cases found : tree.placeFor path with
      | error reason => exact .inr ⟨rfl, reason, fun _ => rfl⟩
      | ok around =>
          obtain ⟨directory, name⟩ := around
          dsimp only
          split_ifs
          · exact .inr ⟨rfl, _, fun _ => rfl⟩
          · exact .inr ⟨rfl, _, fun _ => rfl⟩
          · cases isNode : tree.node? (directory ++ [name]) with
            | none => exact .inl ⟨_, rfl, fun _ => by rw [isNode]⟩
            | some node =>
                cases node with
                | directory => exact .inr ⟨rfl, _, fun _ => rfl⟩
                | file | sink => exact .inl ⟨_, rfl, fun _ => by rw [isNode]⟩

theorem placeFor_cases {path : Path} {directory : Location} {name : String}
    (found : tree.placeFor path = .ok (directory, name)) : name = "." ∨
      tree.node? directory = some .directory ∧ ∃ around, path.parts = around ++ [name] ∧
        tree.follow (tree.origin path) around = .ok directory := by
  unfold placeFor at found
  split at found
  · cases found
    exact .inl rfl
  · rename_i last isLast
    obtain ⟨around, parts⟩ := List.getLast?_eq_some_iff.mp isLast
    rw [parts, List.dropLast_concat] at found
    split at found
    · cases found
    · rename_i start followed
      split at found
      · rename_i isDirectory
        cases found
        exact .inr ⟨isDirectory, around, parts, followed⟩
      · cases found
      · cases found

theorem place?_eq_some_iff : tree.place? text = some location ↔
    ∃ directory name, tree.LeadsTo text directory name ∧ location = directory ++ [name] := by
  constructor
  · intro isPlace
    unfold place? at isPlace
    split at isPlace
    · cases isPlace
    · rename_i path isPath
      split at isPlace
      · cases isPlace
      · rename_i directory name found
        split_ifs at isPlace with wrong long
        obtain ⟨unslashed, stays, up⟩ : path.slashed = false ∧ name ≠ "." ∧ name ≠ ".." := by
          simpa using wrong
        obtain ⟨isDirectory, around, parts, followed⟩ :=
          (placeFor_cases found).resolve_left stays
        split at isPlace
        · cases isPlace
        · rename_i noDirectory
          cases isPlace
          exact ⟨directory, name, ⟨⟨path, around, isPath, unslashed, parts, followed⟩,
            isDirectory, stays, up, by simpa using long, noDirectory⟩, rfl⟩
  · rintro ⟨directory, name, leads, rfl⟩
    obtain ⟨path, around, isPath, unslashed, parts, followed⟩ := leads.steps
    have found : tree.placeFor path = .ok (directory, name) := by
      simp [placeFor, parts, followed, leads.isDirectory]
    simp only [place?, isPath, found, unslashed, leads.stays, leads.up, leads.fits]
    simp [leads.noDirectory]

theorem locate_of_place (isPlace : tree.place? text = some location)
    (taken : (tree.node? location).isSome) : tree.locate text = .ok location := by
  obtain ⟨directory, name, leads, rfl⟩ := place?_eq_some_iff.mp isPlace
  obtain ⟨path, around, isPath, unslashed, parts, followed⟩ := leads.steps
  have entered := enter_of_directory leads.isDirectory taken leads.stays leads.up leads.fits
  have whole : tree.follow (tree.origin path) (around ++ [name]) = .ok (directory ++ [name]) :=
    (follow_concat followed name).trans entered
  exact locate_eq_ok_iff.mpr ⟨path, isPath, by simp [Path.steps, unslashed, parts, whole]⟩

theorem place_of_locate (isPlace : tree.place? text = some location)
    (found : tree.locate text = .ok target) : target = location := by
  obtain ⟨directory, name, leads, rfl⟩ := place?_eq_some_iff.mp isPlace
  obtain ⟨path, around, isPath, unslashed, parts, followed⟩ := leads.steps
  have entered : tree.enter directory name = .ok target := by
    obtain ⟨other, isOther, whole⟩ := locate_eq_ok_iff.mp found
    cases isPath.symm.trans isOther
    rw [← follow_concat followed name]
    simpa [Path.steps, unslashed, parts] using whole
  simp only [FileTree.enter, leads.isDirectory, leads.stays, leads.up, leads.fits] at entered
  grind

theorem readPath_eq {path : Path} (isPath : readPath text = .ok path) : path = Path.read text := by
  unfold readPath at isPath
  dsimp only at isPath
  split_ifs at isPath
  exact (Except.ok.inj isPath).symm

theorem getLast?_of_place (isPlace : tree.place? text = some location) :
    location.getLast? = (Path.read text).parts.getLast? := by
  obtain ⟨directory, name, leads, rfl⟩ := place?_eq_some_iff.mp isPlace
  obtain ⟨path, around, isPath, _, parts, _⟩ := leads.steps
  rw [← readPath_eq isPath, parts, List.getLast?_concat, List.getLast?_concat]

theorem place?_ne_nil (isPlace : tree.place? text = some location) : location ≠ [] := by
  obtain ⟨directory, name, _, rfl⟩ := place?_eq_some_iff.mp isPlace
  simp

theorem noDirectory_of_place (isPlace : tree.place? text = some location) :
    tree.node? location ≠ some .directory := by
  obtain ⟨directory, name, leads, rfl⟩ := place?_eq_some_iff.mp isPlace
  exact leads.noDirectory

end FileTree

end GrammarReach
