import GrammarReach.Proofs.Files.Places

/-!
# Written files in a tree

Writing a file changes no directory, so the places of paths stay the same while files are written
one after the other.  In the end every place holds what was last written to it, or what it held
before.
-/

namespace GrammarReach

namespace FileTree

variable {tree other : FileTree} {location target : Location} {text : String}

/-! ## Unchanged directories -/

/-- Both trees have the same directories. -/
structure SameDirectories (other tree : FileTree) : Prop where
  workingDirectory : other.workingDirectory = tree.workingDirectory
  iff {location : Location} :
    other.node? location = some .directory ↔ tree.node? location = some .directory

theorem SameDirectories.symm (same : SameDirectories other tree) : SameDirectories tree other :=
  ⟨same.workingDirectory.symm, same.iff.symm⟩

theorem SameDirectories.follow (same : SameDirectories other tree) {parts : List String}
    (followed : tree.follow location parts = .ok target)
    (isDirectory : tree.node? target = some .directory) :
    other.follow location parts = .ok target := by
  induction parts generalizing location with
  | nil => exact followed
  | cons part parts induction =>
      obtain ⟨next, entered, later⟩ := follow_cons_eq_ok_iff.mp followed
      have start := same.iff.mpr (directory_of_enter entered)
      have between := same.iff.mpr (directory_of_follow later isDirectory)
      have again : other.enter location part = .ok next := by
        simp only [FileTree.enter, directory_of_enter entered, start] at entered ⊢
        grind
      exact follow_cons_eq_ok_iff.mpr ⟨next, again, induction later⟩

theorem SameDirectories.leadsTo (same : SameDirectories other tree) {directory : Location}
    {name : String} (leads : tree.LeadsTo text directory name) :
    other.LeadsTo text directory name := by
  obtain ⟨path, around, isPath, unslashed, parts, followed⟩ := leads.steps
  refine ⟨⟨path, around, isPath, unslashed, parts, ?_⟩, same.iff.mpr leads.isDirectory,
    leads.stays, leads.up, leads.fits, fun isDirectory =>
      leads.noDirectory (same.iff.mp isDirectory)⟩
  have origin : other.origin path = tree.origin path := by
    rw [FileTree.origin, FileTree.origin, same.workingDirectory]
  rw [origin]
  exact same.follow followed leads.isDirectory

theorem SameDirectories.place? (same : SameDirectories other tree) (text : String) :
    other.place? text = tree.place? text := by
  refine Option.ext fun location => ?_
  rw [place?_eq_some_iff, place?_eq_some_iff]
  exact ⟨fun ⟨directory, name, leads, at_⟩ => ⟨directory, name, same.symm.leadsTo leads, at_⟩,
    fun ⟨directory, name, leads, at_⟩ => ⟨directory, name, same.leadsTo leads, at_⟩⟩

/-! ## Contents -/

/-- What stands at a place after a content was written to it. -/
def rewritten (before : Option FileNode) (content : ByteArray) : FileNode :=
  match before with
  | some .sink => .sink
  | _ => .file content

theorem rewritten_rewritten (before : Option FileNode) (first second : ByteArray) :
    rewritten (some (rewritten before first)) second = rewritten before second := by
  rcases before with _ | _ | _ | _ <;> rfl

theorem rewritten_ne_directory (before : Option FileNode) (content : ByteArray) :
    rewritten before content ≠ .directory := by
  rcases before with _ | _ | _ | _ <;> simp [rewritten]

theorem node?_store_self (nonempty : location ≠ []) (content : ByteArray) :
    (tree.store location content).node? location =
      some (rewritten (tree.node? location) content) := by
  unfold store
  split
  · rename_i isSink
    rw [isSink]
    rfl
  · rename_i noSink
    rw [node?_put_self nonempty]
    unfold rewritten
    split
    · rename_i isSink
      exact absurd isSink noSink
    · rfl

theorem node?_store_of_ne (different : location ≠ target) (content : ByteArray) :
    (tree.store location content).node? target = tree.node? target := by
  unfold store
  split
  · rfl
  · exact node?_put_of_ne different _

theorem workingDirectory_store (content : ByteArray) :
    (tree.store location content).workingDirectory = tree.workingDirectory := by
  unfold store
  split <;> rfl

theorem sameDirectories_store (isPlace : tree.place? text = some location)
    (content : ByteArray) : SameDirectories (tree.store location content) tree := by
  refine ⟨workingDirectory_store content, fun {target} => ?_⟩
  by_cases same : location = target
  · subst same
    rw [node?_store_self (place?_ne_nil isPlace)]
    simp [rewritten_ne_directory, noDirectory_of_place isPlace]
  · rw [node?_store_of_ne same]

theorem covers_store (isPlace : tree.place? text = some location) (content : ByteArray) :
    Covers (tree.store location content) tree := by
  refine ⟨workingDirectory_store content,
    (sameDirectories_store isPlace content).iff.mpr, fun {target} taken => ?_⟩
  by_cases same : location = target
  · subst same
    rw [node?_store_self (place?_ne_nil isPlace)]
    rfl
  · rw [node?_store_of_ne same]
    exact taken

/-! ## Writing many files -/

/-- The tree after a text was written to a path, if that is possible. -/
def write (tree : FileTree) (writing : String × String) : FileTree :=
  match tree.place? writing.1 with
  | some location => tree.store location writing.2.toUTF8
  | none => tree

def writeEach (tree : FileTree) (writings : List (String × String)) : FileTree :=
  writings.foldl write tree

theorem writeEach_cons (tree : FileTree) (writing : String × String)
    (writings : List (String × String)) :
    tree.writeEach (writing :: writings) = (tree.write writing).writeEach writings :=
  rfl

theorem writeEach_append (tree : FileTree) (first later : List (String × String)) :
    tree.writeEach (first ++ later) = (tree.writeEach first).writeEach later :=
  List.foldl_append

/-- The last text that was written to one of the chosen paths. -/
def lastText? (chosen : String → Bool) : List (String × String) → Option String
  | [] => none
  | (path, text) :: later => (lastText? chosen later).or (if chosen path then some text else none)

theorem lastText?_eq_none_iff {chosen : String → Bool} {writings : List (String × String)} :
    lastText? chosen writings = none ↔ ∀ writing ∈ writings, chosen writing.1 = false := by
  induction writings with
  | nil => simp [lastText?]
  | cons writing writings induction =>
      rw [lastText?, Option.or_eq_none_iff, induction, List.forall_mem_cons]
      simp [and_comm]

theorem mem_of_lastText? {chosen : String → Bool} {writings : List (String × String)}
    {text : String} (isLast : lastText? chosen writings = some text) :
    ∃ path, chosen path = true ∧ (path, text) ∈ writings := by
  induction writings with
  | nil => cases isLast
  | cons writing writings induction =>
      rw [lastText?, Option.or_eq_some_iff] at isLast
      rcases isLast with later | ⟨_, first⟩
      · obtain ⟨path, isChosen, member⟩ := induction later
        exact ⟨path, isChosen, List.mem_cons_of_mem _ member⟩
      · split at first
        · rename_i isChosen
          cases first
          exact ⟨writing.1, isChosen, List.mem_cons_self⟩
        · cases first

/-- The last text that was written to a place. -/
def lastAt? (tree : FileTree) (location : Location) (writings : List (String × String)) :
    Option String :=
  lastText? (fun path => tree.place? path = some location) writings

theorem sameDirectories_write (tree : FileTree) (writing : String × String) :
    SameDirectories (tree.write writing) tree := by
  unfold write
  split
  · rename_i isPlace
    exact sameDirectories_store isPlace _
  · exact ⟨rfl, Iff.rfl⟩

theorem covers_write (tree : FileTree) (writing : String × String) :
    Covers (tree.write writing) tree := by
  unfold write
  split
  · rename_i isPlace
    exact covers_store isPlace _
  · exact Covers.refl tree

theorem sameDirectories_writeEach (tree : FileTree) (writings : List (String × String)) :
    SameDirectories (tree.writeEach writings) tree := by
  induction writings generalizing tree with
  | nil => exact ⟨rfl, Iff.rfl⟩
  | cons writing writings induction =>
      have first := sameDirectories_write tree writing
      have later := induction (tree.write writing)
      exact ⟨later.workingDirectory.trans first.workingDirectory, later.iff.trans first.iff⟩

theorem covers_writeEach (tree : FileTree) (writings : List (String × String)) :
    Covers (tree.writeEach writings) tree := by
  induction writings generalizing tree with
  | nil => exact Covers.refl tree
  | cons writing writings induction =>
      exact (induction (tree.write writing)).trans (covers_write tree writing)

theorem node?_write (tree : FileTree) (writing : String × String) (location : Location) :
    (tree.write writing).node? location =
      if tree.place? writing.1 = some location then
        some (rewritten (tree.node? location) writing.2.toUTF8)
      else tree.node? location := by
  unfold write
  cases isPlace : tree.place? writing.1 with
  | none => simp
  | some place =>
      by_cases same : place = location
      · subst same
        simp [node?_store_self (place?_ne_nil isPlace)]
      · simp [node?_store_of_ne same, same]

theorem node?_writeEach (tree : FileTree) (writings : List (String × String))
    (location : Location) : (tree.writeEach writings).node? location =
      match tree.lastAt? location writings with
      | some text => some (rewritten (tree.node? location) text.toUTF8)
      | none => tree.node? location := by
  induction writings generalizing tree with
  | nil => rfl
  | cons writing writings induction =>
      have places : (tree.write writing).lastAt? location writings =
          tree.lastAt? location writings := by
        simp only [lastAt?, (sameDirectories_write tree writing).place?]
      have first : tree.lastAt? location (writing :: writings) =
          (tree.lastAt? location writings).or
            (if tree.place? writing.1 = some location then some writing.2 else none) := by
        simp [lastAt?, lastText?]
      have later := induction (tree.write writing)
      rw [places, node?_write] at later
      refine later.trans ?_
      rw [first]
      by_cases here : tree.place? writing.1 = some location
      · cases tree.lastAt? location writings <;> simp [here, rewritten_rewritten]
      · cases tree.lastAt? location writings <;> simp [here]

/-- What is kept of a content at a place. -/
def kept (before : Option FileNode) (content : ByteArray) : ByteArray :=
  match before with
  | some .sink => .empty
  | _ => content

theorem readBytes_of_rewritten {before : Option FileNode} {content : ByteArray}
    (found : tree.locate text = .ok location)
    (isNode : tree.node? location = some (rewritten before content)) :
    tree.readBytes text = .ok (kept before content) := by
  refine readBytes_eq_ok_iff.mpr ⟨location, _, found, isNode, ?_⟩
  rcases before with _ | _ | _ | _ <;> rfl

variable {writings : List (String × String)} {last : String}

theorem readBytes_writeEach_of_place (isPlace : tree.place? text = some location)
    (isLast : tree.lastAt? location writings = some last) :
    (tree.writeEach writings).readBytes text =
      .ok (kept (tree.node? location) last.toUTF8) := by
  have isNode := node?_writeEach tree writings location
  rw [isLast] at isNode
  refine readBytes_of_rewritten (locate_of_place ?_ (by rw [isNode]; rfl)) isNode
  rw [(sameDirectories_writeEach tree writings).place?, isPlace]

theorem readBytes_writeEach_of_locate (found : tree.locate text = .ok location)
    (isLast : tree.lastAt? location writings = some last) :
    (tree.writeEach writings).readBytes text =
      .ok (kept (tree.node? location) last.toUTF8) := by
  have isNode := node?_writeEach tree writings location
  rw [isLast] at isNode
  exact readBytes_of_rewritten ((covers_writeEach tree writings).locate found) isNode

theorem readBytes_writeEach_of_none {content : ByteArray}
    (read : tree.readBytes text = .ok content) (found : tree.locate text = .ok location)
    (none : tree.lastAt? location writings = none) :
    (tree.writeEach writings).readBytes text = .ok content := by
  obtain ⟨there, node, isThere, isNode, holds⟩ := readBytes_eq_ok_iff.mp read
  cases found.symm.trans isThere
  have unchanged := node?_writeEach tree writings location
  rw [none] at unchanged
  exact readBytes_eq_ok_iff.mpr ⟨location, node, (covers_writeEach tree writings).locate found,
    unchanged.trans isNode, holds⟩

end FileTree

end GrammarReach
