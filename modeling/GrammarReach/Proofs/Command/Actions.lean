import GrammarReach.Command.Analyze
import GrammarReach.Proofs.Files.Writings

/-!
# Steps of an analysis on a tree

Settings, inputs and graphs are read without a change to the tree.  What is written are the result
files of one input after the other, those of an input up to the first that is refused.
-/

namespace GrammarReach

namespace CommandLine

/-! ## Actions that read -/

section Actions

variable {α β : Type}

/-- The action leaves every tree as it is. -/
def Reads (action : StateM FileTree α) : Prop :=
  ∀ tree, (action.run tree).2 = tree

theorem run_bind (first : StateM FileTree α) (next : α → StateM FileTree β) (tree : FileTree) :
    (first >>= next).run tree = (next (first.run tree).1).run (first.run tree).2 :=
  rfl

theorem reads_pure (value : α) : Reads (pure value) := fun _ => rfl

theorem Reads.bind {first : StateM FileTree α} {next : α → StateM FileTree β}
    (reads : Reads first) (later : ∀ value, Reads (next value)) : Reads (first >>= next) := by
  intro tree
  rw [run_bind, later, reads]

theorem reads_readText (path : String) : Reads (FileTree.storage.readText path) := by
  refine Reads.bind (fun _ => rfl) fun answer => ?_
  split
  · exact reads_pure _
  · split <;> exact reads_pure _

theorem run_readText {tree : FileTree} {path text : String} {content : ByteArray}
    (read : tree.readBytes path = .ok content) (isText : Text.ofUtf8 content = .ok text) :
    (FileTree.storage.readText path).run tree = (.ok text, tree) := by
  have bytes : (FileTree.storage.readBytes path).run tree = (.ok content, tree) :=
    congrArg (·, tree) read
  unfold Storage.readText
  rw [run_bind, bytes]
  dsimp only
  rw [isText]
  rfl

theorem reads_resolveSettings (shared : SharedChoices) :
    Reads (resolveSettings FileTree.storage shared) := by
  unfold resolveSettings
  cases shared.settingsFile with
  | none => exact Reads.bind (reads_pure _) fun _ => reads_pure _
  | some path =>
      exact Reads.bind (reads_readText path) fun _ =>
        Reads.bind (reads_pure _) fun _ => reads_pure _

theorem reads_inputFiles (input : String) : Reads (inputFiles FileTree.storage input) := by
  refine Reads.bind (fun _ => rfl) fun isDirectory => ?_
  split
  · exact Reads.bind (fun _ => rfl) fun _ => reads_pure _
  · exact reads_pure _

theorem reads_discover (inputs : List String) : Reads (discover FileTree.storage inputs) := by
  induction inputs with
  | nil => exact reads_pure _
  | cons input inputs induction =>
      exact (reads_inputFiles input).bind fun _ => induction.bind fun _ => reads_pure _

theorem reads_analyzeFile (settings : Settings) (path : String) :
    Reads (analyzeFile FileTree.storage settings path) := by
  refine (reads_readText path).bind fun answer => ?_
  split <;> exact reads_pure _

theorem run_analyzeFiles (settings : Settings) (paths : List String) (tree : FileTree) :
    (analyzeFiles FileTree.storage settings paths).run tree =
      (paths.map fun path =>
        (path, ((analyzeFile FileTree.storage settings path).run tree).1), tree) := by
  induction paths with
  | nil => rfl
  | cons path paths induction =>
      rw [analyzeFiles, run_bind, run_bind, reads_analyzeFile, induction]
      rfl

end Actions

/-! ## Actions that write -/

section Writing

variable {tree other : FileTree}

theorem run_change (edit : FileTree → Except FileError FileTree) (tree : FileTree) :
    (FileTree.change edit).run tree =
      match edit tree with
      | .ok other => (.ok (), other)
      | .error reason => (.error reason, tree) := by
  unfold FileTree.change
  rw [run_bind]
  change ((match edit tree with
    | .ok other => _
    | .error reason => _ : StateM FileTree (Except FileError Unit))).run tree = _
  split <;> rfl

theorem run_writeText (path text : String) (tree : FileTree) :
    (FileTree.storage.writeText path text).run tree =
      match tree.writeBytes path text.toUTF8 with
      | .ok other => (.ok (), other)
      | .error reason => (.error reason, tree) :=
  run_change _ tree

theorem run_createDirectories (text : String) (tree : FileTree) :
    (FileTree.storage.createDirectories text).run tree =
      match tree.createDirectories text with
      | .ok other => (.ok (), other)
      | .error reason => (.error reason, tree) :=
  run_change _ tree

theorem run_prepareOutput (directory : String) (tree : FileTree) :
    (prepareOutput FileTree.storage (some directory)).run tree =
      match tree.createDirectories directory with
      | .ok other => (.ok (), other)
      | .error reason =>
          (.error ((Failure.ofFile reason).during ("creating " ++ directory)), tree) := by
  unfold prepareOutput
  rw [run_bind, run_createDirectories]
  cases tree.createDirectories directory <;> rfl

/-- The file of a result can be written. -/
def accepts (tree : FileTree) (writing : String × String) : Bool :=
  (tree.writeBytes writing.1 writing.2.toUTF8).isOk

theorem accepts_eq (tree : FileTree) (writing : String × String) :
    accepts tree writing = (tree.place? writing.1).isSome := by
  rcases tree.writeBytes_cases writing.1 with ⟨location, isPlace, written⟩ | ⟨noPlace, _, refused⟩
  · rw [accepts, written, isPlace]
    rfl
  · rw [accepts, refused, noPlace]
    rfl

theorem accepts_congr (same : other.SameDirectories tree) : accepts other = accepts tree := by
  funext writing
  rw [accepts_eq, accepts_eq, same.place?]

theorem run_writeAll (writings : List (String × String)) (tree : FileTree) :
    (writeAll FileTree.storage writings).run tree =
      (writings.all (accepts tree), tree.writeEach (writings.takeWhile (accepts tree))) := by
  induction writings generalizing tree with
  | nil => rfl
  | cons writing writings induction =>
      rw [writeAll, run_bind, run_writeText]
      rcases tree.writeBytes_cases writing.1 with
        ⟨location, isPlace, written⟩ | ⟨noPlace, reason, refused⟩
      · have accepted : accepts tree writing = true := by rw [accepts_eq, isPlace]; rfl
        have next : tree.write writing = tree.store location writing.2.toUTF8 := by
          rw [FileTree.write, isPlace]
        have later := accepts_congr (tree.sameDirectories_write writing)
        rw [written, List.all_cons, List.takeWhile_cons_of_pos accepted, accepted,
          FileTree.writeEach_cons,
          ← later, ← next]
        exact induction _
      · have refusal : accepts tree writing = false := by rw [accepts_eq, noPlace]; rfl
        rw [refused, List.all_cons, List.takeWhile_cons_of_neg (by simp [refusal]), refusal]
        rfl

variable (tree) (directory : String) (format : ReportFormat) (withPaths : Bool)

/-- The result files of an input up to the first that is refused. -/
def writtenFiles (input : String) (results : Option StageResults) : List (String × String) :=
  match results, (Path.read input).fileName? with
  | some results, some name =>
      (resultFiles directory input name format withPaths results).takeWhile (accepts tree)
  | _, _ => []

/-- The input was analyzed, and all its results are written. -/
def succeeds (input : String) (results : Option StageResults) : Bool :=
  match results, (Path.read input).fileName? with
  | some results, some name =>
      (resultFiles directory input name format withPaths results).all (accepts tree)
  | _, _ => false

/-- What is printed for an input. -/
def printedFor (input : String) (results : Option StageResults) : String :=
  match results with
  | some results =>
      if succeeds tree directory format withPaths input (some results) then
        inputSection input results.report
      else ""
  | none => ""

variable {tree}

theorem writtenFiles_congr (same : other.SameDirectories tree) :
    writtenFiles other = writtenFiles tree := by
  unfold writtenFiles
  rw [accepts_congr same]

theorem succeeds_congr (same : other.SameDirectories tree) : succeeds other = succeeds tree := by
  unfold succeeds
  rw [accepts_congr same]

theorem printedFor_congr (same : other.SameDirectories tree) :
    printedFor other = printedFor tree := by
  unfold printedFor
  rw [succeeds_congr same]

variable (tree)

theorem run_writeResults (input : String) (results : StageResults) :
    (writeResults FileTree.storage (some directory) format withPaths input results).run tree =
      (succeeds tree directory format withPaths input (some results),
        tree.writeEach (writtenFiles tree directory format withPaths input (some results))) := by
  unfold writeResults writtenFiles succeeds
  cases (Path.read input).fileName? with
  | none => rfl
  | some name => exact run_writeAll _ tree

/-- The results of all inputs are written one after the other, and the inputs whose results are
not written are counted. -/
theorem run_writeSections (analyzed : List (String × Option StageResults)) :
    (writeSections FileTree.storage (some directory) format withPaths analyzed).run tree =
      ((String.join (analyzed.map fun entry =>
          printedFor tree directory format withPaths entry.1 entry.2),
        analyzed.countP fun entry => !succeeds tree directory format withPaths entry.1 entry.2),
        tree.writeEach (analyzed.flatMap fun entry =>
          writtenFiles tree directory format withPaths entry.1 entry.2)) := by
  induction analyzed generalizing tree with
  | nil => rfl
  | cons entry analyzed induction =>
      obtain ⟨input, _ | results⟩ := entry
      · have unprinted : printedFor tree directory format withPaths input none = "" := rfl
        have failed : succeeds tree directory format withPaths input none = false := rfl
        have unwritten : writtenFiles tree directory format withPaths input none = [] := rfl
        rw [writeSections, run_bind, induction]
        simp [unprinted, failed, unwritten, StateT.run]
        rfl
      · have same := tree.sameDirectories_writeEach
          (writtenFiles tree directory format withPaths input (some results))
        rw [writeSections, run_bind, run_bind, run_writeResults, induction,
          writtenFiles_congr same, succeeds_congr same, printedFor_congr same]
        simp only [List.map_cons, String.join_cons, List.countP_cons, List.flatMap_cons,
          FileTree.writeEach_append]
        have printed : printedFor tree directory format withPaths input (some results) =
            if succeeds tree directory format withPaths input (some results) then
              inputSection input results.report
            else "" := rfl
        cases success : succeeds tree directory format withPaths input (some results)
        all_goals
          simp only [printed, success]
          rfl

end Writing

end CommandLine

end GrammarReach
