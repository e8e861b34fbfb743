import GrammarReach.Proofs.Command.Actions
import GrammarReach.Proofs.Command.JsonReports
import GrammarReach.Proofs.Files.Paths
import Mathlib.Data.List.TakeWhile

/-!
# Result files

The result files of an input are named after the last part of its path, and nothing else tells
results apart from each other or from inputs.  A file holds the last result that was written to
its path, so a call that ends well loses results exactly if two of them have one path and are
different, and it changes an input exactly if a result is written to the place of the input.
-/

namespace GrammarReach

namespace CommandLine

/-! ## Calls -/

/-- A call that analyzes inputs and writes the results to a directory. -/
structure AnalyzeCall where
  tree : FileTree
  shared : SharedChoices := {}
  inputs : List String
  directory : String
  format : ReportFormat := .text
  withPaths : Bool := false

namespace AnalyzeCall

section Definitions

variable (call : AnalyzeCall)

/-- The outcome of the call, and the tree that it leaves behind. -/
def finish : Outcome × FileTree :=
  (runAnalyze FileTree.storage call.shared call.inputs (some call.directory) call.format
    call.withPaths).run call.tree

def outcome : Outcome :=
  call.finish.1

def final : FileTree :=
  call.finish.2

def settings? : Except Failure Settings :=
  ((resolveSettings FileTree.storage call.shared).run call.tree).1

def settings : Settings :=
  match call.settings? with
  | .ok settings => settings
  | .error _ => {}

/-- The inputs that are discovered. -/
def discovered : List String :=
  ((discover FileTree.storage call.inputs).run call.tree).1

/-- The tree with the directory for the results, in which the inputs are read. -/
def prepared : FileTree :=
  match call.tree.createDirectories call.directory with
  | .ok tree => tree
  | .error _ => call.tree

def results? (input : String) : Option StageResults :=
  ((analyzeFile FileTree.storage call.settings input).run call.prepared).1

/-- The result files of an input up to the first that cannot be written, with their contents. -/
def writtenFor (input : String) : List (String × String) :=
  writtenFiles call.prepared call.directory call.format call.withPaths input
    (call.results? input)

/-- All result files in the order in which they are written. -/
def writings : List (String × String) :=
  call.discovered.flatMap call.writtenFor

/-- The input can be analyzed, and all its results can be written. -/
def succeedsFor (input : String) : Bool :=
  succeeds call.prepared call.directory call.format call.withPaths input (call.results? input)

/-- The outcome when the results of all inputs were to be written. -/
def summary : Outcome where
  output := openingLine call.settings.family call.discovered.length ++
    String.join (call.discovered.map fun input =>
      printedFor call.prepared call.directory call.format call.withPaths input
        (call.results? input)) ++
    closingLine call.discovered.length
      (call.discovered.countP fun input => !call.succeedsFor input)

/-- The settings can be used, there is something to analyze, and there is a directory for the
results. -/
structure Proceeds : Prop where
  settings : call.settings? = .ok call.settings
  some : call.discovered ≠ []
  directory : call.tree.createDirectories call.directory = .ok call.prepared

/-- Every result file that was written holds what was written for its input. -/
def HoldsResults : Prop :=
  ∀ input ∈ call.discovered, ∀ writing ∈ call.writtenFor input,
    call.final.readBytes writing.1 = .ok writing.2.toUTF8

/-- Every input that could be read still has the content that was read. -/
def KeepsInputs : Prop :=
  ∀ input ∈ call.discovered, ∀ content, call.prepared.readBytes input = .ok content →
    call.final.readBytes input = .ok content

/-- Results with one path are the same, and none is lost in a file that stays empty. -/
structure ResultsApart : Prop where
  same : ∀ first ∈ call.writings, ∀ second ∈ call.writings,
    first.1 = second.1 → first.2 = second.2
  kept : ∀ writing ∈ call.writings, ∀ location,
    call.prepared.locate writing.1 = .ok location →
    call.prepared.node? location = some .sink → writing.2 = ""

/-- A result that is written to an input is the content of the input. -/
def InputsApart : Prop :=
  ∀ input ∈ call.discovered, ∀ content, call.prepared.readBytes input = .ok content →
    ∀ writing ∈ call.writings, call.prepared.locate writing.1 = call.prepared.locate input →
      writing.2.toUTF8 = content

/-- Every file that could be read before the call is there when inputs are read, and keeps its
content to the end unless a result is written to it. -/
def KeepsOthers : Prop :=
  ∀ path content, call.tree.readBytes path = .ok content →
    call.prepared.readBytes path = .ok content ∧
      ((∀ writing ∈ call.writings,
        call.prepared.locate writing.1 ≠ call.prepared.locate path) →
        call.final.readBytes path = .ok content)

end Definitions

variable {call : AnalyzeCall}

/-! ## Outcomes -/

theorem settings_eq {settings : Settings} (chosen : call.settings? = .ok settings) :
    call.settings = settings := by
  rw [AnalyzeCall.settings, chosen]

theorem prepared_eq {other : FileTree}
    (made : call.tree.createDirectories call.directory = .ok other) : call.prepared = other := by
  rw [prepared, made]

/-- A call ends well if it gets as far as writing the results of all inputs, and fails
otherwise. -/
theorem finish_cases :
    (call.Proceeds ∧
      call.finish = (call.summary, call.prepared.writeEach call.writings)) ∨
    (¬call.Proceeds ∧ call.outcome.exitCode = 1) := by
  unfold outcome finish runAnalyze
  rw [run_bind, reads_resolveSettings]
  cases chosen : ((resolveSettings FileTree.storage call.shared).run call.tree).1 with
  | error failure =>
      refine .inr ⟨fun proceeds => ?_, rfl⟩
      cases chosen.symm.trans proceeds.settings
  | ok settings =>
      dsimp only
      rw [run_bind, reads_discover]
      cases none : ((discover FileTree.storage call.inputs).run call.tree).1.isEmpty with
      | true => exact .inr ⟨fun proceeds => proceeds.some (List.isEmpty_iff.mp none), rfl⟩
      | false =>
          rw [if_neg Bool.false_ne_true, run_bind, run_prepareOutput]
          cases made : call.tree.createDirectories call.directory with
          | error reason =>
              refine .inr ⟨fun proceeds => ?_, rfl⟩
              cases made.symm.trans proceeds.directory
          | ok other =>
              have proceeds : call.Proceeds :=
                ⟨chosen.trans (congrArg _ (settings_eq chosen).symm),
                  List.isEmpty_eq_false_iff.mp none,
                  made.trans (congrArg _ (prepared_eq made).symm)⟩
              refine .inl ⟨proceeds, ?_⟩
              dsimp only
              rw [run_bind, run_analyzeFiles, run_bind, run_writeSections, List.map_map,
                List.countP_map, List.flatMap_map, ← prepared_eq made, ← settings_eq chosen]
              rfl

theorem exitCode_eq_zero_iff : call.outcome.exitCode = 0 ↔ call.Proceeds := by
  rcases call.finish_cases with ⟨proceeds, finish⟩ | ⟨stops, fails⟩
  · rw [outcome, finish]
    exact ⟨fun _ => proceeds, fun _ => rfl⟩
  · refine ⟨fun succeeds => ?_, fun proceeds => absurd proceeds stops⟩
    cases fails.symm.trans succeeds

theorem finish_eq (proceeds : call.Proceeds) :
    call.finish = (call.summary, call.prepared.writeEach call.writings) := by
  rcases call.finish_cases with ⟨_, finish⟩ | ⟨stops, _⟩
  · exact finish
  · exact absurd proceeds stops

theorem outcome_eq (proceeds : call.Proceeds) : call.outcome = call.summary := by
  rw [outcome, finish_eq proceeds]

theorem final_eq (proceeds : call.Proceeds) :
    call.final = call.prepared.writeEach call.writings := by
  rw [final, finish_eq proceeds]

theorem proceeds_of_isOk {input : String} {others : List String}
    (settings : call.settings? = .ok call.settings)
    (discovered : call.discovered = input :: others)
    (isOk : (call.tree.createDirectories call.directory).isOk = true) : call.Proceeds := by
  refine ⟨settings, by rw [discovered]; exact List.cons_ne_nil _ _, ?_⟩
  cases made : call.tree.createDirectories call.directory with
  | ok other => rw [prepared_eq made]
  | error reason =>
      rw [made] at isOk
      cases isOk

/-! ## Paths of results -/

theorem resultFiles_path {directory input name : String} {format : ReportFormat}
    {withPaths : Bool} {results : StageResults} {writing : String × String}
    (isName : Path.IsName name)
    (member : writing ∈ resultFiles directory input name format withPaths results) :
    ∃ name, Path.IsName name ∧ writing.1 = Path.join directory [name] := by
  have listed := List.mem_map_of_mem (f := Prod.fst) member
  have inThree : writing.1 = Path.join directory [name] ∨
      writing.1 = Path.join directory [name ++ ".json"] ∨
      writing.1 = Path.join directory [name ++ ".paths"] := by
    cases format <;> cases withPaths <;> simp [resultFiles] at listed <;> grind
  rcases inThree with path | path | path
  · exact ⟨_, isName, path⟩
  · exact ⟨_, isName.append (by decide), path⟩
  · exact ⟨_, isName.append (by decide), path⟩

variable {first second writing : String × String} {location : Location}

theorem path_of_mem (member : writing ∈ call.writings) :
    ∃ name, Path.IsName name ∧ writing.1 = Path.join call.directory [name] := by
  obtain ⟨input, _, written⟩ := List.mem_flatMap.mp member
  unfold writtenFor writtenFiles at written
  split at written
  · rename_i named
    exact resultFiles_path (Path.isName_of_fileName? named)
      ((List.takeWhile_prefix _).subset written)
  · cases written

theorem place_of_mem (member : writing ∈ call.writings) :
    ∃ location, call.prepared.place? writing.1 = some location := by
  obtain ⟨input, _, written⟩ := List.mem_flatMap.mp member
  unfold writtenFor writtenFiles at written
  split at written
  · have accepted := List.mem_takeWhile_imp written
    rw [accepts_eq] at accepted
    exact Option.isSome_iff_exists.mp accepted
  · cases written

theorem samePath (proceeds : call.Proceeds) (isFirst : first ∈ call.writings)
    (isSecond : second ∈ call.writings)
    (firstPlace : call.prepared.place? first.1 = some location)
    (secondPlace : call.prepared.place? second.1 = some location) : first.1 = second.1 := by
  have nonempty := FileTree.nonempty_of_createDirectories proceeds.directory
  obtain ⟨name, isName, firstPath⟩ := path_of_mem isFirst
  obtain ⟨other, isOther, secondPath⟩ := path_of_mem isSecond
  have firstLast := FileTree.getLast?_of_place firstPlace
  have secondLast := FileTree.getLast?_of_place secondPlace
  rw [firstPath, Path.read_join nonempty isName, List.getLast?_concat] at firstLast
  rw [secondPath, Path.read_join nonempty isOther, List.getLast?_concat] at secondLast
  rw [firstPath, secondPath, Option.some.inj (firstLast.symm.trans secondLast)]

theorem read_result (proceeds : call.Proceeds) (member : writing ∈ call.writings)
    (isPlace : call.prepared.place? writing.1 = some location) :
    ∃ last, (writing.1, last) ∈ call.writings ∧
      call.prepared.lastAt? location call.writings = some last ∧
      call.final.readBytes writing.1 =
        .ok (FileTree.kept (call.prepared.node? location) last.toUTF8) := by
  cases isLast : call.prepared.lastAt? location call.writings with
  | none =>
      have others := FileTree.lastText?_eq_none_iff.mp isLast writing member
      simp [isPlace] at others
  | some last =>
      obtain ⟨path, chosen, inWritings⟩ := FileTree.mem_of_lastText? isLast
      have path_eq : path = writing.1 :=
        samePath proceeds inWritings member (by simpa using chosen) isPlace
      subst path_eq
      refine ⟨last, inWritings, rfl, ?_⟩
      rw [final_eq proceeds]
      exact FileTree.readBytes_writeEach_of_place isPlace isLast

/-! ## Results -/

theorem ResultsApart.kept_eq (apart : call.ResultsApart) (member : writing ∈ call.writings)
    (isPlace : call.prepared.place? writing.1 = some location) :
    FileTree.kept (call.prepared.node? location) writing.2.toUTF8 = writing.2.toUTF8 := by
  unfold FileTree.kept
  split
  · rename_i isSink
    have found := FileTree.locate_of_place isPlace (by rw [isSink]; rfl)
    rw [apart.kept writing member location found isSink]
    rfl
  · rfl

theorem ResultsApart.last_eq (apart : call.ResultsApart) (member : writing ∈ call.writings)
    {last : String} (isLast : (writing.1, last) ∈ call.writings) : last = writing.2 :=
  apart.same _ isLast _ member rfl

theorem holdsResults_iff (proceeds : call.Proceeds) :
    call.HoldsResults ↔ call.ResultsApart := by
  constructor
  · intro holds
    have own : ∀ writing ∈ call.writings,
        call.final.readBytes writing.1 = .ok writing.2.toUTF8 := by
      intro writing member
      obtain ⟨input, isInput, written⟩ := List.mem_flatMap.mp member
      exact holds input isInput writing written
    refine ⟨fun first isFirst second isSecond same => ?_, ?_⟩
    · have contents := own first isFirst
      rw [same, own second isSecond] at contents
      exact (String.toByteArray_inj.mp (Except.ok.inj contents)).symm
    · intro writing member location found isSink
      obtain ⟨place, isPlace⟩ := place_of_mem member
      cases FileTree.place_of_locate isPlace found
      obtain ⟨last, _, _, read⟩ := read_result proceeds member isPlace
      rw [own writing member, isSink] at read
      exact String.toByteArray_inj.mp (Except.ok.inj read)
  · intro apart input isInput writing written
    have member : writing ∈ call.writings := List.mem_flatMap.mpr ⟨input, isInput, written⟩
    obtain ⟨location, isPlace⟩ := place_of_mem member
    obtain ⟨last, inWritings, _, read⟩ := read_result proceeds member isPlace
    rw [read, apart.last_eq member inWritings, apart.kept_eq member isPlace]

theorem resultsApart_of_nodup (different : (call.writings.map Prod.fst).Nodup)
    (kept : ∀ writing ∈ call.writings, ∀ location,
      call.prepared.locate writing.1 = .ok location →
      call.prepared.node? location ≠ some .sink) : call.ResultsApart := by
  refine ⟨fun first isFirst second isSecond same => ?_, ?_⟩
  · rw [List.inj_on_of_nodup_map different isFirst isSecond same]
  · intro writing member location found isSink
    exact absurd isSink (kept writing member location found)

/-! ## Inputs -/

theorem read_written (proceeds : call.Proceeds) (apart : call.ResultsApart) {path : String}
    (found : call.prepared.locate path = .ok location) (member : writing ∈ call.writings)
    (meet : call.prepared.locate writing.1 = call.prepared.locate path) :
    call.final.readBytes path = .ok writing.2.toUTF8 := by
  obtain ⟨place, isPlace⟩ := place_of_mem member
  cases FileTree.place_of_locate isPlace (meet.trans found)
  obtain ⟨last, inWritings, isLast, _⟩ := read_result proceeds member isPlace
  rw [final_eq proceeds, FileTree.readBytes_writeEach_of_locate found isLast,
    apart.last_eq member inWritings, apart.kept_eq member isPlace]

theorem read_unwritten (proceeds : call.Proceeds) {path : String} {content : ByteArray}
    (read : call.prepared.readBytes path = .ok content)
    (apart : ∀ writing ∈ call.writings,
      call.prepared.locate writing.1 ≠ call.prepared.locate path) :
    call.final.readBytes path = .ok content := by
  obtain ⟨location, found, taken⟩ := FileTree.located_of_read read
  rw [final_eq proceeds]
  refine FileTree.readBytes_writeEach_of_none read found ?_
  refine FileTree.lastText?_eq_none_iff.mpr fun writing member => ?_
  rw [decide_eq_false_iff_not]
  intro isPlace
  exact apart writing member ((FileTree.locate_of_place isPlace taken).trans found.symm)

theorem holdsResults_and_keepsInputs_iff (proceeds : call.Proceeds) :
    call.HoldsResults ∧ call.KeepsInputs ↔ call.ResultsApart ∧ call.InputsApart := by
  rw [holdsResults_iff proceeds]
  refine and_congr_right fun apart => ⟨?_, ?_⟩
  · intro keeps input isInput content read writing member meet
    obtain ⟨location, found, _⟩ := FileTree.located_of_read read
    have written := read_written proceeds apart found member meet
    exact Except.ok.inj (written.symm.trans (keeps input isInput content read))
  · intro inputsApart input isInput content read
    by_cases meets : ∃ writing ∈ call.writings,
        call.prepared.locate writing.1 = call.prepared.locate input
    · obtain ⟨writing, member, meet⟩ := meets
      obtain ⟨location, found, _⟩ := FileTree.located_of_read read
      rw [read_written proceeds apart found member meet,
        inputsApart input isInput content read writing member meet]
    · exact read_unwritten proceeds read fun writing member meet => meets ⟨writing, member, meet⟩

theorem keepsOthers (proceeds : call.Proceeds) : call.KeepsOthers := by
  intro path content read
  have later := (FileTree.extends_createDirectories proceeds.directory).readBytes read
  exact ⟨later, read_unwritten proceeds later⟩

/-! ## Reports -/

/-- The file that holds the report of an input, with its content. -/
def reportFile (call : AnalyzeCall) (input name : String) (results : StageResults) :
    String × String :=
  match call.format with
  | .text => (Path.join call.directory [name], results.report.text)
  | .json => (Path.join call.directory [name ++ ".json"], jsonReport input results.report)

section Reports

variable {input name : String} {results : StageResults}

theorem resultFiles_eq (input name : String) (results : StageResults) :
    resultFiles call.directory input name call.format call.withPaths results =
      call.reportFile input name results ::
        if call.withPaths then
          [(Path.join call.directory [name ++ ".paths"], Span.listText results.onDemand.toList)]
        else [] := by
  unfold resultFiles reportFile
  cases call.withPaths <;> cases call.format <;> rfl

theorem results?_of_read {text : String} {content : ByteArray}
    (read : call.prepared.readBytes input = .ok content)
    (isText : Text.ofUtf8 content = .ok text) :
    ∃ results, call.results? input = some results := by
  unfold results? analyzeFile
  rw [run_bind, run_readText read isText]
  exact ⟨_, rfl⟩

theorem succeedsFor_of_places (analyzed : call.results? input = some results)
    (named : (Path.read input).fileName? = some name)
    (places : ∀ writing ∈ resultFiles call.directory input name call.format call.withPaths results,
      (call.prepared.place? writing.1).isSome = true) :
    call.succeedsFor input = true := by
  unfold succeedsFor succeeds
  rw [analyzed, named]
  refine List.all_eq_true.mpr fun writing member => ?_
  rw [accepts_eq]
  exact places writing member

theorem writtenFor_eq (success : call.succeedsFor input = true) : ∃ results name,
    call.results? input = some results ∧ (Path.read input).fileName? = some name ∧
      call.writtenFor input =
        resultFiles call.directory input name call.format call.withPaths results := by
  unfold succeedsFor succeeds at success
  unfold writtenFor writtenFiles
  split at success
  · rename_i results name analyzed named
    rw [analyzed, named]
    exact ⟨results, name, rfl, rfl,
      List.takeWhile_eq_self_iff.mpr (List.all_eq_true.mp success)⟩
  · cases success

theorem writtenFor_eq_of_places (analyzed : call.results? input = some results)
    (named : (Path.read input).fileName? = some name)
    (places : ∀ writing ∈ resultFiles call.directory input name call.format call.withPaths results,
      (call.prepared.place? writing.1).isSome = true) :
    call.writtenFor input =
      resultFiles call.directory input name call.format call.withPaths results := by
  obtain ⟨others, other, isOthers, isOther, written⟩ :=
    writtenFor_eq (succeedsFor_of_places analyzed named places)
  cases analyzed.symm.trans isOthers
  cases named.symm.trans isOther
  exact written

theorem report_mem_writings (isInput : input ∈ call.discovered)
    (success : call.succeedsFor input = true) : ∃ results name,
    call.results? input = some results ∧ (Path.read input).fileName? = some name ∧
      call.reportFile input name results ∈ call.writings := by
  obtain ⟨results, name, analyzed, named, written⟩ := writtenFor_eq success
  refine ⟨results, name, analyzed, named, List.mem_flatMap.mpr ⟨input, isInput, ?_⟩⟩
  rw [written, resultFiles_eq]
  exact List.mem_cons_self

theorem sameName_loses (proceeds : call.Proceeds) (isJson : call.format = .json)
    {first second : String} (isFirst : first ∈ call.discovered)
    (isSecond : second ∈ call.discovered) (firstSucceeds : call.succeedsFor first = true)
    (secondSucceeds : call.succeedsFor second = true) (different : first ≠ second)
    (sameName : (Path.read first).fileName? = (Path.read second).fileName?) :
    ¬call.HoldsResults := by
  intro holds
  obtain ⟨firstResults, name, _, named, inFirst⟩ := report_mem_writings isFirst firstSucceeds
  obtain ⟨secondResults, other, _, otherNamed, inSecond⟩ :=
    report_mem_writings isSecond secondSucceeds
  cases named.symm.trans (sameName.trans otherNamed)
  have apart := (holdsResults_iff proceeds).mp holds
  have reports := apart.same _ inFirst _ inSecond (by simp [reportFile, isJson])
  simp only [reportFile, isJson] at reports
  exact different (jsonReport_inj reports)

end Reports

/-! ## All files -/

/-- A call that ends well holds all results and keeps all inputs exactly if neither two results
nor a result and an input meet in one file.  It reports the inputs that do not succeed, and all
other files are as they were. -/
theorem resultFiles_exact (call : AnalyzeCall) (endsWell : call.outcome.exitCode = 0) :
    (call.HoldsResults ↔ call.ResultsApart) ∧
      (call.HoldsResults ∧ call.KeepsInputs ↔ call.ResultsApart ∧ call.InputsApart) ∧
      call.KeepsOthers ∧ call.outcome = call.summary := by
  have proceeds := exitCode_eq_zero_iff.mp endsWell
  exact ⟨holdsResults_iff proceeds, holdsResults_and_keepsInputs_iff proceeds,
    keepsOthers proceeds, outcome_eq proceeds⟩

/-- Two files with different names are analyzed, and their paths are asked for. -/
def twoNames : AnalyzeCall where
  tree := (FileTree.empty.withFile ["a", "g.txt"] "0->1[label=\"normal\"]".toUTF8).withFile
    ["b", "h.txt"] .empty
  inputs := ["a/g.txt", "b/h.txt"]
  directory := "out"
  withPaths := true

private theorem paths_writtenFor_twoNames {input name text : String} {content : ByteArray}
    (read : twoNames.prepared.readBytes input = .ok content)
    (isText : Text.ofUtf8 content = .ok text) (named : (Path.read input).fileName? = some name)
    (report : (twoNames.prepared.place? (Path.join "out" [name])).isSome = true)
    (paths : (twoNames.prepared.place? (Path.join "out" [name ++ ".paths"])).isSome = true) :
    (twoNames.writtenFor input).map Prod.fst =
      [Path.join "out" [name], Path.join "out" [name ++ ".paths"]] := by
  obtain ⟨results, analyzed⟩ := results?_of_read read isText
  rw [writtenFor_eq_of_places analyzed named
    (List.forall_mem_cons.mpr ⟨report, List.forall_mem_singleton.mpr paths⟩)]
  rfl

private theorem paths_writings_twoNames : twoNames.writings.map Prod.fst =
    ["out/g.txt", "out/g.txt.paths", "out/h.txt", "out/h.txt.paths"] := by
  have discovered : twoNames.discovered = ["a/g.txt", "b/h.txt"] := rfl
  have edge : Text.ofUtf8 "0->1[label=\"normal\"]".toUTF8 = .ok "0->1[label=\"normal\"]" := rfl
  have empty : Text.ofUtf8 .empty = .ok "" := rfl
  have place : ∀ name ∈ ["g.txt", "g.txt.paths", "h.txt", "h.txt.paths"],
      (twoNames.prepared.place? (Path.join "out" [name])).isSome = true := by
    simp only [List.forall_mem_cons]
    exact ⟨rfl, rfl, rfl, rfl, List.forall_mem_nil _⟩
  have first := @paths_writtenFor_twoNames "a/g.txt" "g.txt" _ _ rfl edge rfl
    (place _ (by decide)) (place _ (by decide))
  have second := @paths_writtenFor_twoNames "b/h.txt" "h.txt" _ _ rfl empty rfl
    (place _ (by decide)) (place _ (by decide))
  rw [writings, discovered, List.map_flatMap, List.flatMap_cons, List.flatMap_singleton, first,
    second]
  rfl

/-- The two reports and the two files of paths meet neither each other nor an input. -/
theorem resultFiles_exact_twoNames : twoNames.outcome.exitCode = 0 ∧
    twoNames.writings.map Prod.fst =
      ["out/g.txt", "out/g.txt.paths", "out/h.txt", "out/h.txt.paths"] ∧
    twoNames.HoldsResults ∧ twoNames.KeepsInputs := by
  have endsWell : twoNames.outcome.exitCode = 0 := exitCode_eq_zero_iff.mpr
    (proceeds_of_isOk rfl (show twoNames.discovered = ["a/g.txt", "b/h.txt"] from rfl) rfl)
  have unlocated : ∀ writing ∈ twoNames.writings,
      twoNames.prepared.locate writing.1 = .error .notFound := by
    have each : ∀ path ∈ twoNames.writings.map Prod.fst,
        twoNames.prepared.locate path = .error .notFound := by
      rw [paths_writings_twoNames]
      simp only [List.forall_mem_cons]
      exact ⟨rfl, rfl, rfl, rfl, List.forall_mem_nil _⟩
    exact fun writing member => each _ (List.mem_map_of_mem member)
  refine ⟨endsWell, paths_writings_twoNames,
    (resultFiles_exact twoNames endsWell).2.1.mpr ⟨?_, ?_⟩⟩
  · refine resultsApart_of_nodup (by rw [paths_writings_twoNames]; decide) ?_
    intro writing member location found
    cases (unlocated writing member).symm.trans found
  · intro input isInput content read writing member meet
    obtain ⟨location, found, _⟩ := FileTree.located_of_read read
    cases (unlocated writing member).symm.trans (meet.trans found)

/-- Two files with one name are analyzed. -/
def namesakes : AnalyzeCall where
  tree := (FileTree.empty.withFile ["a", "g.txt"] .empty).withFile ["b", "g.txt"] .empty
  inputs := ["a/g.txt", "b/g.txt"]
  directory := "out"
  format := .json

theorem discovered_namesakes : namesakes.discovered = ["a/g.txt", "b/g.txt"] :=
  rfl

theorem proceeds_namesakes : namesakes.Proceeds :=
  proceeds_of_isOk rfl discovered_namesakes rfl

theorem succeeds_namesakes {input : String} (isInput : input ∈ namesakes.discovered) :
    namesakes.succeedsFor input = true ∧ (Path.read input).fileName? = some "g.txt" := by
  have place : (namesakes.prepared.place? (Path.join "out" ["g.txt.json"])).isSome = true := rfl
  have readable : (Path.read input).fileName? = some "g.txt" ∧
      namesakes.prepared.readBytes input = .ok .empty := by
    rw [discovered_namesakes] at isInput
    rcases List.mem_pair.mp isInput with rfl | rfl
    · exact ⟨rfl, rfl⟩
    · exact ⟨rfl, rfl⟩
  obtain ⟨results, analyzed⟩ :=
    results?_of_read readable.2 (show Text.ofUtf8 .empty = .ok "" from rfl)
  exact ⟨succeedsFor_of_places analyzed readable.1 (List.forall_mem_singleton.mpr place),
    readable.1⟩

/-- A file is analyzed, and its report is put beside it. -/
def graphOnly (directory : String) : AnalyzeCall where
  tree := FileTree.empty.withFile ["g.txt"] .empty
  inputs := ["g.txt"]
  directory

theorem writings_graphOnly {directory : String} (results : StageResults)
    (discovered : (graphOnly directory).discovered = ["g.txt"])
    (analyzed : (graphOnly directory).results? "g.txt" = some results)
    (place : ((graphOnly directory).prepared.place?
      (Path.join directory ["g.txt"])).isSome = true) :
    (graphOnly directory).writings = [(Path.join directory ["g.txt"], results.report.text)] := by
  rw [writings, discovered, List.flatMap_singleton]
  exact writtenFor_eq_of_places analyzed rfl (List.forall_mem_singleton.mpr place)

theorem discovered_graphOnly_beside : (graphOnly ".").discovered = ["g.txt"] :=
  rfl

theorem proceeds_graphOnly_beside : (graphOnly ".").Proceeds :=
  proceeds_of_isOk rfl discovered_graphOnly_beside rfl

theorem not_keepsInputs_graphOnly_beside : ¬(graphOnly ".").KeepsInputs := by
  have read : (graphOnly ".").prepared.readBytes "g.txt" = .ok .empty := rfl
  have found : (graphOnly ".").prepared.locate "g.txt" = .ok ["tmp", "work", "g.txt"] := rfl
  have again : (graphOnly ".").prepared.locate (Path.join "." ["g.txt"]) =
      .ok ["tmp", "work", "g.txt"] := rfl
  have isFile : (graphOnly ".").prepared.node? ["tmp", "work", "g.txt"] = some (.file .empty) :=
    rfl
  obtain ⟨results, analyzed⟩ := results?_of_read read (show Text.ofUtf8 .empty = .ok "" from rfl)
  have single := writings_graphOnly results discovered_graphOnly_beside analyzed rfl
  have apart : (graphOnly ".").ResultsApart := by
    refine resultsApart_of_nodup (by rw [single]; exact List.nodup_singleton _) ?_
    rw [single, List.forall_mem_singleton]
    intro location isLocation
    cases again.symm.trans isLocation
    simp [isFile]
  intro keeps
  have replaced := read_written proceeds_graphOnly_beside apart found
    (by rw [single]; exact List.mem_singleton_self _) (again.trans found.symm)
  have kept := keeps "g.txt"
    (by rw [discovered_graphOnly_beside]; exact List.mem_singleton_self _) .empty read
  have empty : results.report.text = "" :=
    String.toByteArray_inj.mp (Except.ok.inj (replaced.symm.trans kept))
  simp [Report.text, Report.lines, Report.titled, String.join] at empty

/-- A call ends well although both inputs succeed and one report is lost, and another call ends
well although its input is replaced by the report. -/
theorem results_lost_and_input_replaced :
    (namesakes.outcome.exitCode = 0 ∧
      (∀ input ∈ namesakes.discovered, namesakes.succeedsFor input = true) ∧
      ¬namesakes.HoldsResults) ∧
    ((graphOnly ".").outcome.exitCode = 0 ∧ ¬(graphOnly ".").KeepsInputs) := by
  have first : "a/g.txt" ∈ namesakes.discovered := by
    rw [discovered_namesakes]
    exact .head _
  have second : "b/g.txt" ∈ namesakes.discovered := by
    rw [discovered_namesakes]
    exact .tail _ (.head _)
  have firstSucceeds := succeeds_namesakes first
  have secondSucceeds := succeeds_namesakes second
  have loses : ¬namesakes.HoldsResults :=
    sameName_loses proceeds_namesakes rfl first second firstSucceeds.1 secondSucceeds.1
      (by decide) (firstSucceeds.2.trans secondSucceeds.2.symm)
  exact ⟨⟨exitCode_eq_zero_iff.mpr proceeds_namesakes,
    fun input isInput => (succeeds_namesakes isInput).1, loses⟩,
    exitCode_eq_zero_iff.mpr proceeds_graphOnly_beside, not_keepsInputs_graphOnly_beside⟩

end AnalyzeCall

end CommandLine

end GrammarReach
