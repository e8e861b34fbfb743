import GrammarReach.Analysis.Report
import GrammarReach.Command.Invocation
import GrammarReach.Command.Outcome
import GrammarReach.Files.Path
import GrammarReach.Settings.Reader

/-!
# Analyzing graph files

Every input gets a session of its own.  Results are written after all inputs were
analyzed; an input that cannot be read or whose results cannot be written is
counted as failed.
-/

namespace GrammarReach

namespace CommandLine

variable {m : Type → Type} [Monad m]

/-- Files below a directory count as graph files by their extension. -/
def isGraphFile (name : String) : Bool :=
  Path.extension? name == some "dot" || Path.extension? name == some "txt"

/-- The graph files among the given locations, in the order of their parts. -/
def graphFiles (locations : List (List String)) : List (List String) :=
  let chosen := locations.filter fun location =>
    match location.getLast? with
    | some name => isGraphFile name
    | none => false
  (Std.TreeSet.ofList chosen).toList

/-- The files of an input: the graph files below a directory, or the input
itself. -/
def inputFiles (storage : Storage m) (input : String) : m (List String) := do
  if ← storage.isDirectory input then
    return (graphFiles (← storage.filesBelow input)).map (Path.join input)
  else
    return [input]

def discover (storage : Storage m) : List String → m (List String)
  | [] => return []
  | input :: rest => do
      let files ← inputFiles storage input
      return files ++ (← discover storage rest)

/-- The settings of an invocation: those of the settings file with the shared
choices in place. -/
def resolveSettings (storage : Storage m) (shared : SharedChoices) :
    m (Except Failure Settings) := do
  let loaded ← match shared.settingsFile with
    | none => pure (.ok {})
    | some path =>
        let read : Except FileError String → Except Failure Settings
          | .error reason => .error (.ofReading path reason)
          | .ok text => (Settings.read text).mapError .ofSettings
        pure ((read (← storage.readText path)).mapError fun failure =>
          failure.during ("loading session config " ++ path))
  return loaded.bind fun settings =>
    let chosen : Settings :=
      { settings with
        family := shared.family.getD settings.family
        parityClasses := shared.parityClasses.getD settings.parityClasses
        cacheClearInterval := shared.cacheClearInterval.getD settings.cacheClearInterval }
    chosen.validate.mapError .ofSettings

/-- Analyzes a graph file, unless it cannot be read. -/
def analyzeFile (storage : Storage m) (settings : Settings) (path : String) :
    m (Option StageResults) := do
  match ← storage.readText path with
  | .error _ => return none
  | .ok text =>
      let graph := (Graph.read .raw text).graph
      return some ((Session.ofSettings settings).analyze graph).1

def analyzeFiles (storage : Storage m) (settings : Settings) :
    List String → m (List (String × Option StageResults))
  | [] => return []
  | path :: rest => do
      let results ← analyzeFile storage settings path
      return (path, results) :: (← analyzeFiles storage settings rest)

def hexDigit (value : Nat) : Char :=
  if value < 10 then Char.ofNat ('0'.toNat + value) else Char.ofNat ('a'.toNat + value - 10)

def jsonCharacter (character : Char) : String :=
  match character with
  | '"' => "\\\""
  | '\\' => "\\\\"
  | '\n' => "\\n"
  | '\r' => "\\r"
  | '\t' => "\\t"
  | other =>
      let code := other.toNat
      if code = 8 then "\\b"
      else if code = 12 then "\\f"
      else if code < 0x20 then
        "\\u00" ++ String.ofList [hexDigit (code / 16), hexDigit (code % 16)]
      else String.singleton other

def jsonString (text : String) : String :=
  "\"" ++ String.join (text.toList.map jsonCharacter) ++ "\""

/-- A report as a JSON object, with the input in front. -/
def jsonReport (input : String) (report : Report) : String :=
  let counts := report.keyed.map fun (key, count) => (key, Text.decimal count)
  let members := (("input", jsonString input) :: counts).map fun (key, value) =>
    "  " ++ jsonString key ++ ": " ++ value
  "\x7b\n" ++ String.intercalate ",\n" members ++ "\n\x7d"

/-- The files that hold the results of an input, with their contents. -/
def resultFiles (directory input name : String) (format : ReportFormat) (withPaths : Bool)
    (results : StageResults) : List (String × String) :=
  let report := match format with
    | .text => (Path.join directory [name], results.report.text)
    | .json => (Path.join directory [name ++ ".json"], jsonReport input results.report)
  if withPaths then
    [report, (Path.join directory [name ++ ".paths"], Span.listText results.onDemand.toList)]
  else
    [report]

/-- Writes files one after the other, up to the first that cannot be written. -/
def writeAll (storage : Storage m) : List (String × String) → m Bool
  | [] => return true
  | (path, content) :: rest => do
      match ← storage.writeText path content with
      | .error _ => return false
      | .ok _ => writeAll storage rest

/-- Writes the results of an input, if they are to be written, and says whether
that worked. -/
def writeResults (storage : Storage m) (outDirectory : Option String) (format : ReportFormat)
    (withPaths : Bool) (input : String) (results : StageResults) : m Bool :=
  match outDirectory, (Path.read input).fileName? with
  | none, _ => return true
  | some _, none => return false
  | some directory, some name =>
      writeAll storage (resultFiles directory input name format withPaths results)

/-- The name of an input with the lines of its report below it. -/
def inputSection (input : String) (report : Report) : String :=
  input ++ "\n" ++ String.join (report.lines.map fun line => "  " ++ line ++ "\n")

/-- Writes the results of all inputs.  Returns the sections of those that worked
and the number of those that failed. -/
def writeSections (storage : Storage m) (outDirectory : Option String)
    (format : ReportFormat) (withPaths : Bool) :
    List (String × Option StageResults) → m (String × Nat)
  | [] => return ("", 0)
  | (_, none) :: rest => do
      let (sections, failed) ← writeSections storage outDirectory format withPaths rest
      return (sections, failed + 1)
  | (input, some results) :: rest => do
      let written ← writeResults storage outDirectory format withPaths input results
      let (sections, failed) ← writeSections storage outDirectory format withPaths rest
      if written then
        return (inputSection input results.report ++ sections, failed)
      else
        return (sections, failed + 1)

def openingLine (family : AnalysisFamily) (count : Nat) : String :=
  "Analyzing " ++ Text.decimal count ++ " input(s) (" ++ family.title ++ " family)\n"

/-- The line that says how many inputs failed. -/
def closingLine (count failed : Nat) : String :=
  if failed = 0 then
    "ok " ++ Text.decimal count ++ " input(s)\n"
  else
    "warning: " ++ Text.decimal failed ++ " of " ++ Text.decimal count ++
      " input(s) failed\n"

/-- Makes the directory for results, if there is to be one. -/
def prepareOutput (storage : Storage m) (outDirectory : Option String) :
    m (Except Failure Unit) :=
  match outDirectory with
  | none => return .ok ()
  | some directory => do
      match ← storage.createDirectories directory with
      | .ok _ => return .ok ()
      | .error reason => return .error ((Failure.ofFile reason).during ("creating " ++ directory))

def runAnalyze (storage : Storage m) (shared : SharedChoices) (inputs : List String)
    (outDirectory : Option String) (format : ReportFormat) (withPaths : Bool) : m Outcome := do
  match ← resolveSettings storage shared with
  | .error failure => return failure.outcome
  | .ok settings =>
      let files ← discover storage inputs
      if files.isEmpty then
        return Failure.outcome { message := "no graph files found" }
      match ← prepareOutput storage outDirectory with
      | .error failure => return failure.outcome
      | .ok _ =>
          let analyzed ← analyzeFiles storage settings files
          let (sections, failed) ←
            writeSections storage outDirectory format withPaths analyzed
          return { output := openingLine settings.family files.length ++ sections ++
            closingLine files.length failed }

end CommandLine

end GrammarReach
