import GrammarReach.Command.Arguments

/-!
# Help

What is printed when help or the version is asked for, or when the arguments
cannot be used.
-/

namespace GrammarReach

/-- The name of the program on the command line. -/
def programName : String := "mcfl"

/-- The line that names the program and its version. -/
def versionLine : String := programName ++ " 0.3.0\n"

/-- The notice for arguments that cannot be used. -/
def usageHint : String :=
  "error: the arguments cannot be used\n\nFor more information, try '--help'.\n"

namespace OptionName

/-- The name of the value that follows an option. -/
def valueName (option : OptionName) : String :=
  String.ofList (option.long.toList.map fun letter =>
    if letter = '-' then '_' else letter.toUpper)

def spelling (option : OptionName) : String :=
  let short := match option.short? with
    | some letter => "-" ++ String.singleton letter ++ ", "
    | none => "    "
  let value :=
    if option.takesValue then " <" ++ option.valueName ++ ">"
    else if option = .verbose then "..."
    else ""
  short ++ "--" ++ option.long ++ value

def purpose : OptionName → String
  | .verbose => "Log more (-v info, -vv debug); RUST_LOG takes precedence"
  | .config => "Session config (JSON); the flags below override its fields"
  | .family => "Benchmark label convention: taint or value-flow"
  | .parityClasses => "Residue classes of the augmented grammar"
  | .cacheClearInterval => "On-demand queries between memo resets"
  | .normalizer =>
      "Normalizer command line, e.g. \"python3 mcfg.py -n\" (default: input must already be " ++
        "in normal form)"
  | .outDir => "Write one result file per input here"
  | .format => "Result file format"
  | .paths => "Also write the on-demand paths as `<name>.paths`"
  | .grammar => "Grammar text"
  | .word => "Analyze a path graph spelling this word instead of a graph file"
  | .collapsed => "Collapse bracket labels to a/b/A/B and everything else to epsilon"
  | .out => "Write the paths here instead of stdout"
  | .help => "Print help"
  | .version => "Print version"

/-- What is noted about the value of an option. -/
def valueNotes : OptionName → List String
  | .format => ["[default: text]", "[possible values: text, json]"]
  | _ => []

end OptionName

namespace CommandName

def purpose : CommandName → String
  | .analyze => "Run the staged analysis on graph files"
  | .grammar => "Normalize a grammar and print it with its dimension and rank"
  | .reach => "Solve one grammar over one graph and print the start-symbol paths"

/-- What the full help adds to the purpose of a command, if there is more to say. -/
def details? : CommandName → Option String
  | .analyze =>
      some ("Directories are walked for `.dot` and `.txt` files. Every file gets its own " ++
        "session; files are analyzed in parallel.")
  | .grammar => none
  | .reach => none

def operandName : CommandName → String
  | .analyze => "<INPUTS>..."
  | .grammar => "<FILE>"
  | .reach => "[GRAPH]"

/-- What the operands of a command are for. -/
def operandPurpose : CommandName → String
  | .analyze => "Graph files or directories"
  | .grammar => "Grammar text"
  | .reach => "Graph file (omit with --word)"

/-- The options that a command cannot do without. -/
def requiredOptions : CommandName → String
  | .analyze => ""
  | .grammar => ""
  | .reach => " --grammar <GRAMMAR>"

def usage (command : CommandName) : String :=
  command.text ++ " [OPTIONS]" ++ command.requiredOptions ++ " " ++ command.operandName

end CommandName

namespace HelpTopic

/-- The start of a line that explains the line above it. -/
def explanation : String := "\n          "

/-- An entry whose text stands behind its name, or below it in the full help. -/
def operandEntry (name purpose : String) (full : Bool) : String :=
  "  " ++ name ++ (if full then explanation else "  ") ++ purpose ++ "\n"

/-- What the option for help says about itself.  Where summary and full help
differ, each points to the other one. -/
def helpPurpose (differ full : Bool) : String :=
  OptionName.help.purpose ++
    (if differ then
      if full then " (see a summary with '-h')" else " (see more with '--help')"
    else "")

/-- An option with its purpose below it.  In the full help the notes on its value
stand on lines of their own. -/
def optionEntry (differ full : Bool) (option : OptionName) : String :=
  let purpose := if option = .help then helpPurpose differ full else option.purpose
  let notes := option.valueNotes
  let notesText :=
    if notes.isEmpty then ""
    else if full then String.join (("" :: notes).map (explanation ++ ·))
    else String.join (notes.map (" " ++ ·))
  "  " ++ option.spelling ++ explanation ++ purpose ++ notesText ++ "\n"

/-- The options that can stand at a place; an empty line divides them in the full
help. -/
def optionsHelp (command : Option CommandName) (differ full : Bool) : String :=
  let entries := (OptionName.allowed command).map (optionEntry differ full)
  "Options:\n" ++ String.intercalate (if full then "\n" else "") entries

/-- A command in the list of all commands. -/
def commandEntry (name purpose : String) : String :=
  "  " ++ name ++ String.ofList (List.replicate (9 - name.length) ' ') ++ purpose ++ "\n"

def purposeOfHelp : String :=
  "Print this message or the help of the given subcommand(s)"

/-- The purpose of a topic and how it is called. -/
def heading (purpose usage : String) : String :=
  purpose ++ "\n\nUsage: " ++ programName ++ " " ++ usage ++ "\n\n"

/-- The help on a topic.  Only a command with details has more to say in full. -/
def text (topic : HelpTopic) (full : Bool) : String :=
  match topic with
  | .program =>
      heading "CFL / MCFL reachability with mutual refinement" "[OPTIONS] <COMMAND>" ++
        "Commands:\n" ++
        String.join (CommandName.all.map fun command =>
          commandEntry command.text command.purpose) ++
        commandEntry Invocation.helpName purposeOfHelp ++ "\n" ++
        optionsHelp none false false
  | .command name =>
      let differ := name.details?.isSome
      let full := full && differ
      let purpose := match full, name.details? with
        | true, some details => name.purpose ++ ".\n\n" ++ details
        | _, _ => name.purpose
      heading purpose name.usage ++
        "Arguments:\n" ++ operandEntry name.operandName name.operandPurpose full ++
        "\n" ++ optionsHelp (some name) differ full
  | .help =>
      heading purposeOfHelp (Invocation.helpName ++ " [COMMAND]...") ++
        "Arguments:\n" ++
        operandEntry "[COMMAND]..." "Print help for the subcommand(s)" false

end HelpTopic

end GrammarReach
