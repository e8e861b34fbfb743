import GrammarReach.Command.Invocation

/-!
# Reading the command line

Arguments are options, which start with minus signs, or operands.  The first
operand names a command; options in front of it and behind it can be shared
choices, and those behind it win.  Behind a double minus sign everything is an
operand.
-/

namespace GrammarReach

/-- The names of commands. -/
inductive CommandName where
  | analyze
  | grammar
  | reach
deriving DecidableEq, Repr

namespace CommandName

def all : List CommandName :=
  [.analyze, .grammar, .reach]

/-- The name of a command on the command line. -/
def text : CommandName → String
  | .analyze => "analyze"
  | .grammar => "grammar"
  | .reach => "reach"

def ofText (text : String) : Option CommandName :=
  all.find? fun command => command.text == text

/-- The number of operands that a command accepts; `none` is no limit. -/
def operandLimit : CommandName → Option Nat
  | .analyze => none
  | .grammar => some 1
  | .reach => some 1

end CommandName

/-- The options of all commands. -/
inductive OptionName where
  | verbose
  | config
  | family
  | parityClasses
  | cacheClearInterval
  | normalizer
  | outDir
  | format
  | paths
  | grammar
  | word
  | collapsed
  | out
  | help
  | version
deriving DecidableEq, Repr

namespace OptionName

def shared : List OptionName :=
  [.verbose, .config, .family, .parityClasses, .cacheClearInterval, .normalizer]

/-- The options that can stand behind a command, or in front of it, in the order
in which help lists them. -/
def allowed : Option CommandName → List OptionName
  | none => shared ++ [.help, .version]
  | some .analyze =>
      [.outDir, .verbose, .config, .format, .family, .paths, .parityClasses,
        .cacheClearInterval, .normalizer, .help]
  | some .grammar => shared ++ [.help]
  | some .reach =>
      [.grammar, .verbose, .config, .word, .collapsed, .family, .out, .parityClasses,
        .cacheClearInterval, .normalizer, .help]

/-- The name of an option behind two minus signs. -/
def long : OptionName → String
  | .verbose => "verbose"
  | .config => "config"
  | .family => "family"
  | .parityClasses => "parity-classes"
  | .cacheClearInterval => "cache-clear-interval"
  | .normalizer => "normalizer"
  | .outDir => "out-dir"
  | .format => "format"
  | .paths => "paths"
  | .grammar => "grammar"
  | .word => "word"
  | .collapsed => "collapsed"
  | .out => "out"
  | .help => "help"
  | .version => "version"

/-- The letter of an option behind one minus sign. -/
def short? : OptionName → Option Char
  | .verbose => some 'v'
  | .out => some 'o'
  | .help => some 'h'
  | .version => some 'V'
  | _ => none

def takesValue : OptionName → Bool
  | .verbose => false
  | .paths => false
  | .collapsed => false
  | .help => false
  | .version => false
  | _ => true

end OptionName

/-- What help can be given on. -/
inductive HelpTopic where
  | program
  | command (name : CommandName)
  | help
deriving DecidableEq, Repr

/-- Why there is nothing to run. -/
inductive ArgumentStop where
  | rejected
  /-- Help was asked for, in full or as a summary. -/
  | help (topic : HelpTopic) (full : Bool)
  | version
deriving DecidableEq, Repr

/-- What was read of the options and operands at one place. -/
structure ArgumentValues where
  shared : SharedChoices := {}
  outDirectory : Option String := none
  format : Option ReportFormat := none
  paths : Bool := false
  grammar : Option String := none
  word : Option String := none
  collapsed : Bool := false
  out : Option String := none
  operands : List String := []
deriving DecidableEq, Repr

namespace ArgumentValues

/-- Fills a place that is empty so far. -/
def once {α : Type} (held : Option α) (value : Option α) : Except ArgumentStop (Option α) :=
  match held, value with
  | none, some value => .ok (some value)
  | _, _ => .error .rejected

def path? (value : String) : Option String :=
  if value.isEmpty then none else some value

def count? (value : String) : Option Nat :=
  Text.readNumeral Text.wordBound value.toList

def format? : String → Option ReportFormat
  | "text" => some .text
  | "json" => some .json
  | _ => none

/-- Takes in an option with its value.  No option can be given twice. -/
def put (values : ArgumentValues) (option : OptionName) (value : String) :
    Except ArgumentStop ArgumentValues := do
  let shared := values.shared
  match option with
  | .config =>
      let settingsFile ← once shared.settingsFile (path? value)
      return { values with shared := { shared with settingsFile } }
  | .family =>
      let family ← once shared.family (AnalysisFamily.ofName value)
      return { values with shared := { shared with family } }
  | .parityClasses =>
      let parityClasses ← once shared.parityClasses (count? value)
      return { values with shared := { shared with parityClasses } }
  | .cacheClearInterval =>
      let cacheClearInterval ← once shared.cacheClearInterval (count? value)
      return { values with shared := { shared with cacheClearInterval } }
  | .normalizer =>
      let normalizer ← once shared.normalizer (some value)
      return { values with shared := { shared with normalizer } }
  | .outDir => return { values with outDirectory := ← once values.outDirectory (path? value) }
  | .format => return { values with format := ← once values.format (format? value) }
  | .grammar => return { values with grammar := ← once values.grammar (path? value) }
  | .word => return { values with word := ← once values.word (some value) }
  | .out => return { values with out := ← once values.out (path? value) }
  | _ => .error .rejected

/-- Takes in an option without a value, which was written in full or as a letter.
Only the verbosity can be given twice. -/
def mark (values : ArgumentValues) (command : Option CommandName) (option : OptionName)
    (full : Bool) : Except ArgumentStop ArgumentValues :=
  match option with
  | .verbose => .ok values
  | .paths => if values.paths then .error .rejected else .ok { values with paths := true }
  | .collapsed =>
      if values.collapsed then .error .rejected else .ok { values with collapsed := true }
  | .help => .error (.help (command.elim .program .command) full)
  | .version => .error .version
  | _ => .error .rejected

def operand (values : ArgumentValues) (command : Option CommandName) (text : String) :
    Except ArgumentStop ArgumentValues :=
  let fits := match command with
    | none => false
    | some command =>
        match command.operandLimit with
        | none => true
        | some limit => decide (values.operands.length < limit)
  if fits && !text.isEmpty then .ok { values with operands := values.operands ++ [text] }
  else .error .rejected

def allOperands (values : ArgumentValues) (command : Option CommandName) :
    List String → Except ArgumentStop ArgumentValues
  | [] => .ok values
  | text :: rest =>
      match values.operand command text with
      | .ok values => values.allOperands command rest
      | .error stop => .error stop

/-- Reads the letters behind one minus sign.  The first option with a value takes
the rest of the letters, or waits for the next argument. -/
def letters (command : Option CommandName) :
    List Char → ArgumentValues → Except ArgumentStop (ArgumentValues × Option OptionName)
  | [], values => .ok (values, none)
  | letter :: rest, values =>
      match (OptionName.allowed command).find? fun option => option.short? == some letter with
      | none => .error .rejected
      | some option =>
          if option.takesValue then
            match rest with
            | [] => .ok (values, some option)
            | '=' :: value => (values.put option (String.ofList value)).map (·, none)
            | value => (values.put option (String.ofList value)).map (·, none)
          else
            match values.mark command option false with
            | .ok values => letters command rest values
            | .error stop => .error stop

/-- Reads what stands behind two minus signs: a name, or a name with a value. -/
def longOption (command : Option CommandName) (text : List Char) (values : ArgumentValues) :
    Except ArgumentStop (ArgumentValues × Option OptionName) :=
  let (name, value) := match Text.cutAt '=' text with
    | some (name, value) => (name, some (String.ofList value))
    | none => (text, none)
  match (OptionName.allowed command).find? fun option => option.long == String.ofList name with
  | none => .error .rejected
  | some option =>
      match option.takesValue, value with
      | true, none => .ok (values, some option)
      | true, some value => (values.put option value).map (·, none)
      | false, none => (values.mark command option true).map (·, none)
      | false, some _ => .error .rejected

/-- Reads an option, if the argument is one. -/
def option? (command : Option CommandName) (argument : String) (values : ArgumentValues) :
    Option (Except ArgumentStop (ArgumentValues × Option OptionName)) :=
  match argument.toList with
  | '-' :: '-' :: text => some (longOption command text values)
  | '-' :: letter :: rest => some (letters command (letter :: rest) values)
  | _ => none

/-- Reads the arguments of a command, or those in front of one.  A waiting option
takes the next argument as its value, which cannot be an option.  In front of a
command the reader stops at the first operand and returns it with the arguments
behind it. -/
def readAll (command : Option CommandName) :
    List String → Option OptionName → ArgumentValues →
      Except ArgumentStop (ArgumentValues × Option (String × List String))
  | [], none, values => .ok (values, none)
  | [], some _, _ => .error .rejected
  | argument :: rest, some waiting, values =>
      match option? command argument values with
      | some _ => .error .rejected
      | none =>
          match values.put waiting argument with
          | .ok values => readAll command rest none values
          | .error stop => .error stop
  | argument :: rest, none, values =>
      if argument = "--" then
        (values.allOperands command rest).map (·, none)
      else
        match option? command argument values with
        | some (.ok (values, waiting)) => readAll command rest waiting values
        | some (.error stop) => .error stop
        | none =>
            if command.isNone then
              .ok (values, some (argument, rest))
            else
              match values.operand command argument with
              | .ok values => readAll command rest none values
              | .error stop => .error stop

/-- The command that the arguments behind its name make. -/
def command (values : ArgumentValues) : CommandName → Except ArgumentStop Command
  | .analyze =>
      if values.operands.isEmpty then
        .error .rejected
      else
        .ok (.analyze values.operands values.outDirectory (values.format.getD .text)
          values.paths)
  | .grammar =>
      match values.operands with
      | [file] => .ok (.grammar file)
      | _ => .error .rejected
  | .reach =>
      match values.grammar with
      | none => .error .rejected
      | some grammar =>
          let graph := values.operands.head?
          if graph.isSome && values.word.isSome then
            .error .rejected
          else
            .ok (.reach graph grammar values.word
              (if values.collapsed then .collapsed else .raw) values.out)

end ArgumentValues

namespace Invocation

/-- The name that asks for help instead of a command. -/
def helpName : String := "help"

/-- Reads the names behind the word that asks for help. -/
def readHelp : List String → ArgumentStop
  | [] => .help .program true
  | [name] =>
      match CommandName.ofText name with
      | some command => .help (.command command) true
      | none => if name = helpName then .help .help true else .rejected
  | _ => .rejected

def read (arguments : List String) : Except ArgumentStop Invocation :=
  match ArgumentValues.readAll none arguments none {} with
  | .error stop => .error stop
  | .ok (_, none) => .error .rejected
  | .ok (outer, some (name, rest)) =>
      match CommandName.ofText name with
      | none => .error (if name = helpName then readHelp rest else .rejected)
      | some command => do
          let (inner, _) ← ArgumentValues.readAll (some command) rest none {}
          let shared := outer.shared.override inner.shared
          return { shared, command := ← inner.command command }

end Invocation

end GrammarReach
