import GrammarReach.TextFilter.Basic

/-!
# Options of filters

Options are single letters behind a minus sign, which can share one, or names
behind two minus signs, which can be cut short as long as they stay clear.  None
of them takes a value.
-/

namespace GrammarReach

namespace TextFilter

/-- The options that a filter knows. -/
structure OptionTable (α : Type) where
  letters : List (Char × α)
  names : List (String × α)
  mixed : Bool

/-- Why an argument is no option. -/
inductive OptionFault where
  | unknownLetter (letter : UInt8)
  | unknownName (argument : String)
  | unclear (argument : String) (names : List String)
  | withValue (name : String)
deriving DecidableEq, Repr

def OptionFault.text : OptionFault → List UInt8
  | .unknownLetter letter => Text.bytesOf "invalid option -- '" ++ [letter, ascii '\'']
  | .unknownName argument => Text.bytesOf ("unrecognized option '" ++ argument ++ "'")
  | .unclear argument names =>
      Text.bytesOf ("option '" ++ argument ++ "' is ambiguous; possibilities:" ++
        String.join (names.map fun name => " '--" ++ name ++ "'"))
  | .withValue name => Text.bytesOf ("option '--" ++ name ++ "' doesn't allow an argument")

/-- What was read of the arguments, up to the first fault. -/
structure ReadOptions (α : Type) where
  options : List α := []
  operands : List String := []
  fault : Option OptionFault := none

namespace ReadOptions

variable {α : Type}

def withOptions (read : ReadOptions α) (options : List α) : ReadOptions α :=
  { read with options := options ++ read.options }

def withOperand (read : ReadOptions α) (operand : String) : ReadOptions α :=
  { read with operands := operand :: read.operands }

end ReadOptions

namespace OptionTable

variable {α : Type}

def readLetters (table : OptionTable α) : List UInt8 → List α × Option OptionFault
  | [] => ([], none)
  | letter :: rest =>
      match table.letters.find? fun (known, _) => ascii known == letter with
      | some (_, option) =>
          let (options, fault) := table.readLetters rest
          (option :: options, fault)
      | none => ([], some (.unknownLetter letter))

def readName (table : OptionTable α) (argument : String) : Except OptionFault α :=
  let text := argument.toList.drop 2
  let written := text.takeWhile (· != '=')
  let named := match table.names.find? fun (name, _) => name.toList == written with
    | some exact => [exact]
    | none => table.names.filter fun (name, _) => written.isPrefixOf name.toList
  match named with
  | [] => .error (.unknownName argument)
  | [(name, option)] =>
      if written.length < text.length then .error (.withValue name) else .ok option
  | several => .error (.unclear argument (several.map (·.1)))

/-- Separates options from operands.  Behind a double minus sign everything is an
operand. -/
def read (table : OptionTable α) : List String → ReadOptions α
  | [] => {}
  | argument :: rest =>
      if argument = "--" then
        { operands := rest }
      else
        match argument.toList with
        | '-' :: '-' :: _ =>
            match table.readName argument with
            | .ok option => (table.read rest).withOptions [option]
            | .error fault => { fault := some fault }
        | '-' :: _ :: _ =>
            match table.readLetters ((Text.bytesOf argument).drop 1) with
            | (options, none) => (table.read rest).withOptions options
            | (options, some fault) => { options, fault := some fault }
        | _ =>
            if table.mixed then (table.read rest).withOperand argument
            else { operands := argument :: rest }

end OptionTable

end TextFilter

end GrammarReach
