import GrammarReach.Files.Storage
import GrammarReach.Grammar.Normalizer
import GrammarReach.Settings.Basic

/-!
# Outcomes of commands

A command ends with an exit code and what it prints to its two channels.  A
command that fails says why, from the outermost reason to the innermost one.
-/

namespace GrammarReach

/-- What a command leaves behind for its caller. -/
structure Outcome where
  exitCode : Nat := 0
  output : String := ""
  notices : String := ""
deriving DecidableEq, Repr

/-- Why a command failed: a message and the reasons behind it, each the cause of
the one before. -/
structure Failure where
  message : String
  causes : List String := []
deriving DecidableEq, Repr

namespace Failure

/-- Says what was tried when the failure happened. -/
def during (failure : Failure) (message : String) : Failure :=
  { message, causes := failure.message :: failure.causes }

def ofFile (reason : FileError) : Failure where
  message := reason.message

def ofReading (path : String) (reason : FileError) : Failure where
  message := "cannot read " ++ path ++ ": " ++ reason.message
  causes := [reason.message]

/-- The failure to read or to use settings. -/
def ofSettings (reason : SettingsError) : Failure where
  message := reason.message

def ofGrammar (reason : GrammarError) : Failure where
  message := reason.message
  causes := match reason with
    | .program _ cause => [cause]
    | .normalization _ => []
    | .clause _ _ => []

/-- Writes a text with one indentation before the first line and another one
before the others. -/
def indent (first others : String) (text : String) : String :=
  match (Text.pieces (· == '\n') text.toList).map String.ofList with
  | [] => first
  | line :: rest => first ++ line ++ String.join (rest.map fun line => "\n" ++ others ++ line)

def causeNumber (place : Nat) : String :=
  let digits := Text.decimal place
  String.ofList (List.replicate (5 - digits.length) ' ') ++ digits ++ ": "

/-- The causes below their heading.  They are numbered if there are several. -/
def causesText : List String → String
  | [] => ""
  | [cause] => "\n\nCaused by:\n" ++ indent "    " "    " cause
  | causes =>
      "\n\nCaused by:" ++ String.join (causes.zipIdx.map fun (cause, place) =>
        "\n" ++ indent (causeNumber place) "       " cause)

def text (failure : Failure) : String :=
  "Error: " ++ failure.message ++ causesText failure.causes ++ "\n"

def outcome (failure : Failure) : Outcome where
  exitCode := 1
  notices := failure.text

end Failure

end GrammarReach
