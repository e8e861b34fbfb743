import GrammarReach.Grammar.Clause
import GrammarReach.Text.Utf8
import GrammarReach.TextFilter.Catalogue

/-!
# Normalizers

Raw grammar text is brought into normal form before it is read: either it is in
normal form already, or a named text filter prints the normal form.
-/

namespace GrammarReach

/-- A filter program with its arguments. -/
structure FilterCommand where
  program : String
  arguments : List String
deriving DecidableEq, Repr

namespace FilterCommand

/-- Reads a command line; blanks separate the program and its arguments, and
nothing is quoted. -/
def read (line : String) : Option FilterCommand :=
  match (Text.words line.toList).map String.ofList with
  | [] => none
  | program :: arguments => some ⟨program, arguments⟩

def reference : FilterCommand :=
  ⟨"python3", ["mcfg.py", "-n"]⟩

/-- The number of bytes that a filter is sent before it has read any. -/
def pendingInput : Nat := 65536

/-- The reason given when a filter ends before it was sent all of its input. -/
def inputRefused : String := "Broken pipe (os error 32)"

variable {m : Type → Type} [Monad m]

def printedText (command : FilterCommand) (input : List UInt8) (outcome : FilterOutcome) :
    Except GrammarError String :=
  if !outcome.readsInput && pendingInput < input.length then
    .error (.program command.program inputRefused)
  else if outcome.succeeded then
    match Text.ofUtf8 ⟨outcome.output.toArray⟩ with
    | .ok text => .ok text
    | .error fault =>
        .error (.normalization ("normalizer output is not UTF-8: " ++ fault.message))
  else
    .error (.normalization
      (String.ofList (Text.trim (Text.readableUtf8 outcome.complaint).toList)))

/-- Normalizes a text by running the filter over it. -/
def normalize (storage : Storage m) (command : FilterCommand) (raw : String) :
    m (Except GrammarError String) := do
  match ← TextFilter.Filter.find storage command.program with
  | .error reason => return .error (.program command.program reason.message)
  | .ok filter =>
      let input := Text.bytesOf raw
      let outcome ← filter.run storage command.program command.arguments input
      return command.printedText input outcome

end FilterCommand

/-- The ways in which grammar text is brought into normal form. -/
inductive Normalizer where
  /-- The text has to be in normal form and stays as it is. -/
  | check
  | filter (command : FilterCommand)
deriving DecidableEq, Repr

namespace Normalizer

variable {m : Type → Type} [Monad m]

def normalize (storage : Storage m) (normalizer : Normalizer) (raw : String) :
    m (Except GrammarError String) :=
  match normalizer with
  | .check =>
      match Grammar.read raw with
      | .ok _ => return .ok raw
      | .error cause => return .error (.normalization cause.message)
  | .filter command => command.normalize storage raw

/-- Brings a text into normal form and reads the grammar. -/
def load (storage : Storage m) (normalizer : Normalizer) (raw : String) :
    m (Except GrammarError Grammar) := do
  match ← normalizer.normalize storage raw with
  | .error cause => return .error cause
  | .ok text => return Grammar.read text

end Normalizer

end GrammarReach
